import FastJsonSchema.Schema.Runtime
import FastJsonSchema.Traversal.Prog

/-!
# What validation works with

The evaluator of `validate.c` and its neighbours is a program of `Traversal.Prog`: a call is a
compiled schema with the value it is to check, a token is what `ADD_TO_CONTEXT` stores, a site is
the error that `yield_error` builds, without its path.
-/

namespace FastJsonSchema

open Ruby Traversal

/-- A value stored by `ADD_TO_CONTEXT`. -/
inductive Token
  | str (s : RString)
  | index (i : ℕ)
  deriving DecidableEq

/-- An occurrence of a value in the instance: the tokens that lead to it from the root, or, for the
name of a property, to the property. Validation itself only reads the value. -/
structure Datum where
  value : Value
  loc : List Token
  isName : Bool

/-- An error, without its `data_path`. -/
structure Site where
  schemaPath : RString
  data : Datum
  type : RString

/-- A call of a `validation_function`. -/
abbrev Call := CompiledSchema × Datum

/-- A piece of the evaluator. -/
abbrev Code := Prog Call Token Site RubyError

/-- `MAX_CONTEXT_DEPTH` -/
def maxContextDepth : ℕ := 1000

namespace Datum

/-- The root of an instance. -/
def root (v : Value) : Datum := ⟨v, [], false⟩

/-- The value of the element or property at a token. -/
def child (d : Datum) (t : Token) (v : Value) : Datum := ⟨v, d.loc ++ [t], false⟩

/-- The name of a property. -/
def name (d : Datum) (k : RString) : Datum := ⟨.str k, d.loc ++ [.str k], true⟩

/-- The elements of an array, each with its index. -/
def elements (d : Datum) (xs : List Value) : List (Token × Datum) :=
  xs.zipIdx.map fun x => (.index x.2, d.child (.index x.2) x.1)

end Datum

/-- `yield_error` -/
def yieldError (cs : CompiledSchema) (d : Datum) (type : RString) : Code :=
  .fail ⟨cs.path, d, type⟩

/-- Go on with the result of a conversion, or raise its exception. -/
def converted {α : Type} (x : Except RubyError α) (k : α → Code) : Code :=
  match x with
  | .ok a => k a
  | .error e => .raise e

/-! ## Numbers of Ruby in C -/

def longMin : ℤ := -2 ^ 63
def longMax : ℤ := 2 ^ 63 - 1

/-- `NUM2LONG` -/
def num2long : Value → Except RubyError ℤ
  | .int n => if longMin ≤ n ∧ n ≤ longMax then .ok n else .error .rangeError
  | .float x =>
    match x.toInt 64 with
    | some n => .ok n
    | none => .error .rangeError
  | _ => .error .typeError

/-- `NUM2ULONG`: a negative number wraps. -/
def num2ulong : Value → Except RubyError ℤ
  | .int n => if longMin ≤ n ∧ n < 2 ^ 64 then .ok (n % 2 ^ 64) else .error .rangeError
  | .float (.finite q) =>
    let n := q.num.tdiv q.den
    if longMin ≤ n ∧ n < 2 ^ 64 then .ok (n % 2 ^ 64) else .error .rangeError
  | .float _ => .error .rangeError
  | _ => .error .typeError

/-- `div - (T)div != 0.0`, for a signed C type `T` of `w` bits. -/
def Runtime.hasFraction (rt : Runtime) (w : ℕ) (div : Double) : Bool :=
  div.sub (.ofInt ((div.toInt w).getD (rt.castOut w div))) != .finite 0

end FastJsonSchema
