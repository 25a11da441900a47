import FastJsonSchema.Validate.References

/-!
# What a document reports

`schemaErrors` lists the errors of a schema about a value, in the order of the keywords and of the
parts of the value, given what is known of its subschemas: their verdicts, for the combinators, and
their errors, for the parts. An error names the path of the schema in the document, the datum and
the check that fails. `positionErrors` says the same of a position of a document, where a `$ref`
reports what its target reports.

A bound that does not fit a C `long` raises, and so does a regular expression that cannot be
matched: they are no errors, and neither is a division by zero.
-/

namespace FastJsonSchema

open Ruby Value

/-- What is known of a schema: its path, its verdicts and its errors. -/
structure Findings where
  path : RString
  holds : Value → Bool
  errors : Datum → List Site

/-- The errors of a list of checks, each the type of its error and whether the check fails. -/
def failing (path : RString) (d : Datum) (checks : List (RString × Bool)) : List Site :=
  (checks.filter (·.2)).map fun check => ⟨path, d, check.1⟩

/-! ## Keywords about one value -/

section Checks

variable (rt : Runtime) (customFormats : Option (List (RString × ℕ))) (kvs : List (Value × Value))

/-- A numeric keyword that is violated: `int` for an `Integer` that is a `long`, `float` for a
`Float`. -/
def numericFails (keyword : RString) (int : ℤ → Bool) (float : Double → Bool) : Bool :=
  match numberKeyword kvs keyword with
  | some (.int m) => (num2long (.int m)).toOption.any int
  | some (.float m) => float m
  | _ => false

/-- A size keyword that is violated. -/
def sizeFails (num : Value → Except RubyError ℤ) (keyword : RString) (violated : ℤ → Bool) :
    Bool :=
  (numberKeyword kvs keyword).any fun m => (num m).toOption.any violated

/-- The checks of an `Integer`, as a `long`. -/
def integerChecks (n : ℤ) : List (RString × Bool) :=
  (num2long (.int n)).toOption.elim [] fun n => [
    (str "multipleOf", numericFails kvs multipleOfStr
      (fun m => !(m = 0 ∨ n = longMin ∧ m = -1 : Bool) && n.tmod m ≠ 0)
      (fun m => rt.hasFraction 64 ((Double.ofInt n).div m))),
    (str "maximum", numericFails kvs maximumStr (n > ·) (·.lt (.ofInt n))),
    (str "exclusiveMaximum", numericFails kvs exclusiveMaximumStr (n ≥ ·) (·.le (.ofInt n))),
    (str "minimum", numericFails kvs minimumStr (n < ·) (Double.lt (.ofInt n))),
    (str "exclusiveMinimum", numericFails kvs exclusiveMinimumStr (n ≤ ·) (Double.le (.ofInt n)))]

/-- The checks of a `double`. -/
def doubleChecks (x : Double) : List (RString × Bool) := [
  (str "multipleOf", numericFails kvs multipleOfStr (fun m => rt.hasFraction 32 (x.div (.ofInt m)))
    (fun m => rt.hasFraction 32 (x.div m))),
  (str "maximum", numericFails kvs maximumStr (fun m => (Double.ofInt m).lt x) (·.lt x)),
  (str "exclusiveMaximum",
    numericFails kvs exclusiveMaximumStr (fun m => (Double.ofInt m).le x) (·.le x)),
  (str "minimum", numericFails kvs minimumStr (fun m => x.lt (.ofInt m)) (x.lt ·)),
  (str "exclusiveMinimum",
    numericFails kvs exclusiveMinimumStr (fun m => x.le (.ofInt m)) (x.le ·))]

/-- The check of `format`. A custom format has an error of its own. -/
def formatChecks (s : RString) : List (RString × Bool) :=
  (stringKeyword kvs formatStr).elim [] fun name =>
    match (customFormats.getD []).lookup name with
    | some callable => [((str "format_" ++ name).cString, rt.call callable (.str s) ≠ some true)]
    | none => ((Format.all.find? (·.name == name)).map fun f =>
        (f.error, !rt.accepts f s)).toList

def stringChecks (s : RString) : List (RString × Bool) := [
  (str "maxLength", sizeFails kvs num2long maxLengthStr (RString.length s > ·)),
  (str "minLength", sizeFails kvs num2long minLengthStr (RString.length s < ·)),
  (str "pattern", (stringKeyword kvs patternStr).any fun pattern =>
    rt.validRegexp pattern && (rt.regMatch pattern s).toOption == some false)]
      ++ formatChecks rt customFormats kvs s

/-- The checks of an array as a whole. -/
def arrayChecks (xs : List Value) : List (RString × Bool) := [
  (str "maxItems", sizeFails kvs num2long maxItemsStr (fun m => xs.length > m)),
  (str "minItems", sizeFails kvs num2long minItemsStr (fun m => xs.length < m)),
  (str "uniqueItems",
    boolKeyword kvs uniqueItemsStr = some true ∧ (Value.uniq xs).length < xs.length)]

/-- The checks of an object as a whole: one for each name that is required. -/
def objectChecks (members : List (Value × Value)) : List (RString × Bool) := [
  (str "maxProperties", sizeFails kvs num2ulong maxPropertiesStr (fun m => members.length > m)),
  (str "minProperties", sizeFails kvs num2ulong minPropertiesStr (fun m => members.length < m))]
    ++ ((arrayKeyword kvs requiredStr).getD []).map fun name =>
      (str "required", (Value.lookup members name).isNone)

/-- The error of a value of another type than the one that is named. -/
def TypeFlag.mismatch : TypeFlag → RString
  | .null => str "type_null"
  | .bool => str "type_bool"
  | .string => str "type_string"
  | .integer => str "type_integer"
  | .number => str "type_number"
  | .array => str "type_array"
  | .object => str "type_object"

/-- The error of a value of a type that is not admitted. -/
def typeError : RString :=
  match Value.aref kvs typeStr with
  | .str name => ((typeFlag name.cString).map TypeFlag.mismatch).getD []
  | _ => str "type"

/-- The checks of the value itself. -/
def valueChecks (v : Value) : List (RString × Bool) := [
  (str "const", (Value.get kvs constStr).any fun c => !Value.equal false c v),
  (str "enum", (arrayKeyword kvs enumStr).any fun e => !Value.includes e v)]

end Checks

/-! ## Keywords with subschemas -/

namespace Applicators

section Errors

variable (rt : Runtime) (a : Applicators Findings) (path : RString) (d : Datum)

/-- The errors of the elements: a list of schemas is for the first elements, and `additionalItems`
for the elements after them. -/
def elementErrors (xs : List Value) : List Site :=
  match a.items, a.itemsList with
  | some s, _ => (d.elements xs).flatMap fun x => s.errors x.2
  | none, some ss => ((d.elements xs).zip ss).flatMap (fun x => x.2.errors x.1.2)
      ++ a.additionalItems.elim [] fun s =>
        ((d.elements xs).drop ss.length).flatMap fun x => s.errors x.2
  | none, none => []

/-- `contains`: one error for too many elements that are valid, one for too few. -/
def containsErrors (kvs : List (Value × Value)) (xs : List Value) : List Site :=
  a.contains.elim [] fun s =>
    failing path d [(str "maxContains",
      numericFails kvs maxContainsStr (fun m => xs.countP s.holds > m) fun _ => false)]
    ++ match numberKeyword kvs minContainsStr with
      | some (.int _) => failing path d [(str "minContains",
          numericFails kvs minContainsStr (fun m => xs.countP s.holds < m) fun _ => false)]
      | _ => failing s.path d [(str "contains", xs.countP s.holds = 0)]

/-- The schemas of `patternProperties` whose pattern matches a name. -/
def matched (k : RString) : List Findings :=
  ((a.patternProperties.getD []).filter fun p =>
    (rt.regMatch p.1 k).toOption == some true).map (·.2)

/-- The errors of one property: of its name, and of its value by each schema for it. -/
def propertyErrors (k : RString) (v : Value) : List Site :=
  let errorsOf (s : Findings) := s.errors (d.child (.str k) v)
  let named := (a.properties.getD []).lookup k
  a.propertyNames.elim [] (·.errors (d.name k)) ++ named.elim [] errorsOf
    ++ (a.matched rt k).flatMap errorsOf
    ++ if named.isSome || !(a.matched rt k).isEmpty then []
      else a.additionalProperties.elim [] errorsOf

/-- The errors of the dependencies of the properties that are present. -/
def dependencyErrors (members : List (Value × Value)) : List Site :=
  (a.dependencies.getD []).flatMap fun p =>
    if (Value.lookup members (.str p.1)).isSome then p.2.errors d else []

/-- The error of the selected branch of `if`: it is the branch that is named. -/
def conditionalErrors : List Site :=
  a.ifSchema.elim [] fun s =>
    let branch (o : Option Findings) (type : RString) :=
      o.elim [] fun s => failing s.path d [(type, !s.holds d.value)]
    if s.holds d.value then branch a.thenSchema (str "if/then")
    else branch a.elseSchema (str "if/else")

/-- The errors of `not`, `allOf`, `anyOf` and `oneOf`, each about the value as a whole. -/
def combinationErrors : List Site :=
  a.notSchema.elim [] (fun s => failing s.path d [(str "not", s.holds d.value)])
    ++ failing path d [
      (str "allOf", a.allOf.any fun ss => !ss.all (·.holds d.value)),
      (str "anyOf", a.anyOf.any fun ss => !ss.any (·.holds d.value)),
      (str "oneOf", a.oneOf.any fun ss => ss.countP (·.holds d.value) ≠ 1)]

end Errors

end Applicators

/-! ## Schemas -/

section Schemas

variable (rt : Runtime) (customFormats : Option (List (RString × ℕ)))

section Keywords

variable (kvs : List (Value × Value)) (a : Applicators Findings) (path : RString) (d : Datum)

/-- The errors of the keywords of the type of a value. -/
def typedErrors : List Site :=
  let mismatch : List Site := [⟨path, d, typeError kvs⟩]
  match d.value with
  | .nil => if typeAdmits kvs .null then [] else mismatch
  | .bool _ => if typeAdmits kvs .bool then [] else mismatch
  | .int n =>
    if typeAdmits kvs .integer then failing path d (integerChecks rt kvs n)
    else if typeAdmits kvs .number then
      failing path d ((num2long (.int n)).toOption.elim [] fun m => doubleChecks rt kvs (.ofInt m))
    else mismatch
  | .float x =>
    if typeAdmits kvs .number then failing path d (doubleChecks rt kvs x) else mismatch
  | .str s =>
    if typeAdmits kvs .string then failing path d (stringChecks rt customFormats kvs s)
    else mismatch
  | .arr xs =>
    if typeAdmits kvs .array then
      failing path d (arrayChecks kvs xs) ++ a.elementErrors d xs ++ a.containsErrors path d kvs xs
    else mismatch
  | .hash members =>
    if typeAdmits kvs .object then
      failing path d (objectChecks kvs members) ++ a.dependencyErrors d members
        ++ (Value.stringEntries members).flatMap fun kv => a.propertyErrors rt d kv.1 kv.2
    else mismatch
  | .other _ =>
    match Value.aref kvs typeStr with
    | .str _ => mismatch
    | _ => []

/-- The errors of a schema object. -/
def keywordErrors : List Site :=
  (if namesNoType kvs then [] else typedErrors rt customFormats kvs a path d)
    ++ failing path d (valueChecks kvs d.value) ++ a.conditionalErrors d
    ++ a.combinationErrors path d

end Keywords

/-- The errors of a schema about a datum, given what is known of its subschemas. -/
def schemaErrors (a : Applicators Findings) (path : RString) (schema : Value) (d : Datum) :
    List Site :=
  match schema with
  | .bool false => [⟨path, d, str "false_schema"⟩]
  | .hash (kv :: kvs) => keywordErrors rt customFormats (kv :: kvs) a path d
  | _ => []

/-- The errors of a position, given the verdicts `F` and the errors `G` of the other positions. -/
def positionErrors (doc : Value) (F : Position → Value → Bool) (G : Position → Datum → List Site)
    (p : Position) (d : Datum) : List Site :=
  if p.refVal.isSome then (targetOf rt customFormats doc p).elim [] (G · d)
  else schemaErrors rt customFormats ((p.applicators rt).map fun q => ⟨q.path, F q, G q⟩) p.path
    p.value d

/-- The equations of the errors of a document. -/
def SolvesErrors (doc : Value) (F : Position → Value → Bool)
    (G : Position → Datum → List Site) : Prop :=
  ∀ p ∈ positionsOf rt customFormats doc, ∀ d,
    G p d = positionErrors rt customFormats doc F G p d

end Schemas

end FastJsonSchema
