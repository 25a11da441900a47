import FastJsonSchema.Ruby.Double
import Mathlib.Data.List.Basic

/-!
# Ruby values

What the extension sees of the objects it is given. A string is its bytes, in UTF-8. A hash is
the list of its entries in insertion order, whose keys are distinct in Ruby. Objects of any other
class are told apart by their identity only.
-/

namespace Ruby

/-- The bytes of a Ruby string. -/
abbrev RString := List UInt8

/-- The bytes of a literal. -/
def str (s : String) : RString := s.toUTF8.data.toList

/-- A Ruby object. -/
inductive Value
  | nil
  | bool (b : Bool)
  | int (n : ℤ)
  | float (x : Double)
  | str (s : RString)
  | arr (xs : List Value)
  | hash (kvs : List (Value × Value))
  | other (id : ℕ)

/-- The hash of a JSON object. -/
def Value.object (kvs : List (String × Value)) : Value :=
  .hash (kvs.map fun kv => (.str (Ruby.str kv.1), kv.2))

namespace RString

/-- The number of bytes of the character at the head: the length of a well-formed UTF-8 sequence,
one for anything else. -/
def charLength : RString → ℕ
  | a :: b :: c :: d :: _ =>
    if 0xC2 ≤ a ∧ a ≤ 0xDF ∧ tail b then 2
    else if lead₃ a b ∧ tail c then 3
    else if lead₄ a b ∧ tail c ∧ tail d then 4
    else 1
  | [a, b, c] => if 0xC2 ≤ a ∧ a ≤ 0xDF ∧ tail b then 2 else if lead₃ a b ∧ tail c then 3 else 1
  | [a, b] => if 0xC2 ≤ a ∧ a ≤ 0xDF ∧ tail b then 2 else 1
  | _ => 1
where
  tail (b : UInt8) : Bool := 0x80 ≤ b && b ≤ 0xBF
  lead₃ (a b : UInt8) : Bool :=
    a == 0xE0 && 0xA0 ≤ b && b ≤ 0xBF || 0xE1 ≤ a && a ≤ 0xEC && tail b
      || a == 0xED && 0x80 ≤ b && b ≤ 0x9F || 0xEE ≤ a && a ≤ 0xEF && tail b
  lead₄ (a b : UInt8) : Bool :=
    a == 0xF0 && 0x90 ≤ b && b ≤ 0xBF || 0xF1 ≤ a && a ≤ 0xF3 && tail b
      || a == 0xF4 && 0x80 ≤ b && b ≤ 0x8F

/-- The number of characters after `skip` more bytes of the current one. -/
def lengthFrom : ℕ → RString → ℕ
  | _, [] => 0
  | skip + 1, _ :: s => lengthFrom skip s
  | 0, b :: s => lengthFrom (charLength (b :: s) - 1) s + 1

/-- `rb_str_length`: the number of characters. -/
def length (s : RString) : ℕ := lengthFrom 0 s

/-- The decimal digits of a number, by `fuel` divisions. -/
def digits : ℕ → ℕ → RString
  | 0, _ => []
  | fuel + 1, n => (if n < 10 then [] else digits fuel (n / 10)) ++ [UInt8.ofNat (48 + n % 10)]

/-- The C string at the pointer of a Ruby string: its bytes up to the first NUL. -/
def cString (s : RString) : RString := s.takeWhile (· ≠ 0)

end RString

/-- `rb_sprintf("%ld", n)` -/
def decimal (n : ℕ) : RString := RString.digits (n + 1) n

namespace Value

/-- Whether the value is the string `s`. -/
def isStr (s : RString) : Value → Bool
  | .str t => t == s
  | _ => false

mutual

/-- Equality of objects: `==`, and the stricter `eql?`, which tells integers from floats. -/
def equal (strict : Bool) : Value → Value → Bool
  | .nil, .nil => true
  | .bool a, .bool b => a == b
  | .int a, .int b => a == b
  | .int a, .float b => !strict && b == .finite a
  | .float a, .int b => !strict && a == .finite b
  | .float a, .float b => a.eq b
  | .str a, .str b => a == b
  | .arr xs, .arr ys => equalList strict xs ys
  | .hash kvs, .hash kvs' => kvs.length == kvs'.length && subHash strict kvs kvs'
  | .other a, .other b => a == b
  | _, _ => false

/-- Element by element. -/
def equalList (strict : Bool) : List Value → List Value → Bool
  | [], [] => true
  | x :: xs, y :: ys => equal strict x y && equalList strict xs ys
  | _, _ => false

/-- Every entry of the first hash is one of the second: the key is looked up by `eql?`. -/
def subHash (strict : Bool) : List (Value × Value) → List (Value × Value) → Bool
  | [], _ => true
  | (k, v) :: kvs, kvs' =>
    (match kvs'.find? fun kv => equal true k kv.1 with
      | some kv => equal strict v kv.2
      | none => false) && subHash strict kvs kvs'

end

/-- `rb_hash_lookup2` with `Qundef`: the entry of a key. -/
def lookup (kvs : List (Value × Value)) (k : Value) : Option Value :=
  (kvs.find? fun kv => equal true k kv.1).map (·.2)

/-- The entry of a string key. -/
def get (kvs : List (Value × Value)) (k : RString) : Option Value :=
  (kvs.find? fun kv => kv.1.isStr k).map (·.2)

/-- `rb_hash_aref` with a string key: the entry, `nil` when there is none. -/
def aref (kvs : List (Value × Value)) (k : RString) : Value := (get kvs k).getD .nil

/-- `include?`: the elements are compared with `==`. -/
def includes (xs : List Value) (x : Value) : Bool := xs.any fun y => equal false y x

/-- `uniq`: an element is kept unless one kept before is `eql?` to it. -/
def uniq (xs : List Value) : List Value :=
  xs.foldl (fun kept x => if kept.any (equal true x) then kept else kept ++ [x]) []

/-- The entries of a hash whose keys are strings. -/
def stringEntries (kvs : List (Value × Value)) : List (RString × Value) :=
  kvs.filterMap fun kv =>
    match kv.1 with
    | .str s => some (s, kv.2)
    | _ => none

mutual

/-- The number of arrays and objects nested in each other. -/
def nesting : Value → ℕ
  | .arr xs => nestingList xs + 1
  | .hash kvs => nestingEntries kvs + 1
  | _ => 0

/-- The largest nesting of an element. -/
def nestingList : List Value → ℕ
  | [] => 0
  | x :: xs => max (nesting x) (nestingList xs)

/-- The largest nesting of a value. -/
def nestingEntries : List (Value × Value) → ℕ
  | [] => 0
  | (_, v) :: kvs => max (nesting v) (nestingEntries kvs)

end

theorem nesting_le_list {xs : List Value} {v : Value} (h : v ∈ xs) :
    nesting v ≤ nestingList xs := by
  induction xs with
  | nil => exact absurd h (by simp)
  | cons x xs ih =>
    rw [nestingList]
    rcases List.mem_cons.1 h with rfl | h
    · exact le_max_left _ _
    · exact (ih h).trans (le_max_right _ _)

theorem nesting_le_entries {kvs : List (Value × Value)} {k v : Value} (h : (k, v) ∈ kvs) :
    nesting v ≤ nestingEntries kvs := by
  induction kvs with
  | nil => exact absurd h (by simp)
  | cons kv kvs ih =>
    obtain ⟨k', v'⟩ := kv
    rw [nestingEntries]
    rcases List.mem_cons.1 h with h | h
    · obtain ⟨rfl, rfl⟩ := Prod.mk.inj h
      exact le_max_left _ _
    · exact (ih h).trans (le_max_right _ _)

theorem isStr_iff {s : RString} {v : Value} : v.isStr s = true ↔ v = .str s := by
  cases v <;> simp [isStr]

theorem mem_stringEntries {kvs : List (Value × Value)} {s : RString} {v : Value} :
    (s, v) ∈ stringEntries kvs ↔ (.str s, v) ∈ kvs := by
  rw [stringEntries, List.mem_filterMap]
  constructor
  · rintro ⟨⟨k, w⟩, hm, h⟩
    cases k <;> simp at h
    obtain ⟨rfl, rfl⟩ := h
    exact hm
  · exact fun h => ⟨_, h, rfl⟩

end Value

end Ruby
