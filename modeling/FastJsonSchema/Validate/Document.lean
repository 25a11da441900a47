import FastJsonSchema.Compile.Positions
import FastJsonSchema.Traversal.Solution
import FastJsonSchema.Validate.Denotation

/-!
# What a document means

`documentMeaning` is the meaning of a schema document, read off its keywords as Draft 7 has them and
given the meanings of its subschemas: no compiled schema, no address and no path is part of it.
Numbers are compared as the C code compares them, and the callables, regular expressions and parsers
are those of the runtime. The equation has one solution, `means`.
-/

namespace FastJsonSchema

open Ruby

/-! ## Keywords about one value -/

section Checks

variable (rt : Runtime) (customFormats : Option (List (RString × ℕ))) (kvs : List (Value × Value))

/-- A numeric keyword: `int` for an `Integer`, as a `long`, and `float` for a `Float`. -/
def numericHolds (keyword : RString) (int : ℤ → Bool) (float : Double → Bool) : Bool :=
  match numberKeyword kvs keyword with
  | some (.int m) => (num2long (.int m)).toOption.any int
  | some (.float m) => float m
  | _ => true

/-- A size keyword, converted by `num`. -/
def sizeHolds (num : Value → Except RubyError ℤ) (keyword : RString) (holds : ℤ → Bool) : Bool :=
  (numberKeyword kvs keyword).all fun m => (num m).toOption.any holds

/-- An `Integer`, as a `long`: the remainder decides `multipleOf`. -/
def integerHolds (n : ℤ) : Bool :=
  (num2long (.int n)).toOption.any fun n =>
    numericHolds kvs multipleOfStr
        (fun m => !(m = 0 ∨ n = longMin ∧ m = -1 : Bool) && n.tmod m = 0)
        (fun m => !rt.hasFraction 64 ((Double.ofInt n).div m))
      && numericHolds kvs maximumStr (n ≤ ·) (!·.lt (.ofInt n))
      && numericHolds kvs exclusiveMaximumStr (n < ·) (!·.le (.ofInt n))
      && numericHolds kvs minimumStr (· ≤ n) (!(Double.ofInt n).lt ·)
      && numericHolds kvs exclusiveMinimumStr (· < n) (!(Double.ofInt n).le ·)

/-- A `double`: the quotient decides `multipleOf`. -/
def doubleHolds (x : Double) : Bool :=
  numericHolds kvs multipleOfStr (fun m => !rt.hasFraction 32 (x.div (.ofInt m)))
      (fun m => !rt.hasFraction 32 (x.div m))
    && numericHolds kvs maximumStr (fun m => !(Double.ofInt m).lt x) (!·.lt x)
    && numericHolds kvs exclusiveMaximumStr (fun m => !(Double.ofInt m).le x) (!·.le x)
    && numericHolds kvs minimumStr (fun m => !x.lt (.ofInt m)) (!x.lt ·)
    && numericHolds kvs exclusiveMinimumStr (fun m => !x.le (.ofInt m)) (!x.le ·)

/-- `pattern` -/
def patternHolds (s : RString) : Bool :=
  (stringKeyword kvs patternStr).all fun pattern =>
    rt.validRegexp pattern && (rt.regMatch pattern s).toOption == some true

/-- `format`: a custom format goes before a built-in one, and any other name means nothing. -/
def formatHolds (s : RString) : Bool :=
  (stringKeyword kvs formatStr).all fun name =>
    match (customFormats.getD []).lookup name with
    | some callable => rt.call callable (.str s) == some true
    | none => (Format.all.find? (·.name == name)).all (rt.accepts · s)

def stringHolds (s : RString) : Bool :=
  sizeHolds kvs num2long maxLengthStr (fun m => RString.length s ≤ m)
    && sizeHolds kvs num2long minLengthStr (fun m => m ≤ RString.length s)
    && patternHolds rt kvs s && formatHolds rt customFormats kvs s

/-- The keywords about an array as a whole. -/
def arrayHolds (xs : List Value) : Bool :=
  sizeHolds kvs num2long maxItemsStr (fun m => xs.length ≤ m)
    && sizeHolds kvs num2long minItemsStr (fun m => m ≤ xs.length)
    && (boolKeyword kvs uniqueItemsStr != some true || (Value.uniq xs).length == xs.length)

/-- The keywords about an object as a whole. -/
def objectHolds (members : List (Value × Value)) : Bool :=
  sizeHolds kvs num2ulong maxPropertiesStr (fun m => members.length ≤ m)
    && sizeHolds kvs num2ulong minPropertiesStr (fun m => m ≤ members.length)
    && (arrayKeyword kvs requiredStr).all (·.all fun name => (Value.lookup members name).isSome)

/-- Whether an element of `type` names a type. -/
def namesType (flag : TypeFlag) : Value → Bool
  | .str name => typeFlag name == some flag
  | _ => false

/-- Whether `type` admits a type. Without the keyword, every type is admitted. -/
def typeAdmits (flag : TypeFlag) : Bool :=
  match Value.aref kvs typeStr with
  | .arr names => names.any (namesType flag)
  | .str name => typeFlag name.cString == some flag
  | _ => true

/-- A `type` that is a string and names no type. The keywords of every type go with it. -/
def namesNoType : Bool :=
  match Value.aref kvs typeStr with
  | .str name => (typeFlag name.cString).isNone
  | _ => false

end Checks

/-! ## Subschemas -/

section Subschemas

variable (kvs : List (Value × Value)) (keyword : RString)

/-- The subschema under a keyword. -/
def subschema : Option Value :=
  let val := Value.aref kvs keyword
  if isSchemaShaped val then some val else none

/-- The subschemas of a map. -/
def subschemas : Option (List (RString × Value)) :=
  match Value.aref kvs keyword with
  | .hash members => some (Value.stringEntries members)
  | _ => none

/-- A dependency: an array of names asks for their presence. -/
def dependencyHolds (f : Value → Value → Bool) : Value → Value → Bool
  | .arr names, .hash members => names.all fun name => (Value.lookup members name).isSome
  | .arr _, _ => false
  | s, v => f s v

/-- The meanings of the subschemas, by the keywords that apply them. -/
def subschemaMeanings (f : Value → Value → Bool) : Applicators (Value → Bool) where
  ifSchema := (subschema kvs ifStr).map f
  thenSchema := (subschema kvs thenStr).map f
  elseSchema := (subschema kvs elseStr).map f
  notSchema := (subschema kvs notStr).map f
  allOf := (arrayKeyword kvs allOfStr).map (·.map f)
  anyOf := (arrayKeyword kvs anyOfStr).map (·.map f)
  oneOf := (arrayKeyword kvs oneOfStr).map (·.map f)
  items := (subschema kvs itemsStr).map f
  itemsList := (arrayKeyword kvs itemsStr).map (·.map f)
  additionalItems := (subschema kvs additionalItemsStr).map f
  contains := (subschema kvs containsStr).map f
  propertyNames := (subschema kvs propertyNamesStr).map f
  properties := (subschemas kvs propertiesStr).map (·.map fun e => (e.1, f e.2))
  patternProperties := (subschemas kvs patternPropertiesStr).map (·.map fun e => (e.1, f e.2))
  additionalProperties := (subschema kvs additionalPropertiesStr).map f
  dependencies :=
    (subschemas kvs dependenciesStr).map (·.map fun e => (e.1, dependencyHolds f e.2))

end Subschemas

/-! ## Documents -/

section Meaning

variable (rt : Runtime) (customFormats : Option (List (RString × ℕ)))

section Keywords

variable (kvs : List (Value × Value)) (a : Applicators (Value → Bool))

/-- `contains`, `maxContains` and `minContains` -/
def containsHolds (xs : List Value) : Bool :=
  a.contains.all fun p =>
    Applicators.countAtMost (numberKeyword kvs maxContainsStr) (xs.countP p)
      && Applicators.countAtLeast (numberKeyword kvs minContainsStr) (xs.countP p)

/-- The keywords of the type of a value. An `Integer` is checked as a `double` where `type` admits
numbers but no integers. -/
def typedHolds (v : Value) : Bool :=
  match v with
  | .nil => typeAdmits kvs .null
  | .bool _ => typeAdmits kvs .bool
  | .int n =>
    if typeAdmits kvs .integer then integerHolds rt kvs n
    else typeAdmits kvs .number
      && (num2long (.int n)).toOption.any fun m => doubleHolds rt kvs (.ofInt m)
  | .float x => typeAdmits kvs .number && doubleHolds rt kvs x
  | .str s => typeAdmits kvs .string && stringHolds rt customFormats kvs s
  | .arr xs => typeAdmits kvs .array && arrayHolds kvs xs
      && (a.elements xs && containsHolds kvs a xs)
  | .hash members => typeAdmits kvs .object && objectHolds kvs members
      && (a.depending members
        && (Value.stringEntries members).all fun kv => a.property rt kv.1 kv.2)
  | .other _ =>
    match Value.aref kvs typeStr with
    | .str _ => false
    | _ => true

/-- The keywords of a schema object, given the meanings of its subschemas. -/
def keywordsHold (v : Value) : Bool :=
  (namesNoType kvs || typedHolds rt customFormats kvs a v)
    && (Value.get kvs constStr).all (fun c => Value.equal false c v)
    && (arrayKeyword kvs enumStr).all (fun e => Value.includes e v)
    && a.conditional v && a.combination v

end Keywords

/-- The meaning of a schema, given those of its subschemas: `false` rejects every value, and neither
an empty object nor what is no schema rejects any. -/
def schemaMeaning (a : Applicators (Value → Bool)) (schema v : Value) : Bool :=
  match schema with
  | .bool b => b
  | .hash (kv :: kvs) => keywordsHold rt customFormats (kv :: kvs) a v
  | _ => true

/-- The members of a schema object. -/
def schemaMembers : Value → List (Value × Value)
  | .hash kvs => kvs
  | _ => []

/-- The equation of a document, over the meanings of its subschemas. -/
def documentMeaning (f : Value → Value → Bool) (doc v : Value) : Bool :=
  schemaMeaning rt customFormats (subschemaMeanings (schemaMembers doc) f) doc v

end Meaning

/-! ## The equation has one solution -/

section Solution

variable {rt : Runtime} {customFormats : Option (List (RString × ℕ))}
  {kvs : List (Value × Value)} {f g : Value → Value → Bool} {keyword : RString}

theorem nesting_subschema {s : Value} (h : subschema kvs keyword = some s) :
    s.nesting < (Value.hash kvs).nesting := by
  unfold subschema at h
  dsimp only at h
  split_ifs at h with hs
  obtain rfl := Option.some.inj h
  cases hget : Value.get kvs keyword with
  | none => simp [Value.aref, hget, isSchemaShaped] at hs
  | some v =>
    rw [Value.aref, hget, Option.getD_some]
    exact Nat.lt_succ_of_le (Value.nesting_get hget)

theorem nesting_array {xs : List Value} (h : arrayKeyword kvs keyword = some xs) {x : Value}
    (hx : x ∈ xs) : x.nesting < (Value.hash kvs).nesting := by
  unfold arrayKeyword at h
  split at h
  next hval =>
    obtain rfl := Option.some.inj h
    have hle := Value.nesting_aref kvs keyword
    rw [hval, Value.nesting] at hle
    have := Value.nesting_le_list hx
    rw [Value.nesting]
    omega
  next => cases h

theorem nesting_map {m : List (RString × Value)} (h : subschemas kvs keyword = some m)
    {e : RString × Value} (he : e ∈ m) : e.2.nesting < (Value.hash kvs).nesting := by
  unfold subschemas at h
  split at h
  next hval =>
    obtain rfl := Option.some.inj h
    have hle := Value.nesting_aref kvs keyword
    rw [hval, Value.nesting] at hle
    have := Value.nesting_le_entries (Value.mem_stringEntries.1 he)
    rw [Value.nesting]
    omega
  next => cases h

theorem dependencyHolds_congr {s : Value} (h : f s = g s) :
    dependencyHolds f s = dependencyHolds g s := by
  funext v
  cases s with
  | arr names => cases v <;> rfl
  | _ => exact congrFun h v

/-- The equation of a document reads the meanings of its subschemas only. -/
theorem subschemaMeanings_congr
    (h : ∀ s : Value, s.nesting < (Value.hash kvs).nesting → f s = g s) :
    subschemaMeanings kvs f = subschemaMeanings kvs g := by
  have hone : ∀ keyword, (subschema kvs keyword).map f = (subschema kvs keyword).map g :=
    fun keyword => Option.map_congr fun s hs => h s (nesting_subschema hs)
  have hmany : ∀ keyword, (arrayKeyword kvs keyword).map (·.map f)
      = (arrayKeyword kvs keyword).map (·.map g) := fun keyword =>
    Option.map_congr fun xs hxs => List.map_congr_left fun x hx => h x (nesting_array hxs hx)
  have hnamed : ∀ keyword, (subschemas kvs keyword).map (·.map fun e => (e.1, f e.2))
      = (subschemas kvs keyword).map (·.map fun e => (e.1, g e.2)) := fun keyword =>
    Option.map_congr fun m hm => List.map_congr_left fun e he => by rw [h e.2 (nesting_map hm he)]
  have hdependencies : (subschemas kvs dependenciesStr).map
      (·.map fun e => (e.1, dependencyHolds f e.2)) = (subschemas kvs dependenciesStr).map
        (·.map fun e => (e.1, dependencyHolds g e.2)) := by
    refine Option.map_congr fun m hm => List.map_congr_left fun e he => ?_
    rw [dependencyHolds_congr (h e.2 (nesting_map hm he))]
  unfold subschemaMeanings
  simp only [hone, hmany, hnamed, hdependencies]

theorem documentMeaning_local {doc : Value}
    (h : ∀ s : Value, s.nesting < doc.nesting → f s = g s) :
    documentMeaning rt customFormats f doc = documentMeaning rt customFormats g doc := by
  funext v
  rw [documentMeaning, documentMeaning]
  cases doc with
  | hash kvs => rw [schemaMembers, subschemaMeanings_congr h]
  | _ => rfl

variable (rt customFormats)

/-- Exactly one function gives every document the meaning that its equation says. -/
theorem existsUnique_means : ∃! f : Value → Value → Bool,
    ∀ doc, f doc = documentMeaning rt customFormats f doc :=
  Traversal.existsUnique_solution (measure Value.nesting).wf fun _ _ _ => documentMeaning_local

/-- The meaning of a document. -/
noncomputable def means : Value → Value → Bool := (existsUnique_means rt customFormats).choose

theorem means_eq (doc : Value) : means rt customFormats doc
    = documentMeaning rt customFormats (means rt customFormats) doc :=
  (existsUnique_means rt customFormats).choose_spec.1 doc

end Solution

end FastJsonSchema
