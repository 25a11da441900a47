import FastJsonSchema.Validate.Leaf

/-!
# The evaluator

The traversals of `validate_array.c` and `validate_object.c`, the combinators and `validate`, each
as a program over the calls it makes. `body` is what a call of a `validation_function` runs, and
`machine` the machine of a runtime and a heap. A run of `FastJSON::Schema#validate` is a run of
`machine` from `createContext` (`Validates`), one of `valid?` a guarded call (`Valids`).
-/

namespace FastJsonSchema

open Ruby Traversal

section Array

variable (cs : CompiledSchema) (d : Datum)

/-- `validate_items` -/
def validateItems (items : CompiledSchema) (xs : List Value) : Code :=
  .each ((d.elements xs).map fun x => (x.1, .call (items, x.2)))

/-- The loop of `validate_with_multiple_items_schema`. -/
def validateWithMultipleItemsSchema (itemsVal : List CompiledSchema) (xs : List Value) : Code :=
  .each (((d.elements xs).zip itemsVal).map fun x => (x.1.1, .call (x.2, x.1.2)))

/-- `validate_additional_items` -/
def validateAdditionalItems (itemsVal : List CompiledSchema) (additionalItems : CompiledSchema)
    (xs : List Value) : Code :=
  .each (((d.elements xs).drop itemsVal.length).map fun x => (x.1, .call (additionalItems, x.2)))

/-- Count the calls that are valid, from `n` on, and go on with their number. -/
def countValid : List Call → ℕ → (ℕ → Code) → Code
  | [], n, k => k n
  | c :: cs, n, k => .guarded c fun valid => countValid cs (if valid then n + 1 else n) k

/-- `validate_contains`: the elements are checked without a level of their own on the stack. -/
def validateContains (contains : CompiledSchema) (xs : List Value) : Code :=
  countValid ((d.elements xs).map fun x => (contains, x.2)) 0 fun validCount => .block [
    match cs.maxContainsVal with
    | some (.int n) => converted (num2long (.int n)) fun m =>
        .when (validCount > m) (yieldError cs d (str "maxContains"))
    | _ => .skip,
    match cs.minContainsVal with
    | some (.int n) => converted (num2long (.int n)) fun m =>
        .when (validCount < m) (yieldError cs d (str "minContains"))
    | _ => .when (validCount = 0) (yieldError contains d (str "contains"))]

/-- `validate_array` -/
def validateArray : Code :=
  match d.value with
  | .arr xs => .block [
      validateArraySizes cs d xs,
      match cs.itemsSchema, cs.itemsVal with
      | some items, _ => validateItems d items xs
      | none, some itemsVal => .seq (validateWithMultipleItemsSchema d itemsVal xs)
          (match cs.additionalItemsSchema with
            | some additionalItems => .when (itemsVal.length < xs.length)
                (validateAdditionalItems d itemsVal additionalItems xs)
            | none => .skip)
      | none, none => .skip,
      match cs.containsSchema with
      | some contains => validateContains cs d contains xs
      | none => .skip]
  | _ => yieldError cs d (str "type_array")

end Array

section Object

variable (rt : Runtime) (cs : CompiledSchema) (d : Datum)

/-- The schema of a name in a map. -/
def schemaOf (m : Option (List (RString × CompiledSchema))) (k : RString) :
    Option CompiledSchema :=
  (m.getD []).lookup k

theorem mem_entries_of_lookup {m : Option (List (RString × CompiledSchema))} {k : RString}
    {c : CompiledSchema} (h : schemaOf m k = some c) : c ∈ CompiledSchema.entries m := by
  cases m with
  | none => exact absurd h (by simp [schemaOf])
  | some m =>
    obtain ⟨l₁, l₂, hm, -⟩ := List.lookup_eq_some_iff.1 h
    exact List.mem_map.2 ⟨(k, c), by rw [show m = l₁ ++ (k, c) :: l₂ from hm]; simp, rfl⟩

theorem mem_entries_of_mem {m : Option (List (RString × CompiledSchema))}
    {p : RString × CompiledSchema} (h : p ∈ m.getD []) : p.2 ∈ CompiledSchema.entries m := by
  cases m with
  | none => exact absurd h (by simp)
  | some m => exact List.mem_map_of_mem h

/-- The patterns of `patternProperties`. -/
def CompiledSchema.patterns : List (RString × CompiledSchema) := cs.patternPropertiesVal.getD []

/-- `memo->validated` at the end of the checks by `properties` and `patternProperties`. -/
def validated (k : RString) : Bool :=
  (schemaOf cs.propertiesVal k).isSome
    || cs.patterns.any fun p => (rt.regMatch p.1 k).toOption == some true

/-- `validate_object_property`, for a property with a string key. -/
def validateObjectProperty (k : RString) (v : Value) : Code := .block [
  match cs.propertyNamesSchema with
  | some names => .call (names, d.name k)
  | none => .skip,
  match schemaOf cs.propertiesVal k with
  | some property => .call (property, d.child (.str k) v)
  | none => .skip,
  .block (cs.patterns.map fun p =>
    converted (rt.regMatch p.1 k) fun m => .when m (.call (p.2, d.child (.str k) v))),
  match cs.additionalPropertiesSchema with
  | some additional => .when (!validated rt cs k) (.call (additional, d.child (.str k) v))
  | none => .skip]

/-- `validate_properties` -/
def validateProperties (kvs : List (Value × Value)) : Code :=
  .each ((Value.stringEntries kvs).map fun kv =>
    (.str kv.1, validateObjectProperty rt cs d kv.1 kv.2))

/-- `validate_dependencies` -/
def validateDependencies (kvs : List (Value × Value))
    (dependencies : List (RString × CompiledSchema)) : Code :=
  .block (dependencies.map fun dep =>
    .when (Value.lookup kvs (.str dep.1)).isSome (.call (dep.2, d)))

/-- `validate_object` -/
def validateObject : Code :=
  match d.value with
  | .hash kvs => .block [
      validateObjectSizes cs d kvs,
      validateDependencies d kvs (cs.dependenciesVal.getD []),
      validateProperties rt cs d kvs]
  | _ => yieldError cs d (str "type_object")

end Object

section Types

variable (rt : Runtime) (cs : CompiledSchema) (d : Datum)

/-- `validate_by_data_type` -/
def validateByDataType : Code :=
  match d.value with
  | .int _ => validateInteger rt cs d
  | .float _ => validateNumber rt cs d
  | .str _ => validateString rt cs d
  | .hash _ => validateObject rt cs d
  | .arr _ => validateArray cs d
  | _ => .skip

/-- `validate_by_type_list` -/
def validateByTypeList : Code :=
  let mismatch := yieldError cs d (str "type")
  match d.value with
  | .nil => if .null ∈ cs.typeFlags then validateNull cs d else mismatch
  | .bool _ => if .bool ∈ cs.typeFlags then validateBool cs d else mismatch
  | .int _ =>
    if .integer ∈ cs.typeFlags then validateInteger rt cs d
    else if .number ∈ cs.typeFlags then validateNumber rt cs d
    else mismatch
  | .float _ => if .number ∈ cs.typeFlags then validateNumber rt cs d else mismatch
  | .str _ => if .string ∈ cs.typeFlags then validateString rt cs d else mismatch
  | .hash _ => if .object ∈ cs.typeFlags then validateObject rt cs d else mismatch
  | .arr _ => if .array ∈ cs.typeFlags then validateArray cs d else mismatch
  | .other _ => .skip

/-- The call of `type_validation_function`. -/
def validateType : Code :=
  match cs.typeValidationFunction with
  | some .validateNull => validateNull cs d
  | some .validateBool => validateBool cs d
  | some .validateString => validateString rt cs d
  | some .validateInteger => validateInteger rt cs d
  | some .validateNumber => validateNumber rt cs d
  | some .validateArray => validateArray cs d
  | some .validateObject => validateObject rt cs d
  | some .validateByDataType => validateByDataType rt cs d
  | some .validateByTypeList => validateByTypeList rt cs d
  | some .noOpValidate => .skip
  | none => .crash

end Types

section Combinators

variable (cs : CompiledSchema) (d : Datum)

/-- `run_then` and `run_else` -/
def runBranch (branch : CompiledSchema) (type : RString) : Code :=
  .guarded (branch, d) fun valid => .when (!valid) (yieldError branch d type)

/-- `validate_if` -/
def validateIf (ifSchema : CompiledSchema) : Code :=
  if cs.thenSchema.isNone ∧ cs.elseSchema.isNone then .skip
  else .guarded (ifSchema, d) fun valid =>
    match valid, cs.thenSchema, cs.elseSchema with
    | true, some thenSchema, _ => runBranch d thenSchema (str "if/then")
    | false, _, some elseSchema => runBranch d elseSchema (str "if/else")
    | _, _, _ => .skip

/-- `validate_not` -/
def validateNot (notSchema : CompiledSchema) : Code :=
  .guarded (notSchema, d) fun valid => .when valid (yieldError notSchema d (str "not"))

/-- `validate_all_of` -/
def validateAllOf (allOf : List CompiledSchema) : Code :=
  countValid (allOf.map (·, d)) 0 fun validCount =>
    .when (validCount ≠ allOf.length) (yieldError cs d (str "allOf"))

/-- The loop of `validate_any_of`, which returns at the first valid branch. -/
def untilValid : List Call → Code → Code
  | [], k => k
  | c :: cs, k => .guarded c fun valid => if valid then .skip else untilValid cs k

/-- `validate_any_of` -/
def validateAnyOf (anyOf : List CompiledSchema) : Code :=
  untilValid (anyOf.map (·, d)) (yieldError cs d (str "anyOf"))

/-- The loop of `validate_one_of`, which breaks at the second valid branch. -/
def countUpToTwo : List Call → ℕ → (ℕ → Code) → Code
  | [], n, k => k n
  | c :: cs, n, k => .guarded c fun valid =>
      if valid then if n + 1 > 1 then k (n + 1) else countUpToTwo cs (n + 1) k
      else countUpToTwo cs n k

/-- `validate_one_of` -/
def validateOneOf (oneOf : List CompiledSchema) : Code :=
  countUpToTwo (oneOf.map (·, d)) 0 fun validCount =>
    .when (validCount ≠ 1) (yieldError cs d (str "oneOf"))

end Combinators

/-- Run `f` on a field that is set. -/
def ifSet {α : Type} (field : Option α) (f : α → Code) : Code :=
  match field with
  | some a => f a
  | none => .skip

/-- `validate` -/
def validate (rt : Runtime) (cs : CompiledSchema) (d : Datum) : Code := .block [
  validateType rt cs d,
  ifSet cs.constVal (validateConst cs d),
  ifSet cs.enumVal (validateEnum cs d),
  ifSet cs.ifSchema (validateIf cs d),
  ifSet cs.notSchema (validateNot d),
  ifSet cs.allOfVal (validateAllOf cs d),
  ifSet cs.anyOfVal (validateAnyOf cs d),
  ifSet cs.oneOfVal (validateOneOf cs d)]

/-- `false_validate` -/
def falseValidate (cs : CompiledSchema) (d : Datum) : Code := yieldError cs d (str "false_schema")

/-- `validate_ref`, on a heap of compiled schemas. -/
def validateRef (heap : Addr → Option CompiledSchema) (cs : CompiledSchema) (d : Datum) : Code :=
  match cs.refSchema.bind heap with
  | some ref => .call (ref, d)
  | none => .crash

/-- The call of `validation_function`. -/
def body (rt : Runtime) (heap : Addr → Option CompiledSchema) (c : Call) : Code :=
  match c.1.validationFunction with
  | some .noOpValidate => .skip
  | some .falseValidate => falseValidate c.1 c.2
  | some .validate => validate rt c.1 c.2
  | some .validateRef => validateRef heap c.1 c.2
  | none => .crash

/-- What a store past the end of `context->path` does: it may end the process, or leave the context
in some other state. -/
abbrev Overrun := Token → Context Token → Option (Context Token)

/-- The machine of the evaluator. -/
def machine (rt : Runtime) (heap : Addr → Option CompiledSchema) (overrun : Overrun) :
    Machine Call Token Site RubyError where
  max := maxContextDepth
  overrun := overrun
  body := body rt heap

@[simp] theorem machine_body (rt : Runtime) (heap : Addr → Option CompiledSchema)
    (overrun : Overrun) (c : Call) : (machine rt heap overrun).body c = body rt heap c := rfl

/-- `create_context` -/
def createContext : Context Token where
  path i := if i = 0 then some (.str rootPathStr) else none
  depth := 0
  shortCircuit := false

/-- The start of a run in a context. -/
def start (context : Context Token) : State Token Site :=
  { context with errors := [], log := [] }

/-- `rb_validate`: a run of `validate` with a block ends in `r`; the errors yielded are those of
its state. -/
def Validates (rt : Runtime) (heap : Addr → Option CompiledSchema) (overrun : Overrun)
    (cs : CompiledSchema) (v : Value) (r : Result Token Site RubyError) : Prop :=
  (machine rt heap overrun).Runs (cs, .root v) (start createContext) r

/-- `rb_valid`: a run of `valid?` ends in `r`; it returns the verdict of `r`. -/
def Valids (rt : Runtime) (heap : Addr → Option CompiledSchema) (overrun : Overrun)
    (cs : CompiledSchema) (v : Value) (r : Result Token Site RubyError) : Prop :=
  (machine rt heap overrun).Guards (cs, .root v) (start createContext) r

/-- The run of `validate`, or of the body of `is_valid` in `valid?`, as far as calls nest at most
`n` deep. -/
def evaluate (rt : Runtime) (heap : Addr → Option CompiledSchema) (overrun : Overrun)
    (cs : CompiledSchema) (v : Value) (quiet : Bool) (n : ℕ) : Result Token Site RubyError :=
  (machine rt heap overrun).run n (cs, .root v) ((start createContext).mode quiet)

/-- `to_path`: the text of the tokens, each followed by a slash. -/
def toPath (tokens : List Token) : RString :=
  tokens.flatMap fun t =>
    (match t with
      | .str s => s
      | .index i => decimal i) ++ str "/"

end FastJsonSchema
