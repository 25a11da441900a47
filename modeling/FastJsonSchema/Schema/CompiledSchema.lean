import FastJsonSchema.Schema.Keywords

/-!
# Compiled schemas

`CompiledSchema` is the struct of `types/compiled_schema.h`. A child is part of its parent, but a
`$ref` points to its target: `addr` stands for the address of a struct. It is the list of keywords,
member names and indices that leads from the root of the schema document to the value the struct is
compiled from, so distinct structs of one document have distinct addresses.
-/

namespace FastJsonSchema

open Ruby

/-- The address of a compiled schema. -/
abbrev Addr := List RString

/-- `type_flag_t` -/
inductive TypeFlag
  | null | bool | string | integer | number | array | object
  deriving DecidableEq

/-- The functions that `validation_function` may point to. -/
inductive ValidationFunction
  | noOpValidate | falseValidate | validate | validateRef
  deriving DecidableEq

/-- The functions that `type_validation_function` may point to. -/
inductive TypeValidationFunction
  | validateNull | validateBool | validateString | validateInteger | validateNumber
  | validateArray | validateObject | validateByDataType | validateByTypeList | noOpValidate
  deriving DecidableEq

/-- The built-in formats. -/
inductive Format
  | date | time | dateTime | email | idnEmail | hostname | idnHostname | ipv4 | ipv6
  | uri | uriReference | iri | iriReference | uriTemplate | regex
  | jsonPointer | relativeJsonPointer
  deriving DecidableEq

/-- The functions that `format_validation_function` may point to. -/
inductive FormatValidationFunction
  | noOpFormatValidate | builtIn (format : Format) | validateCustomFormat
  deriving DecidableEq

/-- The struct of `types/compiled_schema.h`. An unset field (`Qundef` or `NULL`) is `none`; the
callable of a custom format is an opaque handle. -/
structure CompiledSchema where
  addr : Addr
  path : RString
  idVal : Option RString
  refVal : Option RString
  resolvedIdVal : Option RString
  resolvedRefVal : Option RString
  scopePointerVal : Option RString
  refSchema : Option Addr
  validationFunction : Option ValidationFunction
  typeValidationFunction : Option TypeValidationFunction
  formatValidationFunction : Option FormatValidationFunction
  customFormatCallableVal : Option ℕ
  customFormatErrorKeyVal : Option RString
  constVal : Option Value
  enumVal : Option (List Value)
  ifSchema : Option CompiledSchema
  thenSchema : Option CompiledSchema
  elseSchema : Option CompiledSchema
  allOfVal : Option (List CompiledSchema)
  anyOfVal : Option (List CompiledSchema)
  oneOfVal : Option (List CompiledSchema)
  notSchema : Option CompiledSchema
  multipleOfVal : Option Value
  maximumVal : Option Value
  exclusiveMaximumVal : Option Value
  minimumVal : Option Value
  exclusiveMinimumVal : Option Value
  maxLengthVal : Option Value
  minLengthVal : Option Value
  patternVal : Option RString
  itemsSchema : Option CompiledSchema
  itemsVal : Option (List CompiledSchema)
  additionalItemsSchema : Option CompiledSchema
  containsSchema : Option CompiledSchema
  maxItemsVal : Option Value
  minItemsVal : Option Value
  uniqueItemsVal : Option Bool
  maxContainsVal : Option Value
  minContainsVal : Option Value
  propertiesVal : Option (List (RString × CompiledSchema))
  patternPropertiesVal : Option (List (RString × CompiledSchema))
  propertyNamesSchema : Option CompiledSchema
  additionalPropertiesSchema : Option CompiledSchema
  maxPropertiesVal : Option Value
  minPropertiesVal : Option Value
  requiredVal : Option (List Value)
  dependenciesVal : Option (List (RString × CompiledSchema))
  nestedSchemas : List CompiledSchema
  typeFlags : List TypeFlag

namespace CompiledSchema

/-- `create_compiled_schema` -/
def create (addr : Addr) (path : RString) : CompiledSchema where
  addr := addr
  path := path
  idVal := none
  refVal := none
  resolvedIdVal := none
  resolvedRefVal := none
  scopePointerVal := none
  refSchema := none
  validationFunction := none
  typeValidationFunction := none
  formatValidationFunction := none
  customFormatCallableVal := none
  customFormatErrorKeyVal := none
  constVal := none
  enumVal := none
  ifSchema := none
  thenSchema := none
  elseSchema := none
  allOfVal := none
  anyOfVal := none
  oneOfVal := none
  notSchema := none
  multipleOfVal := none
  maximumVal := none
  exclusiveMaximumVal := none
  minimumVal := none
  exclusiveMinimumVal := none
  maxLengthVal := none
  minLengthVal := none
  patternVal := none
  itemsSchema := none
  itemsVal := none
  additionalItemsSchema := none
  containsSchema := none
  maxItemsVal := none
  minItemsVal := none
  uniqueItemsVal := none
  maxContainsVal := none
  minContainsVal := none
  propertiesVal := none
  patternPropertiesVal := none
  propertyNamesSchema := none
  additionalPropertiesSchema := none
  maxPropertiesVal := none
  minPropertiesVal := none
  requiredVal := none
  dependenciesVal := none
  nestedSchemas := []
  typeFlags := []

/-- What an object without keywords compiles to. -/
def plain (addr : Addr) (path : RString) : CompiledSchema :=
  { create addr path with
    validationFunction := some .validate
    typeValidationFunction := some .validateByDataType
    formatValidationFunction := some .noOpFormatValidate }

/-- The schemas of an unset or set list. -/
def members : Option (List CompiledSchema) → List CompiledSchema := (·.getD [])

/-- The schemas of an unset or set map. -/
def entries : Option (List (RString × CompiledSchema)) → List CompiledSchema
  | none => []
  | some m => m.map (·.2)

/-- The children of a compiled schema, in the order in which `compile` creates them. -/
def children (cs : CompiledSchema) : List CompiledSchema :=
  cs.ifSchema.toList ++ cs.thenSchema.toList ++ cs.elseSchema.toList
    ++ members cs.allOfVal ++ members cs.anyOfVal ++ members cs.oneOfVal ++ cs.notSchema.toList
    ++ cs.itemsSchema.toList ++ members cs.itemsVal ++ cs.additionalItemsSchema.toList
    ++ cs.containsSchema.toList ++ cs.propertyNamesSchema.toList
    ++ cs.additionalPropertiesSchema.toList
    ++ entries cs.propertiesVal ++ entries cs.patternPropertiesVal ++ entries cs.dependenciesVal
    ++ cs.nestedSchemas

/-- The nodes down to the given height. -/
def nodes : ℕ → CompiledSchema → List CompiledSchema
  | 0, _ => []
  | n + 1, cs => cs :: cs.children.flatMap (nodes n)

/-- The struct at an address. The address of a child is longer than that of its parent. -/
def deref (root : CompiledSchema) (a : Addr) : Option CompiledSchema :=
  (nodes (a.length + 1) root).find? (·.addr == a)

/-- `Reach root cs`: `cs` is a node of the tree of `root`. -/
inductive Reach (root : CompiledSchema) : CompiledSchema → Prop
  | root : Reach root root
  | child {cs c : CompiledSchema} (h : Reach root cs) (hc : c ∈ cs.children) : Reach root c

theorem Reach.trans {a b c : CompiledSchema} (h : a.Reach b) (h' : b.Reach c) : a.Reach c := by
  induction h' with
  | root => exact h
  | child _ hc ih => exact ih.child hc

/-- A node of a tree is its root or a node of the tree of a child. -/
theorem reach_iff {cs c : CompiledSchema} :
    cs.Reach c ↔ c = cs ∨ ∃ c' ∈ cs.children, c'.Reach c := by
  constructor
  · intro h
    induction h with
    | root => exact .inl rfl
    | @child b c _ hc ih =>
      rcases ih with rfl | ⟨c', hc', hr⟩
      · exact .inr ⟨c, hc, .root⟩
      · exact .inr ⟨c', hc', hr.child hc⟩
  · rintro (rfl | ⟨c', hc', hr⟩)
    · exact .root
    · exact (Reach.root.child hc').trans hr

theorem reach_of_mem_nodes {cs c : CompiledSchema} {n : ℕ} (h : c ∈ cs.nodes n) : cs.Reach c := by
  induction n generalizing cs with
  | zero => exact absurd h List.not_mem_nil
  | succ n ih =>
    rw [nodes, List.mem_cons, List.mem_flatMap] at h
    rcases h with rfl | ⟨d, hd, hc⟩
    · exact .root
    · exact reach_iff.2 (.inr ⟨d, hd, ih hc⟩)

/-- What an address leads to is a node with this address. -/
theorem reach_of_deref {cs c : CompiledSchema} {a : Addr} (h : cs.deref a = some c) :
    cs.Reach c ∧ c.addr = a := by
  rw [deref] at h
  exact ⟨reach_of_mem_nodes (List.mem_of_find?_eq_some h), by simpa using List.find?_some h⟩

theorem mem_children {cs c : CompiledSchema} : c ∈ cs.children ↔
    cs.ifSchema = some c ∨ cs.thenSchema = some c ∨ cs.elseSchema = some c
      ∨ c ∈ members cs.allOfVal ∨ c ∈ members cs.anyOfVal ∨ c ∈ members cs.oneOfVal
      ∨ cs.notSchema = some c ∨ cs.itemsSchema = some c ∨ c ∈ members cs.itemsVal
      ∨ cs.additionalItemsSchema = some c ∨ cs.containsSchema = some c
      ∨ cs.propertyNamesSchema = some c ∨ cs.additionalPropertiesSchema = some c
      ∨ c ∈ entries cs.propertiesVal ∨ c ∈ entries cs.patternPropertiesVal
      ∨ c ∈ entries cs.dependenciesVal ∨ c ∈ cs.nestedSchemas := by
  simp only [children, List.mem_append, Option.mem_toList, or_assoc]

/-- A property of the nodes of a tree that passes from the children of a node to the node. -/
theorem induct {P : CompiledSchema → Prop} (h : ∀ cs, (∀ c ∈ cs.children, P c) → P cs)
    (cs : CompiledSchema) : P cs := by
  refine @CompiledSchema.rec P (fun o => ∀ c, o = some c → P c) (fun o => ∀ c ∈ members o, P c)
    (fun o => ∀ c ∈ entries o, P c) (fun l => ∀ c ∈ l, P c) (fun l => ∀ e ∈ l, P e.2)
    (fun e => P e.2) ?_ ?_ ?_ ?_ ?_ ?_ ?_ ?_ ?_ ?_ ?_ ?_ cs
  · intros
    rename_i h₁ h₂ h₃ h₄ h₅ h₆ h₇ h₈ h₉ h₁₀ h₁₁ h₁₂ h₁₃ h₁₄ h₁₅ h₁₆ h₁₇
    refine h _ fun c hc => ?_
    rcases mem_children.1 hc with hc | hc | hc | hc | hc | hc | hc | hc | hc | hc | hc | hc | hc
      | hc | hc | hc | hc
    · exact h₁ c hc
    · exact h₂ c hc
    · exact h₃ c hc
    · exact h₄ c hc
    · exact h₅ c hc
    · exact h₆ c hc
    · exact h₇ c hc
    · exact h₈ c hc
    · exact h₉ c hc
    · exact h₁₀ c hc
    · exact h₁₁ c hc
    · exact h₁₄ c hc
    · exact h₁₅ c hc
    · exact h₁₂ c hc
    · exact h₁₃ c hc
    · exact h₁₆ c hc
    · exact h₁₇ c hc
  · intro c hc
    exact absurd hc (by simp)
  · rintro v hv c hc
    exact Option.some.inj hc ▸ hv
  · intro c hc
    exact absurd hc (by simp [members])
  · exact fun l hl => hl
  · intro c hc
    exact absurd hc (by simp [entries])
  · intro m hm c hc
    obtain ⟨e, he, rfl⟩ := List.mem_map.1 hc
    exact hm e he
  · simp
  · intro c l hc hl
    exact List.forall_mem_cons.2 ⟨hc, hl⟩
  · simp
  · intro e l he hl
    exact List.forall_mem_cons.2 ⟨he, hl⟩
  · exact fun _ _ hc => hc

end CompiledSchema

end FastJsonSchema
