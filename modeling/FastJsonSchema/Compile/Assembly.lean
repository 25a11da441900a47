import FastJsonSchema.Compile.Positions
import FastJsonSchema.Schema.Applicators

/-!
# The node of a position

A position with what it has of its own, `Position.own`, and with the positions under its keywords,
`Position.applicators`, determines its node: `Built` says that a tree is put together from the
positions at and below its own. `T` stands for what else is known of a node; after the resolution
of references this is its target.
-/

namespace FastJsonSchema

open Ruby

theorem exists_right_of_forall₂ {α β : Type} {R : α → β → Prop} {as : List α} {bs : List β} {a : α}
    (h : List.Forall₂ R as bs) (ha : a ∈ as) : ∃ b ∈ bs, R a b := by
  induction h with
  | nil => exact absurd ha (by simp)
  | cons hab _ ih =>
    rcases List.mem_cons.1 ha with rfl | ha
    · exact ⟨_, List.mem_cons_self, hab⟩
    · obtain ⟨b, hb, hr⟩ := ih ha
      exact ⟨b, List.mem_cons_of_mem _ hb, hr⟩

namespace Position

section Parts

variable (parent : CompiledSchema) (kvs : List (Value × Value)) (ctx : CompileContext)
  (keyword : RString)

/-- The position of `assignSchema`, if there is one. -/
def one : Option Position :=
  let val := Value.aref kvs keyword
  if isSchemaShaped val then
    some ⟨parent.addr ++ [keyword], newPath parent.path keyword, val, ctx⟩
  else none

/-- The positions of `assignSchemaCollection`, if there is a collection. -/
def many : Option (List Position) :=
  match Value.aref kvs keyword with
  | .arr xs => some (elements parent ctx keyword 0 xs)
  | _ => none

/-- The positions of `compileProperties` with their keys, if there is a map. -/
def named (value : Value → Value) : Option (List (RString × Position)) :=
  match Value.aref kvs keyword with
  | .hash members => some ((Value.stringEntries members).map fun kv =>
      (kv.1, member parent ctx keyword value kv))
  | _ => none

theorem single_eq : single parent kvs ctx keyword = (one parent kvs ctx keyword).toList := by
  unfold single one
  dsimp only
  split_ifs <;> rfl

theorem collection_eq : collection parent kvs ctx keyword
    = (many parent kvs ctx keyword).getD [] := by
  unfold collection many
  cases Value.aref kvs keyword <;> rfl

theorem properties_eq (value : Value → Value) : properties parent kvs ctx keyword value
    = ((named parent kvs ctx keyword value).getD []).map (·.2) := by
  unfold properties named
  cases Value.aref kvs keyword with
  | hash members => simp
  | _ => rfl

/-- The positions right below, by the keywords that apply them. -/
def applicatorsOf : Applicators Position where
  ifSchema := one parent kvs ctx ifStr
  thenSchema := one parent kvs ctx thenStr
  elseSchema := one parent kvs ctx elseStr
  notSchema := one parent kvs ctx notStr
  allOf := many parent kvs ctx allOfStr
  anyOf := many parent kvs ctx anyOfStr
  oneOf := many parent kvs ctx oneOfStr
  items := one parent kvs ctx itemsStr
  itemsList := many parent kvs ctx itemsStr
  additionalItems := one parent kvs ctx additionalItemsStr
  contains := one parent kvs ctx containsStr
  propertyNames := one parent kvs ctx propertyNamesStr
  properties := named parent kvs ctx propertiesStr id
  patternProperties := named parent kvs ctx patternPropertiesStr id
  additionalProperties := one parent kvs ctx additionalPropertiesStr
  dependencies := named parent kvs ctx dependenciesStr dependencySchema

theorem childrenOf_eq : childrenOf parent kvs ctx
    = (applicatorsOf parent kvs ctx).members ++ nested parent ctx kvs := by
  simp only [childrenOf, single_eq, collection_eq, properties_eq]
  rfl

end Parts

variable (rt : Runtime) (p : Position)

/-- The positions right below, by the keywords that apply them. -/
def applicators : Applicators Position :=
  applicatorsOf (p.resolved rt).1 p.members (p.resolved rt).2

/-- The positions right below in the values of unknown keywords. -/
def nestedPositions : List Position := nested (p.resolved rt).1 (p.resolved rt).2 p.members

theorem children_eq : p.children rt = (p.applicators rt).members ++ p.nestedPositions rt := by
  unfold children
  split_ifs with h
  · rw [applicators, nestedPositions, ← childrenOf_eq, List.isEmpty_iff.1 h]
    rfl
  · exact childrenOf_eq _ _ _

/-- What a schema object has of its own, given the fields of its format and its type. -/
def ownFields (cs : CompiledSchema) (kvs : List (Value × Value)) (format : FormatFields)
    (type : TypeValidationFunction × List TypeFlag) : CompiledSchema :=
  CompiledSchema.own { cs with
    validationFunction := some (if cs.refVal.isSome then .validateRef else .validate)
    constVal := Value.get kvs constStr
    enumVal := arrayKeyword kvs enumStr
    multipleOfVal := numberKeyword kvs multipleOfStr
    maximumVal := numberKeyword kvs maximumStr
    exclusiveMaximumVal := numberKeyword kvs exclusiveMaximumStr
    minimumVal := numberKeyword kvs minimumStr
    exclusiveMinimumVal := numberKeyword kvs exclusiveMinimumStr
    maxLengthVal := numberKeyword kvs maxLengthStr
    minLengthVal := numberKeyword kvs minLengthStr
    patternVal := stringKeyword kvs patternStr
    maxItemsVal := numberKeyword kvs maxItemsStr
    minItemsVal := numberKeyword kvs minItemsStr
    uniqueItemsVal := boolKeyword kvs uniqueItemsStr
    maxContainsVal := numberKeyword kvs maxContainsStr
    minContainsVal := numberKeyword kvs minContainsStr
    maxPropertiesVal := numberKeyword kvs maxPropertiesStr
    minPropertiesVal := numberKeyword kvs minPropertiesStr
    requiredVal := arrayKeyword kvs requiredStr
    formatValidationFunction := some format.function
    customFormatCallableVal := format.callable
    customFormatErrorKeyVal := format.errorKey
    typeValidationFunction := some type.1
    typeFlags := type.2 }

/-- The node of a position without its children and its target, or the error of its own keywords. -/
def own : Except CompileError CompiledSchema :=
  match p.value with
  | .bool false =>
    .ok { CompiledSchema.create p.addr p.path with validationFunction := some .falseValidate }
  | .hash (kv :: kvs) => do
    let format ← formatFields (p.resolved rt).2.customFormats (Value.aref (kv :: kvs) formatStr)
    let type ← typeValidationFunction (kv :: kvs)
    pure (ownFields (p.resolved rt).1 (kv :: kvs) format type)
  | _ => .ok { CompiledSchema.create p.addr p.path with validationFunction := some .noOpValidate }

/-- The keys of `patternProperties` are regular expressions. -/
def ValidPatterns : Prop :=
  ∀ e ∈ (p.applicators rt).patternProperties.getD [], rt.validRegexp e.1 = true

/-- `c` is put together from what `p` has of its own and from nodes that `R` relates to the
positions below. -/
structure Assembled (R : Position → CompiledSchema → Prop) (c : CompiledSchema) : Prop where
  own : p.own rt = .ok c.own
  applicators : (p.applicators rt).Rel R c.applicators
  nested : List.Forall₂ R (p.nestedPositions rt) c.nestedSchemas
  patterns : p.ValidPatterns rt

/-- The tree of `c` is put together from the positions at and below `p`, down to a height, and each
node satisfies `T`. -/
def Built (T : Position → CompiledSchema → Prop) : ℕ → Position → CompiledSchema → Prop
  | 0, _, _ => False
  | n + 1, p, c => T p c ∧ p.Assembled rt (Built T n) c

variable {rt} {p} {T : Position → CompiledSchema → Prop} {R : Position → CompiledSchema → Prop}
  {c : CompiledSchema} {n : ℕ}

theorem Assembled.children (h : p.Assembled rt R c) :
    List.Forall₂ R (p.children rt) c.children := by
  rw [Position.children_eq, CompiledSchema.children_eq]
  exact List.rel_append h.applicators.members h.nested

/-- Each node of a tree is built from one of the positions. -/
theorem Built.of_reach (h : Built rt T n p c) {c' : CompiledSchema} (hc : c.Reach c') :
    ∃ m, ∃ p' ∈ p.positions rt n, Built rt T m p' c' := by
  induction n generalizing p c with
  | zero => exact h.elim
  | succ n ih =>
    rcases CompiledSchema.reach_iff.1 hc with rfl | ⟨d, hd, hr⟩
    · exact ⟨n + 1, p, List.mem_cons_self, h⟩
    · obtain ⟨q, hq, hbuilt⟩ :=
        exists_right_of_forall₂ (List.Forall₂.flip (R := flip _) h.2.children) hd
      obtain ⟨m, p', hp', hb⟩ := ih hbuilt hr
      exact ⟨m, p', List.mem_cons_of_mem _ (List.mem_flatMap.2 ⟨q, hq, hp'⟩), hb⟩

/-- Each position is that of a node of the tree. -/
theorem Built.of_mem (h : Built rt T n p c) {p' : Position} (hp : p' ∈ p.positions rt n) :
    ∃ m c', c.Reach c' ∧ Built rt T m p' c' := by
  induction n generalizing p c with
  | zero => exact h.elim
  | succ n ih =>
    rcases List.mem_cons.1 hp with rfl | hp
    · exact ⟨n + 1, c, .root, h⟩
    · obtain ⟨q, hq, hp⟩ := List.mem_flatMap.1 hp
      obtain ⟨d, hd, hbuilt⟩ := exists_right_of_forall₂ h.2.children hq
      obtain ⟨m, c', hr, hb⟩ := ih hbuilt hp
      exact ⟨m, c', CompiledSchema.reach_iff.2 (.inr ⟨d, hd, hr⟩), hb⟩

/-! ## What a position tells of its node -/

theorem resolved_addr (p : Position) : (p.resolved rt).1.addr = p.addr := by
  unfold resolved readScope resolveUriScope
  dsimp only
  split <;> rfl

theorem resolved_path (p : Position) : (p.resolved rt).1.path = p.path := by
  unfold resolved readScope resolveUriScope
  dsimp only
  split <;> rfl

theorem resolved_refSchema (p : Position) : (p.resolved rt).1.refSchema = none := by
  unfold resolved readScope resolveUriScope
  dsimp only
  split <;> rfl

theorem resolved_refVal (p : Position) :
    (p.resolved rt).1.refVal = stringKeyword p.members refStr := by
  unfold resolved readScope resolveUriScope
  dsimp only
  split <;> rfl

theorem resolved_resolvedRefVal (p : Position) :
    (p.resolved rt).1.resolvedRefVal
      = (stringKeyword p.members refStr).bind (resolveRefAgainstParentBase rt p.ctx) := by
  unfold resolved readScope resolveUriScope
  dsimp only
  split <;> rfl

end Position

end FastJsonSchema
