import FastJsonSchema.Schema.CompiledSchema
import Mathlib.Data.List.Forall2
import Mathlib.Data.Option.Basic

/-!
# The children of a schema

`Applicators` collects what stands under the keywords that apply schemas, over any type: the
compiled schemas there, their positions, or their meanings. Two collections are related by
`Applicators.Rel` when they have the same shape and related members.
-/

namespace FastJsonSchema

open Ruby

theorem lookup_map {β γ : Type} {f : β → γ} (m : List (RString × β)) (k : RString) :
    (m.map fun e => (e.1, f e.2)).lookup k = (m.lookup k).map f := by
  induction m with
  | nil => rfl
  | cons e m ih =>
    rw [List.map_cons, List.lookup_cons, List.lookup_cons, ih]
    split <;> rfl

/-- The children of a schema, by the keywords that apply them. -/
structure Applicators (β : Type) where
  ifSchema : Option β
  thenSchema : Option β
  elseSchema : Option β
  notSchema : Option β
  allOf : Option (List β)
  anyOf : Option (List β)
  oneOf : Option (List β)
  items : Option β
  itemsList : Option (List β)
  additionalItems : Option β
  contains : Option β
  propertyNames : Option β
  properties : Option (List (RString × β))
  patternProperties : Option (List (RString × β))
  additionalProperties : Option β
  dependencies : Option (List (RString × β))

/-- The children of a compiled schema. -/
def CompiledSchema.applicators (cs : CompiledSchema) : Applicators CompiledSchema where
  ifSchema := cs.ifSchema
  thenSchema := cs.thenSchema
  elseSchema := cs.elseSchema
  notSchema := cs.notSchema
  allOf := cs.allOfVal
  anyOf := cs.anyOfVal
  oneOf := cs.oneOfVal
  items := cs.itemsSchema
  itemsList := cs.itemsVal
  additionalItems := cs.additionalItemsSchema
  contains := cs.containsSchema
  propertyNames := cs.propertyNamesSchema
  properties := cs.propertiesVal
  patternProperties := cs.patternPropertiesVal
  additionalProperties := cs.additionalPropertiesSchema
  dependencies := cs.dependenciesVal

namespace Applicators

/-- Apply a function to every child. -/
def map {β γ : Type} (f : β → γ) (a : Applicators β) : Applicators γ where
  ifSchema := a.ifSchema.map f
  thenSchema := a.thenSchema.map f
  elseSchema := a.elseSchema.map f
  notSchema := a.notSchema.map f
  allOf := a.allOf.map (·.map f)
  anyOf := a.anyOf.map (·.map f)
  oneOf := a.oneOf.map (·.map f)
  items := a.items.map f
  itemsList := a.itemsList.map (·.map f)
  additionalItems := a.additionalItems.map f
  contains := a.contains.map f
  propertyNames := a.propertyNames.map f
  properties := a.properties.map (·.map fun p => (p.1, f p.2))
  patternProperties := a.patternProperties.map (·.map fun p => (p.1, f p.2))
  additionalProperties := a.additionalProperties.map f
  dependencies := a.dependencies.map (·.map fun p => (p.1, f p.2))

/-- Everything under the keywords, in the order in which `compile` creates it. -/
def members {β : Type} (a : Applicators β) : List β :=
  a.ifSchema.toList ++ a.thenSchema.toList ++ a.elseSchema.toList ++ a.allOf.getD []
    ++ a.anyOf.getD [] ++ a.oneOf.getD [] ++ a.notSchema.toList ++ a.items.toList
    ++ a.itemsList.getD [] ++ a.additionalItems.toList ++ a.contains.toList
    ++ a.propertyNames.toList ++ a.additionalProperties.toList
    ++ (a.properties.getD []).map (·.2) ++ (a.patternProperties.getD []).map (·.2)
    ++ (a.dependencies.getD []).map (·.2)

section Rel

variable {β γ : Type}

/-- The same key, with related members. -/
def Entry (R : β → γ → Prop) (x : RString × β) (y : RString × γ) : Prop := x.1 = y.1 ∧ R x.2 y.2

/-- The same shape, with related members. -/
structure Rel (R : β → γ → Prop) (a : Applicators β) (b : Applicators γ) : Prop where
  ifSchema : Option.Rel R a.ifSchema b.ifSchema
  thenSchema : Option.Rel R a.thenSchema b.thenSchema
  elseSchema : Option.Rel R a.elseSchema b.elseSchema
  notSchema : Option.Rel R a.notSchema b.notSchema
  allOf : Option.Rel (List.Forall₂ R) a.allOf b.allOf
  anyOf : Option.Rel (List.Forall₂ R) a.anyOf b.anyOf
  oneOf : Option.Rel (List.Forall₂ R) a.oneOf b.oneOf
  items : Option.Rel R a.items b.items
  itemsList : Option.Rel (List.Forall₂ R) a.itemsList b.itemsList
  additionalItems : Option.Rel R a.additionalItems b.additionalItems
  contains : Option.Rel R a.contains b.contains
  propertyNames : Option.Rel R a.propertyNames b.propertyNames
  properties : Option.Rel (List.Forall₂ (Entry R)) a.properties b.properties
  patternProperties : Option.Rel (List.Forall₂ (Entry R)) a.patternProperties b.patternProperties
  additionalProperties : Option.Rel R a.additionalProperties b.additionalProperties
  dependencies : Option.Rel (List.Forall₂ (Entry R)) a.dependencies b.dependencies

variable {R : β → γ → Prop}

theorem forall₂_toList {o : Option β} {o' : Option γ} (h : Option.Rel R o o') :
    List.Forall₂ R o.toList o'.toList := by
  cases h with
  | some h => exact .cons h .nil
  | none => exact .nil

theorem forall₂_getD {o : Option (List β)} {o' : Option (List γ)}
    (h : Option.Rel (List.Forall₂ R) o o') : List.Forall₂ R (o.getD []) (o'.getD []) := by
  cases h with
  | some h => exact h
  | none => exact .nil

theorem forall₂_values {o : Option (List (RString × β))} {o' : Option (List (RString × γ))}
    (h : Option.Rel (List.Forall₂ (Entry R)) o o') :
    List.Forall₂ R ((o.getD []).map (·.2)) ((o'.getD []).map (·.2)) := by
  rw [List.forall₂_map_left_iff, List.forall₂_map_right_iff]
  cases h with
  | some h => exact h.imp fun _ _ h => h.2
  | none => exact .nil

/-- Related collections have related members. -/
theorem Rel.members {a : Applicators β} {b : Applicators γ} (h : Rel R a b) :
    List.Forall₂ R a.members b.members := by
  unfold Applicators.members
  refine List.rel_append ?_ (forall₂_values h.dependencies)
  refine List.rel_append ?_ (forall₂_values h.patternProperties)
  refine List.rel_append ?_ (forall₂_values h.properties)
  refine List.rel_append ?_ (forall₂_toList h.additionalProperties)
  refine List.rel_append ?_ (forall₂_toList h.propertyNames)
  refine List.rel_append ?_ (forall₂_toList h.contains)
  refine List.rel_append ?_ (forall₂_toList h.additionalItems)
  refine List.rel_append ?_ (forall₂_getD h.itemsList)
  refine List.rel_append ?_ (forall₂_toList h.items)
  refine List.rel_append ?_ (forall₂_toList h.notSchema)
  refine List.rel_append ?_ (forall₂_getD h.oneOf)
  refine List.rel_append ?_ (forall₂_getD h.anyOf)
  refine List.rel_append ?_ (forall₂_getD h.allOf)
  refine List.rel_append ?_ (forall₂_toList h.elseSchema)
  exact List.rel_append (forall₂_toList h.ifSchema) (forall₂_toList h.thenSchema)

theorem option_refl {R : β → β → Prop} (hR : ∀ x, R x x) (o : Option β) : Option.Rel R o o := by
  cases o with
  | none => exact .none
  | some x => exact .some (hR x)

/-- A collection is related to itself when its members are. -/
theorem Rel.refl {R : β → β → Prop} (hR : ∀ x, R x x) (a : Applicators β) : Rel R a a := by
  have hlist : ∀ l : List β, List.Forall₂ R l l := fun l => List.forall₂_same.2 fun x _ => hR x
  have hentries : ∀ l : List (RString × β), List.Forall₂ (Entry R) l l := fun l =>
    List.forall₂_same.2 fun e _ => ⟨rfl, hR e.2⟩
  exact {
    ifSchema := option_refl hR _
    thenSchema := option_refl hR _
    elseSchema := option_refl hR _
    notSchema := option_refl hR _
    allOf := option_refl hlist _
    anyOf := option_refl hlist _
    oneOf := option_refl hlist _
    items := option_refl hR _
    itemsList := option_refl hlist _
    additionalItems := option_refl hR _
    contains := option_refl hR _
    propertyNames := option_refl hR _
    properties := option_refl hentries _
    patternProperties := option_refl hentries _
    additionalProperties := option_refl hR _
    dependencies := option_refl hentries _ }

section Imp

variable {S : β → γ → Prop}

theorem option_imp {o : Option β} {o' : Option γ} (h : Option.Rel R o o')
    (hS : ∀ x ∈ o.toList, ∀ y ∈ o'.toList, R x y → S x y) : Option.Rel S o o' := by
  cases h with
  | some h => exact .some (hS _ (by simp) _ (by simp) h)
  | none => exact .none

theorem forall₂_imp {l : List β} {l' : List γ} (h : List.Forall₂ R l l')
    (hS : ∀ x ∈ l, ∀ y ∈ l', R x y → S x y) : List.Forall₂ S l l' := by
  induction h with
  | nil => exact .nil
  | cons h _ ih =>
    refine .cons (hS _ List.mem_cons_self _ List.mem_cons_self h) (ih ?_)
    exact fun x hx y hy => hS x (List.mem_cons_of_mem _ hx) y (List.mem_cons_of_mem _ hy)

theorem list_imp {o : Option (List β)} {o' : Option (List γ)}
    (h : Option.Rel (List.Forall₂ R) o o')
    (hS : ∀ x ∈ o.getD [], ∀ y ∈ o'.getD [], R x y → S x y) :
    Option.Rel (List.Forall₂ S) o o' := by
  cases h with
  | some h => exact .some (forall₂_imp h hS)
  | none => exact .none

theorem entries_imp {o : Option (List (RString × β))} {o' : Option (List (RString × γ))}
    (h : Option.Rel (List.Forall₂ (Entry R)) o o')
    (hS : ∀ x ∈ (o.getD []).map (·.2), ∀ y ∈ (o'.getD []).map (·.2), R x y → S x y) :
    Option.Rel (List.Forall₂ (Entry S)) o o' := by
  cases h with
  | some h =>
    refine .some (forall₂_imp h fun e he f hf hef => ⟨hef.1, ?_⟩)
    exact hS e.2 (List.mem_map_of_mem he) f.2 (List.mem_map_of_mem hf) hef.2
  | none => exact .none

/-- A relation between members that follows from the one of a collection. -/
theorem Rel.imp {a : Applicators β} {b : Applicators γ} (h : Rel R a b)
    (hS : ∀ x ∈ a.members, ∀ y ∈ b.members, R x y → S x y) : Rel S a b := by
  simp only [Applicators.members, List.mem_append] at hS
  exact {
    ifSchema := option_imp h.ifSchema fun x hx y hy => hS x (by simp [hx]) y (by simp [hy])
    thenSchema := option_imp h.thenSchema fun x hx y hy => hS x (by simp [hx]) y (by simp [hy])
    elseSchema := option_imp h.elseSchema fun x hx y hy => hS x (by simp [hx]) y (by simp [hy])
    notSchema := option_imp h.notSchema fun x hx y hy => hS x (by simp [hx]) y (by simp [hy])
    allOf := list_imp h.allOf fun x hx y hy => hS x (by simp [hx]) y (by simp [hy])
    anyOf := list_imp h.anyOf fun x hx y hy => hS x (by simp [hx]) y (by simp [hy])
    oneOf := list_imp h.oneOf fun x hx y hy => hS x (by simp [hx]) y (by simp [hy])
    items := option_imp h.items fun x hx y hy => hS x (by simp [hx]) y (by simp [hy])
    itemsList := list_imp h.itemsList fun x hx y hy => hS x (by simp [hx]) y (by simp [hy])
    additionalItems :=
      option_imp h.additionalItems fun x hx y hy => hS x (by simp [hx]) y (by simp [hy])
    contains := option_imp h.contains fun x hx y hy => hS x (by simp [hx]) y (by simp [hy])
    propertyNames :=
      option_imp h.propertyNames fun x hx y hy => hS x (by simp [hx]) y (by simp [hy])
    properties := entries_imp h.properties fun x hx y hy =>
      hS x (.inl (.inl (.inr hx))) y (.inl (.inl (.inr hy)))
    patternProperties := entries_imp h.patternProperties fun x hx y hy =>
      hS x (.inl (.inr hx)) y (.inl (.inr hy))
    additionalProperties :=
      option_imp h.additionalProperties fun x hx y hy => hS x (by simp [hx]) y (by simp [hy])
    dependencies := entries_imp h.dependencies fun x hx y hy => hS x (.inr hx) y (.inr hy) }

end Imp

section Map

variable {δ : Type} {f : β → δ} {g : γ → δ} (hR : ∀ x y, R x y → f x = g y)

include hR

theorem option_map_eq {o : Option β} {o' : Option γ} (h : Option.Rel R o o') :
    o.map f = o'.map g := by
  cases h with
  | some h => exact congrArg some (hR _ _ h)
  | none => rfl

theorem list_map_eq {l : List β} {l' : List γ} (h : List.Forall₂ R l l') :
    l.map f = l'.map g := by
  induction h with
  | nil => rfl
  | cons h _ ih => rw [List.map_cons, List.map_cons, hR _ _ h, ih]

theorem entries_map_eq {m : List (RString × β)} {m' : List (RString × γ)}
    (h : List.Forall₂ (Entry R) m m') :
    (m.map fun e => (e.1, f e.2)) = m'.map fun e => (e.1, g e.2) := by
  induction h with
  | nil => rfl
  | cons h _ ih => rw [List.map_cons, List.map_cons, h.1, hR _ _ h.2, ih]

/-- Related collections have one image when related members have. -/
theorem Rel.map_eq {a : Applicators β} {b : Applicators γ} (h : Rel R a b) :
    a.map f = b.map g := by
  have hlist : ∀ l l', List.Forall₂ R l l' → l.map f = l'.map g := fun _ _ => list_map_eq hR
  have hentries : ∀ m m', List.Forall₂ (Entry R) m m' →
      (m.map fun e => (e.1, f e.2)) = m'.map fun e => (e.1, g e.2) := fun _ _ => entries_map_eq hR
  rw [Applicators.map, Applicators.map, Applicators.mk.injEq]
  exact ⟨option_map_eq hR h.ifSchema, option_map_eq hR h.thenSchema,
    option_map_eq hR h.elseSchema, option_map_eq hR h.notSchema, option_map_eq hlist h.allOf,
    option_map_eq hlist h.anyOf, option_map_eq hlist h.oneOf, option_map_eq hR h.items,
    option_map_eq hlist h.itemsList, option_map_eq hR h.additionalItems,
    option_map_eq hR h.contains, option_map_eq hR h.propertyNames,
    option_map_eq hentries h.properties, option_map_eq hentries h.patternProperties,
    option_map_eq hR h.additionalProperties, option_map_eq hentries h.dependencies⟩

end Map

theorem map_id (a : Applicators β) : a.map id = a := by
  cases a
  simp [map]

/-- Collections with the same members are the same. -/
theorem eq_of_rel {a b : Applicators β} (h : Rel Eq a b) : a = b := by
  rw [← map_id a, ← map_id b]
  exact h.map_eq fun _ _ h => h

end Rel

end Applicators

namespace CompiledSchema

theorem children_eq (cs : CompiledSchema) :
    cs.children = cs.applicators.members ++ cs.nestedSchemas := by
  have hentries : ∀ m : Option (List (RString × CompiledSchema)),
      entries m = (m.getD []).map (·.2) := by
    rintro (_ | m) <;> rfl
  simp only [children, hentries]
  rfl

/-- A compiled schema without its children and the target of its `$ref`. -/
def own (cs : CompiledSchema) : CompiledSchema :=
  { cs with
    refSchema := none
    ifSchema := none
    thenSchema := none
    elseSchema := none
    allOfVal := none
    anyOfVal := none
    oneOfVal := none
    notSchema := none
    itemsSchema := none
    itemsVal := none
    additionalItemsSchema := none
    containsSchema := none
    propertiesVal := none
    patternPropertiesVal := none
    propertyNamesSchema := none
    additionalPropertiesSchema := none
    dependenciesVal := none
    nestedSchemas := [] }

/-- A compiled schema is what it has of its own, its children and the target of its `$ref`. -/
theorem eq_of_own {cs cs' : CompiledSchema} (h : cs.own = cs'.own)
    (ha : cs.applicators = cs'.applicators) (hn : cs.nestedSchemas = cs'.nestedSchemas)
    (hr : cs.refSchema = cs'.refSchema) : cs = cs' := by
  cases cs
  cases cs'
  simp only [own, applicators, CompiledSchema.mk.injEq, Applicators.mk.injEq] at *
  simp only [h, ha, hn, hr, and_self]

end CompiledSchema

end FastJsonSchema
