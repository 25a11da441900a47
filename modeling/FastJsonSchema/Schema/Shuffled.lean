import FastJsonSchema.Schema.Applicators
import FastJsonSchema.Table.SameKeys

/-!
# The children of a schema in another order

Two schemas whose members stand in different orders have the same children, but for the order of
those under the keywords with an object of schemas (`Applicators.Shuffled`). Some children are
applied to the instance of the schema itself (`Applicators.inPlace`) and the others to its parts, so
there is one relation for each of the two.
-/

namespace FastJsonSchema

open Ruby Table

namespace Applicators

variable {β γ β' γ' : Type}

/-- The children that are applied to the instance itself. -/
def inPlace (a : Applicators β) : List β :=
  a.ifSchema.toList ++ a.thenSchema.toList ++ a.elseSchema.toList ++ a.notSchema.toList
    ++ a.allOf.getD [] ++ a.anyOf.getD [] ++ a.oneOf.getD [] ++ (a.dependencies.getD []).map (·.2)

/-- The same shape, up to the order of the maps, with members related by `S` where they are applied
to the instance itself and by `P` where they are applied to its parts. -/
structure Shuffled (S P : β → γ → Prop) (a : Applicators β) (b : Applicators γ) : Prop where
  ifSchema : Option.Rel S a.ifSchema b.ifSchema
  thenSchema : Option.Rel S a.thenSchema b.thenSchema
  elseSchema : Option.Rel S a.elseSchema b.elseSchema
  notSchema : Option.Rel S a.notSchema b.notSchema
  allOf : Option.Rel (List.Forall₂ S) a.allOf b.allOf
  anyOf : Option.Rel (List.Forall₂ S) a.anyOf b.anyOf
  oneOf : Option.Rel (List.Forall₂ S) a.oneOf b.oneOf
  items : Option.Rel P a.items b.items
  itemsList : Option.Rel (List.Forall₂ P) a.itemsList b.itemsList
  additionalItems : Option.Rel P a.additionalItems b.additionalItems
  contains : Option.Rel P a.contains b.contains
  propertyNames : Option.Rel P a.propertyNames b.propertyNames
  properties : Option.Rel (SameKeys P) a.properties b.properties
  patternProperties : Option.Rel (SameKeys P) a.patternProperties b.patternProperties
  additionalProperties : Option.Rel P a.additionalProperties b.additionalProperties
  dependencies : Option.Rel (SameKeys S) a.dependencies b.dependencies

namespace Shuffled

/-! ## Collections related to shuffled ones -/

section Conj

variable {R : β → β' → Prop} {T : β → γ → Prop} {R' : γ → γ' → Prop}

/-- What stands in the place of related members. -/
def Between (R : β → β' → Prop) (T : β → γ → Prop) (R' : γ → γ' → Prop) (x : β') (y : γ') : Prop :=
  ∃ p q, R p x ∧ T p q ∧ R' q y

theorem option_conj {o : Option β} {o' : Option γ} {x : Option β'} {y : Option γ'}
    (hx : Option.Rel R o x) (h : Option.Rel T o o') (hy : Option.Rel R' o' y) :
    Option.Rel (Between R T R') x y := by
  cases h with
  | none =>
    cases hx
    cases hy
    exact .none
  | some h =>
    cases hx with
    | some hx =>
      cases hy with
      | some hy => exact .some ⟨_, _, hx, h, hy⟩

theorem forall₂_conj {l : List β} {l' : List γ} {xs : List β'} {ys : List γ'}
    (hx : List.Forall₂ R l xs) (h : List.Forall₂ T l l') (hy : List.Forall₂ R' l' ys) :
    List.Forall₂ (Between R T R') xs ys := by
  induction h generalizing xs ys with
  | nil =>
    cases hx
    cases hy
    exact .nil
  | cons h _ ih =>
    cases hx with
    | cons hx hxs =>
      cases hy with
      | cons hy hys => exact .cons ⟨_, _, hx, h, hy⟩ (ih hxs hys)

theorem list_conj {o : Option (List β)} {o' : Option (List γ)} {x : Option (List β')}
    {y : Option (List γ')} (hx : Option.Rel (List.Forall₂ R) o x)
    (h : Option.Rel (List.Forall₂ T) o o') (hy : Option.Rel (List.Forall₂ R') o' y) :
    Option.Rel (List.Forall₂ (Between R T R')) x y := by
  cases h with
  | none =>
    cases hx
    cases hy
    exact .none
  | some h =>
    cases hx with
    | some hx =>
      cases hy with
      | some hy => exact .some (forall₂_conj hx h hy)

theorem entries_conj {o : Option (List (RString × β))} {o' : Option (List (RString × γ))}
    {x : Option (List (RString × β'))} {y : Option (List (RString × γ'))}
    (hx : Option.Rel (List.Forall₂ (Entry R)) o x) (h : Option.Rel (SameKeys T) o o')
    (hy : Option.Rel (List.Forall₂ (Entry R')) o' y) :
    Option.Rel (SameKeys (Between R T R')) x y := by
  cases h with
  | none =>
    cases hx
    cases hy
    exact .none
  | some h =>
    cases hx with
    | some hx =>
      cases hy with
      | some hy => exact .some (h.conj hx hy)

/-- Collections related to shuffled ones are shuffled. -/
theorem conj {S P : β → γ → Prop} {a : Applicators β} {a' : Applicators γ} {b : Applicators β'}
    {b' : Applicators γ'} (h : Shuffled S P a a') (hb : Rel R a b) (hb' : Rel R' a' b') :
    Shuffled (Between R S R') (Between R P R') b b' where
  ifSchema := option_conj hb.ifSchema h.ifSchema hb'.ifSchema
  thenSchema := option_conj hb.thenSchema h.thenSchema hb'.thenSchema
  elseSchema := option_conj hb.elseSchema h.elseSchema hb'.elseSchema
  notSchema := option_conj hb.notSchema h.notSchema hb'.notSchema
  allOf := list_conj hb.allOf h.allOf hb'.allOf
  anyOf := list_conj hb.anyOf h.anyOf hb'.anyOf
  oneOf := list_conj hb.oneOf h.oneOf hb'.oneOf
  items := option_conj hb.items h.items hb'.items
  itemsList := list_conj hb.itemsList h.itemsList hb'.itemsList
  additionalItems := option_conj hb.additionalItems h.additionalItems hb'.additionalItems
  contains := option_conj hb.contains h.contains hb'.contains
  propertyNames := option_conj hb.propertyNames h.propertyNames hb'.propertyNames
  properties := entries_conj hb.properties h.properties hb'.properties
  patternProperties := entries_conj hb.patternProperties h.patternProperties hb'.patternProperties
  additionalProperties :=
    option_conj hb.additionalProperties h.additionalProperties hb'.additionalProperties
  dependencies := entries_conj hb.dependencies h.dependencies hb'.dependencies

end Conj

/-! ## Images of shuffled collections -/

section Map

variable {R : β → γ → Prop} {T : β' → γ' → Prop} {f : β → β'} {g : γ → γ'}

theorem option_map {o : Option β} {o' : Option γ} (h : Option.Rel R o o')
    (hT : ∀ x ∈ o.toList, ∀ y, R x y → T (f x) (g y)) : Option.Rel T (o.map f) (o'.map g) := by
  cases h with
  | none => exact .none
  | some h => exact .some (hT _ (List.mem_singleton_self _) _ h)

theorem list_map {o : Option (List β)} {o' : Option (List γ)}
    (h : Option.Rel (List.Forall₂ R) o o') (hT : ∀ x ∈ o.getD [], ∀ y, R x y → T (f x) (g y)) :
    Option.Rel (List.Forall₂ T) (o.map (·.map f)) (o'.map (·.map g)) := by
  cases h with
  | none => exact .none
  | some h =>
    refine .some (List.forall₂_map_left_iff.2 (List.forall₂_map_right_iff.2 ?_))
    exact forall₂_imp h fun x hx y _ hxy => hT x hx y hxy

theorem entries_map {o : Option (List (RString × β))} {o' : Option (List (RString × γ))}
    (h : Option.Rel (SameKeys R) o o')
    (hT : ∀ x ∈ (o.getD []).map (·.2), ∀ y, R x y → T (f x) (g y)) :
    Option.Rel (SameKeys T) (o.map (·.map fun e => (e.1, f e.2)))
      (o'.map (·.map fun e => (e.1, g e.2))) := by
  cases h with
  | none => exact .none
  | some h => exact .some (h.map fun e he e' _ hee => hT e.2 (List.mem_map_of_mem he) e'.2 hee)

theorem map {S P : β → γ → Prop} {S' P' : β' → γ' → Prop} {a : Applicators β} {b : Applicators γ}
    (h : Shuffled S P a b) (hS : ∀ x ∈ a.inPlace, ∀ y, S x y → S' (f x) (g y))
    (hP : ∀ x ∈ a.members, ∀ y, P x y → P' (f x) (g y)) :
    Shuffled S' P' (a.map f) (b.map g) := by
  simp only [inPlace, members, List.mem_append] at hS hP
  exact {
    ifSchema := option_map h.ifSchema fun x hx => hS x (by simp only [hx, true_or])
    thenSchema := option_map h.thenSchema fun x hx => hS x (by simp only [hx, true_or, or_true])
    elseSchema := option_map h.elseSchema fun x hx => hS x (by simp only [hx, true_or, or_true])
    notSchema := option_map h.notSchema fun x hx => hS x (by simp only [hx, true_or, or_true])
    allOf := list_map h.allOf fun x hx => hS x (by simp only [hx, true_or, or_true])
    anyOf := list_map h.anyOf fun x hx => hS x (by simp only [hx, true_or, or_true])
    oneOf := list_map h.oneOf fun x hx => hS x (by simp only [hx, true_or, or_true])
    items := option_map h.items fun x hx => hP x (by simp only [hx, true_or, or_true])
    itemsList := list_map h.itemsList fun x hx => hP x (by simp only [hx, true_or, or_true])
    additionalItems :=
      option_map h.additionalItems fun x hx => hP x (by simp only [hx, true_or, or_true])
    contains := option_map h.contains fun x hx => hP x (by simp only [hx, true_or, or_true])
    propertyNames :=
      option_map h.propertyNames fun x hx => hP x (by simp only [hx, true_or, or_true])
    properties := entries_map h.properties fun x hx => hP x (by simp only [hx, true_or, or_true])
    patternProperties :=
      entries_map h.patternProperties fun x hx => hP x (by simp only [hx, true_or, or_true])
    additionalProperties :=
      option_map h.additionalProperties fun x hx => hP x (by simp only [hx, true_or, or_true])
    dependencies := entries_map h.dependencies fun x hx => hS x (by simp only [hx, or_true]) }

end Map

/-! ## The children in place -/

section InPlace

variable {R : β → γ → Prop} {y : γ}

theorem exists_left_option {o : Option β} {o' : Option γ} (h : Option.Rel R o o')
    (hy : y ∈ o'.toList) : ∃ x ∈ o.toList, R x y := by
  cases h with
  | none => exact absurd hy List.not_mem_nil
  | some h => exact ⟨_, List.mem_singleton_self _, List.mem_singleton.1 hy ▸ h⟩

theorem exists_left_list {o : Option (List β)} {o' : Option (List γ)}
    (h : Option.Rel (List.Forall₂ R) o o') (hy : y ∈ o'.getD []) : ∃ x ∈ o.getD [], R x y := by
  cases h with
  | none => exact absurd hy List.not_mem_nil
  | some h =>
    obtain ⟨i, hi, rfl⟩ := List.mem_iff_getElem.1 hy
    have hi' := h.length_eq.symm ▸ hi
    exact ⟨_, List.getElem_mem hi', (List.forall₂_iff_get.1 h).2 i hi' hi⟩

theorem exists_left_entries {o : Option (List (RString × β))} {o' : Option (List (RString × γ))}
    (h : Option.Rel (SameKeys R) o o') (hy : y ∈ (o'.getD []).map (·.2)) :
    ∃ x ∈ (o.getD []).map (·.2), R x y := by
  cases h with
  | none => exact absurd hy List.not_mem_nil
  | some h =>
    obtain ⟨⟨k, y⟩, he, rfl⟩ := List.mem_map.1 hy
    obtain ⟨x, hx, hxy⟩ := h.symm.exists_right he
    exact ⟨x, List.mem_map_of_mem (f := Prod.snd) hx, hxy⟩

theorem exists_left {S P : β → γ → Prop} {a : Applicators β} {b : Applicators γ}
    (h : Shuffled S P a b) (hy : y ∈ b.inPlace) : ∃ x ∈ a.inPlace, S x y := by
  simp only [inPlace, List.mem_append] at hy ⊢
  rcases hy with ((((((hy | hy) | hy) | hy) | hy) | hy) | hy) | hy
  · obtain ⟨x, hx, hxy⟩ := exists_left_option h.ifSchema hy
    exact ⟨x, by simp only [hx, true_or], hxy⟩
  · obtain ⟨x, hx, hxy⟩ := exists_left_option h.thenSchema hy
    exact ⟨x, by simp only [hx, true_or, or_true], hxy⟩
  · obtain ⟨x, hx, hxy⟩ := exists_left_option h.elseSchema hy
    exact ⟨x, by simp only [hx, true_or, or_true], hxy⟩
  · obtain ⟨x, hx, hxy⟩ := exists_left_option h.notSchema hy
    exact ⟨x, by simp only [hx, true_or, or_true], hxy⟩
  · obtain ⟨x, hx, hxy⟩ := exists_left_list h.allOf hy
    exact ⟨x, by simp only [hx, true_or, or_true], hxy⟩
  · obtain ⟨x, hx, hxy⟩ := exists_left_list h.anyOf hy
    exact ⟨x, by simp only [hx, true_or, or_true], hxy⟩
  · obtain ⟨x, hx, hxy⟩ := exists_left_list h.oneOf hy
    exact ⟨x, by simp only [hx, true_or, or_true], hxy⟩
  · obtain ⟨x, hx, hxy⟩ := exists_left_entries h.dependencies hy
    exact ⟨x, by simp only [hx, or_true], hxy⟩

end InPlace

end Shuffled

end Applicators

end FastJsonSchema
