import FastJsonSchema.Table.LastWrite
import Mathlib.Data.List.Forall2

/-!
# Lists with new elements

`Widens R N xs ys` says that `ys` has an element related by `R` for each element of `xs`, in the
same order, and elements with `N` in between. When related authors write as many entries, every key
of the table of `xs` is in that of `ys` (`Widens.lookup_ne_none`).
-/

namespace Table

variable {α β α' β' : Type*} {R : α → β → Prop} {N : β → Prop} {R' : α' → β' → Prop}
  {N' : β' → Prop}

/-- `ys` has the elements of `xs`, up to `R`, and new ones with `N`. -/
inductive Widens (R : α → β → Prop) (N : β → Prop) : List α → List β → Prop
  | nil : Widens R N [] []
  | both {x : α} {y : β} {xs : List α} {ys : List β} (h : R x y) (hs : Widens R N xs ys) :
    Widens R N (x :: xs) (y :: ys)
  | extra {y : β} {xs : List α} {ys : List β} (h : N y) (hs : Widens R N xs ys) :
    Widens R N xs (y :: ys)

namespace Widens

variable {xs xs₁ xs₂ : List α} {ys ys₁ ys₂ : List β}

theorem of_forall₂ (h : List.Forall₂ R xs ys) : Widens R N xs ys := by
  induction h with
  | nil => exact .nil
  | cons h _ ih => exact .both h ih

theorem of_new (h : ∀ y ∈ ys, N y) : Widens R N [] ys := by
  induction ys with
  | nil => exact .nil
  | cons y ys ih =>
    obtain ⟨hy, hys⟩ := List.forall_mem_cons.1 h
    exact .extra hy (ih hys)

theorem append (h₁ : Widens R N xs₁ ys₁) (h₂ : Widens R N xs₂ ys₂) :
    Widens R N (xs₁ ++ xs₂) (ys₁ ++ ys₂) := by
  induction h₁ with
  | nil => exact h₂
  | both h _ ih => exact .both h ih
  | extra h _ ih => exact .extra h ih

/-- New elements between two parts. -/
theorem insert {new : List β} (h₁ : Widens R N xs₁ ys₁) (hnew : ∀ y ∈ new, N y)
    (h₂ : Widens R N xs₂ ys₂) : Widens R N (xs₁ ++ xs₂) (ys₁ ++ (new ++ ys₂)) :=
  h₁.append ((of_new hnew).append h₂)

theorem flatMap {f : α → List α'} {g : β → List β'} (h : Widens R N xs ys)
    (hR : ∀ x ∈ xs, ∀ y ∈ ys, R x y → Widens R' N' (f x) (g y))
    (hN : ∀ y ∈ ys, N y → ∀ z ∈ g y, N' z) : Widens R' N' (xs.flatMap f) (ys.flatMap g) := by
  induction h with
  | nil => exact .nil
  | @both x y xs ys h _ ih =>
    rw [List.flatMap_cons, List.flatMap_cons]
    apply append
    · exact hR x List.mem_cons_self y List.mem_cons_self h
    · apply ih
      · exact fun z hz z' hz' => hR z (List.mem_cons_of_mem _ hz) z' (List.mem_cons_of_mem _ hz')
      · exact fun y' hy' => hN y' (List.mem_cons_of_mem _ hy')
  | @extra y xs ys h _ ih =>
    rw [List.flatMap_cons, ← List.nil_append (xs.flatMap f)]
    apply append
    · exact of_new (hN y List.mem_cons_self h)
    · apply ih
      · exact fun x' hx' y' hy' => hR x' hx' y' (List.mem_cons_of_mem _ hy')
      · exact fun y' hy' => hN y' (List.mem_cons_of_mem _ hy')

theorem imp {S : α → β → Prop} (h : Widens R N xs ys) (hS : ∀ x ∈ xs, ∀ y, R x y → S x y) :
    Widens S N xs ys := by
  induction h with
  | nil => exact .nil
  | @both x y xs ys h _ ih =>
    exact .both (hS x List.mem_cons_self y h) (ih fun z hz => hS z (List.mem_cons_of_mem x hz))
  | extra h _ ih => exact .extra h (ih hS)

/-- The elements of the larger list. -/
theorem of_mem_right {y : β} (h : Widens R N xs ys) (hy : y ∈ ys) : N y ∨ ∃ x ∈ xs, R x y := by
  induction h with
  | nil => exact absurd hy List.not_mem_nil
  | @both x z xs ys h _ ih =>
    rcases List.mem_cons.1 hy with rfl | hy
    · exact .inr ⟨x, List.mem_cons_self, h⟩
    · refine (ih hy).imp_right ?_
      rintro ⟨x', hx', hr⟩
      exact ⟨x', List.mem_cons_of_mem _ hx', hr⟩
  | extra h _ ih =>
    rcases List.mem_cons.1 hy with rfl | hy
    · exact .inl h
    · exact ih hy

/-- The elements of the smaller list. -/
theorem of_mem_left {x : α} (h : Widens R N xs ys) (hx : x ∈ xs) : ∃ y ∈ ys, R x y := by
  induction h with
  | nil => exact absurd hx List.not_mem_nil
  | @both z y xs ys h _ ih =>
    rcases List.mem_cons.1 hx with rfl | hx
    · exact ⟨y, List.mem_cons_self, h⟩
    · obtain ⟨y', hy', hr⟩ := ih hx
      exact ⟨y', List.mem_cons_of_mem _ hy', hr⟩
  | extra _ _ ih =>
    obtain ⟨y', hy', hr⟩ := ih hx
    exact ⟨y', List.mem_cons_of_mem _ hy', hr⟩

/-- **Lookups in a larger table**: what has an entry in the smaller one has one, when related
authors write as much. -/
theorem lookup_ne_none {κ V : Type*} [BEq κ] [LawfulBEq κ] {f : α → List (κ × V)}
    {g : β → List (κ × V)} {k : κ} (h : Widens R N xs ys) (hfg : ∀ x y, R x y → f x ⊆ g y)
    (hk : (xs.flatMap f).reverse.lookup k ≠ none) : (ys.flatMap g).reverse.lookup k ≠ none := by
  intro hnone
  refine hk (lookup_eq_none.2 fun x hx hmem => ?_)
  obtain ⟨y, hy, hr⟩ := h.of_mem_left hx
  exact lookup_eq_none.1 hnone y hy (List.map_subset _ (hfg x y hr) hmem)

end Widens

end Table
