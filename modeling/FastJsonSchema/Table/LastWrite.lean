import Mathlib.Data.List.Basic
import Mathlib.Tactic.Common

/-!
# Tables where the last write wins

A table is a list of entries, the newest first, and grows by the writes of a list of authors, one
after the other. The entry of a key is then the one of the last author who wrote the key
(`lookup_eq_some_iff`), when all that an author writes has one value.
-/

namespace Table

section IsLast

variable {α : Type*} {P Q : α → Prop} {l : List α} {x y : α}

/-- `x` is the last element of `l` with `P`. -/
def IsLast (P : α → Prop) (l : List α) (x : α) : Prop :=
  ∃ pre post, l = pre ++ x :: post ∧ P x ∧ ∀ y ∈ post, ¬ P y

theorem IsLast.mem (h : IsLast P l x) : x ∈ l := by
  obtain ⟨pre, post, rfl, -, -⟩ := h
  exact List.mem_append_right _ List.mem_cons_self

theorem IsLast.holds (h : IsLast P l x) : P x := by
  obtain ⟨_, _, _, hx, _⟩ := h
  exact hx

theorem not_isLast_nil : ¬ IsLast P [] x := fun h => List.not_mem_nil h.mem

theorem isLast_cons : IsLast P (y :: l) x ↔ IsLast P l x ∨ (x = y ∧ P y ∧ ∀ z ∈ l, ¬ P z) := by
  constructor
  · rintro ⟨pre, post, he, hx, hpost⟩
    cases pre with
    | nil =>
      obtain ⟨rfl, rfl⟩ := List.cons.inj he
      exact .inr ⟨rfl, hx, hpost⟩
    | cons z pre =>
      obtain ⟨rfl, rfl⟩ := List.cons.inj he
      exact .inl ⟨pre, post, rfl, hx, hpost⟩
  · rintro (⟨pre, post, rfl, hx, hpost⟩ | ⟨rfl, hx, hpost⟩)
    · exact ⟨y :: pre, post, rfl, hx, hpost⟩
    · exact ⟨[], l, rfl, hx, hpost⟩

theorem IsLast.unique (hx : IsLast P l x) (hy : IsLast P l y) : x = y := by
  induction l with
  | nil => exact absurd hx not_isLast_nil
  | cons z l ih =>
    rcases isLast_cons.1 hx with hx' | ⟨rfl, -, hnone⟩
    · rcases isLast_cons.1 hy with hy' | ⟨rfl, -, hnone⟩
      · exact ih hx' hy'
      · exact absurd hx'.holds (hnone x hx'.mem)
    · rcases isLast_cons.1 hy with hy' | ⟨rfl, -, -⟩
      · exact absurd hy'.holds (hnone y hy'.mem)
      · rfl

theorem exists_isLast (hx : x ∈ l) (hP : P x) : ∃ y, IsLast P l y := by
  induction l generalizing x with
  | nil => exact absurd hx List.not_mem_nil
  | cons z l ih =>
    by_cases hl : ∃ y ∈ l, P y
    · obtain ⟨y, hy, hPy⟩ := hl
      obtain ⟨w, hw⟩ := ih hy hPy
      exact ⟨w, isLast_cons.2 (.inl hw)⟩
    · simp only [not_exists, not_and] at hl
      rcases List.mem_cons.1 hx with rfl | hx
      · exact ⟨x, isLast_cons.2 (.inr ⟨rfl, hP, hl⟩)⟩
      · exact absurd hP (hl x hx)

theorem IsLast.congr (h : ∀ x ∈ l, P x ↔ Q x) (hx : IsLast P l x) : IsLast Q l x := by
  obtain ⟨pre, post, rfl, hp, hpost⟩ := hx
  refine ⟨pre, post, rfl, (h x (by simp)).1 hp, fun y hy hq => hpost y hy ((h y ?_).2 hq)⟩
  simp [hy]

theorem isLast_congr (h : ∀ x ∈ l, P x ↔ Q x) : IsLast P l x ↔ IsLast Q l x :=
  ⟨IsLast.congr h, IsLast.congr fun x hx => (h x hx).symm⟩

end IsLast

/-- An element is known by its value under a function with distinct values. -/
theorem eq_of_filterMap_nodup {α β : Type*} {f : α → Option β} {l : List α}
    (h : (l.filterMap f).Nodup) {x y : α} {b : β} (hx : x ∈ l) (hy : y ∈ l) (hfx : f x = some b)
    (hfy : f y = some b) : x = y := by
  induction l with
  | nil => exact absurd hx List.not_mem_nil
  | cons z l ih =>
    have hnot : ∀ {w}, w ∈ l → f z = some b → f w ≠ some b := by
      intro w hw hz hfw
      rw [List.filterMap_cons_some hz] at h
      exact (List.nodup_cons.1 h).1 (List.mem_filterMap.2 ⟨w, hw, hfw⟩)
    have hl : (l.filterMap f).Nodup := by
      cases hz : f z with
      | none => rwa [List.filterMap_cons_none hz] at h
      | some c =>
        rw [List.filterMap_cons_some hz] at h
        exact (List.nodup_cons.1 h).2
    rcases List.mem_cons.1 hx with rfl | hxl
    · rcases List.mem_cons.1 hy with rfl | hyl
      · rfl
      · exact absurd hfy (hnot hyl hfx)
    · rcases List.mem_cons.1 hy with rfl | hyl
      · exact absurd hfx (hnot hxl hfy)
      · exact ih hl hxl hyl

section Lookup

variable {α κ β : Type*} [BEq κ] [LawfulBEq κ] {f : α → List (κ × β)} {val : α → β} {k : κ}

theorem lookup_eq_none_iff {ws : List (κ × β)} : ws.lookup k = none ↔ k ∉ ws.map (·.1) := by
  rw [List.lookup_eq_none_iff, List.mem_map]
  constructor
  · rintro h ⟨w, hw, rfl⟩
    exact absurd (h w hw) (by simp)
  · intro h w hw
    simpa using fun he => h ⟨w, hw, he.symm⟩

/-- Entries that all have one value. -/
theorem lookup_const {ws : List (κ × β)} {v b : β} (h : ∀ w ∈ ws, w.2 = v) :
    ws.lookup k = some b ↔ k ∈ ws.map (·.1) ∧ v = b := by
  induction ws with
  | nil => simp
  | cons w ws ih =>
    obtain ⟨k', v'⟩ := w
    obtain ⟨rfl, h⟩ := List.forall_mem_cons.1 h
    rw [List.lookup_cons, List.map_cons, List.mem_cons]
    by_cases hk : k = k'
    · subst hk
      simp
    · rw [beq_eq_false_iff_ne.2 hk, ih h]
      simp [hk]

/-- A key has no entry when no author wrote it. -/
theorem lookup_eq_none {l : List α} :
    (l.flatMap f).reverse.lookup k = none ↔ ∀ x ∈ l, k ∉ (f x).map (·.1) := by
  rw [lookup_eq_none_iff, List.map_reverse, List.mem_reverse, List.map_flatMap, List.mem_flatMap]
  constructor
  · exact fun h x hx hk => h ⟨x, hx, hk⟩
  · rintro h ⟨x, hx, hk⟩
    exact h x hx hk

/-- **The entry of a key** is that of the last author who wrote it. -/
theorem lookup_eq_some_iff {l : List α} {b : β} (hval : ∀ x, ∀ w ∈ f x, w.2 = val x) :
    (l.flatMap f).reverse.lookup k = some b ↔
      ∃ x, IsLast (fun x => k ∈ (f x).map (·.1)) l x ∧ val x = b := by
  induction l with
  | nil => simp [not_isLast_nil]
  | cons y l ih =>
    have hy : (f y).reverse.lookup k = some b ↔ k ∈ (f y).map (·.1) ∧ val y = b := by
      rw [lookup_const fun w hw => hval y w (List.mem_reverse.1 hw), List.map_reverse,
        List.mem_reverse]
    rw [List.flatMap_cons, List.reverse_append, List.lookup_append, Option.or_eq_some_iff, ih, hy,
      lookup_eq_none]
    simp only [isLast_cons]
    constructor
    · rintro (⟨x, hx, hb⟩ | ⟨hnone, hk, hb⟩)
      · exact ⟨x, .inl hx, hb⟩
      · exact ⟨y, .inr ⟨rfl, hk, hnone⟩, hb⟩
    · rintro ⟨x, hx | ⟨rfl, hk, hnone⟩, hb⟩
      · exact .inl ⟨x, hx, hb⟩
      · exact .inr ⟨hnone, hk, hb⟩

end Lookup

end Table
