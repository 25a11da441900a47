import FastJsonSchema.Scan.Words

/-!
# Replacing a part of a word

A language is closed under a relation when a part of a word may be replaced by a related one
(`Closed`). What is built from closed languages is closed where a part cannot reach over the end of
a factor: the delimiter that the next factor starts with is no letter of it (`Closed.mul`).

`encodedIn f L` are the words that a letter by letter encoding brings into a language.
-/

namespace Words

open scoped Computability

variable {α : Type} {R : List α → List α → Prop} {d p : α → Bool} {a : α}
  {e k m w x y : List α} {K L M W : Language α}

/-- A part of a word of the language may be replaced by a related one. -/
def Closed (R : List α → List α → Prop) (L : Language α) : Prop :=
  ∀ ⦃x e q y⦄, R e q → x ++ (e ++ y) ∈ L → x ++ (q ++ y) ∈ L

/-- A part without a delimiter is on one side of a cut in front of one. -/
theorem append_cut (he : Free d e) (hm : Starts d m) (h : x ++ (e ++ y) = k ++ m) :
    (∃ t, k = x ++ (e ++ t) ∧ y = t ++ m) ∨ ∃ t, x = k ++ t ∧ m = t ++ (e ++ y) := by
  rcases List.append_eq_append_iff.1 h with ⟨t, rfl, hy⟩ | ⟨t, rfl, rfl⟩
  · rcases List.append_eq_append_iff.1 hy with ⟨s, rfl, rfl⟩ | ⟨s, rfl, rfl⟩
    · exact .inl ⟨s, rfl, rfl⟩
    · cases s with
      | nil => exact .inl ⟨[], by simp, rfl⟩
      | cons a s =>
        have hfree : d a = false := he a (by simp)
        rw [List.cons_append, starts_cons, hfree] at hm
        cases hm
  · exact .inr ⟨t, rfl, rfl⟩

theorem starts_letter_mul : ∀ m ∈ letter d * L, Starts d m := by
  intro m hm
  obtain ⟨a, t, rfl, ha, -⟩ := mem_letter_mul.1 hm
  exact starts_cons.2 ha

theorem starts_kstar (hL : ∀ w ∈ L, Starts d w) : ∀ m ∈ L∗, Starts d m := by
  intro m hm
  rcases mem_kstar_iff.1 hm with rfl | ⟨u, hu, hne, t, -, rfl⟩
  · exact starts_nil
  · obtain ⟨a, u, rfl⟩ := List.exists_cons_of_ne_nil hne
    exact starts_cons.2 (starts_cons.1 (hL _ hu))

namespace Closed

theorem add (hK : Closed R K) (hL : Closed R L) : Closed R (K + L) := by
  rintro x e q y hR (h | h)
  · exact .inl (hK hR h)
  · exact .inr (hL hR h)

/-- A language without the letters of what is replaced. -/
theorem of_le (hR : ∀ e q, R e q → ∃ a ∈ e, p a = false) (hL : L ≤ within p) : Closed R L := by
  intro x e q y h hw
  obtain ⟨a, ha, hp⟩ := hR e q h
  have hall := hL hw a (by simp [ha])
  rw [hp] at hall
  cases hall

section Delimited

variable (hR : ∀ e q, R e q → e ≠ [] ∧ Free d e)

include hR

theorem optional (hL : Closed R L) : Closed R (optional L) := by
  rintro x e q y h (hw | hw)
  · have hnil : x ++ (e ++ y) = [] := hw
    simp [(hR e q h).1] at hnil
  · exact .inr (hL h hw)

theorem letter_mul (hL : Closed R L) : Closed R (letter d * L) := by
  intro x e q y h hw
  obtain ⟨hne, hfree⟩ := hR e q h
  obtain ⟨a, t, heq, ha, ht⟩ := mem_letter_mul.1 hw
  cases x with
  | nil =>
    obtain ⟨b, e, rfl⟩ := List.exists_cons_of_ne_nil hne
    obtain rfl : b = a := (List.cons.inj heq).1
    rw [(free_cons.1 hfree).1] at ha
    cases ha
  | cons b x =>
    obtain ⟨rfl, rfl⟩ := List.cons.inj heq
    exact mem_letter_mul.2 ⟨b, _, rfl, ha, hL h ht⟩

theorem mul (hK : Closed R K) (hM : Closed R M) (hstarts : ∀ m ∈ M, Starts d m) :
    Closed R (K * M) := by
  rintro x e q y h ⟨k, hk, m, hm, heq⟩
  rcases append_cut (hR e q h).2 (hstarts m hm) heq.symm with ⟨t, rfl, rfl⟩ | ⟨t, rfl, rfl⟩
  · refine ⟨x ++ (q ++ t), hK h hk, m, hm, ?_⟩
    simp only [List.append_assoc]
  · refine ⟨k, hk, t ++ (q ++ y), hM h hm, ?_⟩
    simp only [List.append_assoc]

theorem kstar (hL : Closed R L) (hstarts : ∀ w ∈ L, Starts d w) : Closed R L∗ := by
  intro x e q y h hw
  obtain ⟨hne, hfree⟩ := hR e q h
  refine kstar_induction (P := fun w => ∀ x y, x ++ (e ++ y) = w → x ++ (q ++ y) ∈ L∗) ?_ ?_ hw
    x y rfl
  · intro x y hnil
    simp [hne] at hnil
  · intro u hu _ t ht ih x y heq
    rcases append_cut hfree (starts_kstar hstarts t ht) heq with ⟨s, rfl, rfl⟩ | ⟨s, rfl, rfl⟩
    · have hword := append_mem_kstar (hL h hu) ht
      simpa only [List.append_assoc] using hword
    · have hword := append_mem_kstar hu (ih s y rfl)
      simpa only [List.append_assoc] using hword

end Delimited

end Closed

/-- Repetitions split in front of a letter that only stands at the start of one. -/
theorem append_cons_mem_kstar (hL : ∀ x y, x ++ a :: y ∈ L → x = []) (h : x ++ a :: y ∈ L∗) :
    x ∈ L∗ ∧ a :: y ∈ L∗ := by
  refine kstar_induction (P := fun w => ∀ x y, x ++ a :: y = w → x ∈ L∗ ∧ a :: y ∈ L∗) ?_ ?_ h
    x y rfl
  · intro x y hnil
    simp at hnil
  · intro u hu _ t ht ih x y heq
    rcases List.append_eq_append_iff.1 heq with ⟨s, rfl, hs⟩ | ⟨s, rfl, rfl⟩
    · cases s with
      | nil =>
        rw [List.append_nil] at hu
        rw [List.nil_append] at hs
        rw [hs]
        exact ⟨(le_kstar : L ≤ L∗) hu, ht⟩
      | cons b s =>
        obtain ⟨rfl, rfl⟩ := List.cons.inj hs
        obtain rfl := hL x s hu
        exact ⟨Language.nil_mem_kstar L, append_mem_kstar hu ht⟩
    · obtain ⟨hs, hy⟩ := ih s y rfl
      exact ⟨append_mem_kstar hu hs, hy⟩

/-! ## Encoding letter by letter -/

/-- The words that an encoding brings into the language. -/
def encodedIn (f : α → List α) (L : Language α) : Language α := {w | w.flatMap f ∈ L}

section Encoding

variable {f : α → List α}

theorem encodedIn_mono (h : K ≤ L) : encodedIn f K ≤ encodedIn f L := fun _ hw => h hw

theorem mul_le_encodedIn (hK : K ≤ encodedIn f L) (hM : M ≤ encodedIn f W) :
    K * M ≤ encodedIn f (L * W) := by
  rintro _ ⟨x, hx, y, hy, rfl⟩
  change (x ++ y).flatMap f ∈ L * W
  rw [List.flatMap_append]
  exact Language.append_mem_mul (hK hx) (hM hy)

theorem isSubmonoid_encodedIn (hL : IsSubmonoid L) : IsSubmonoid (encodedIn f L) where
  one_le := by
    rintro w rfl
    exact hL.one_le rfl
  mul_le := (mul_le_encodedIn le_rfl le_rfl).trans (encodedIn_mono hL.mul_le)

theorem kstar_le_encodedIn (h : L ≤ encodedIn f M∗) : L∗ ≤ encodedIn f M∗ :=
  (isSubmonoid_encodedIn (isSubmonoid_kstar M)).kstar h

theorem optional_le_encodedIn (h : L ≤ encodedIn f M) : optional L ≤ encodedIn f (optional M) := by
  rintro w (rfl | hw)
  · exact .inl rfl
  · exact .inr (h hw)

end Encoding

end Words
