import FastJsonSchema.Table.LastWrite
import Mathlib.Data.List.Perm.Basic

/-!
# Tables with the same keys

Two tables with distinct keys, the same ones in any order, and with related entries under each key
(`SameKeys`). Looking up a key, and asking for all or for some of the entries, does not tell them
apart.
-/

namespace Table

theorem mem_of_lookup {K β : Type*} [BEq K] [LawfulBEq K] {m : List (K × β)} {k : K} {p : β}
    (h : m.lookup k = some p) : (k, p) ∈ m := by
  obtain ⟨l₁, l₂, rfl, -⟩ := List.lookup_eq_some_iff.1 h
  simp

/-- The only entry of a key does not depend on the order of the table. -/
theorem lookup_eq_of_mem_iff {K β : Type*} [BEq K] [LawfulBEq K] {m m' : List (K × β)} {k : K}
    (hmem : ∀ e, e ∈ m ↔ e ∈ m') (hk : ∀ p q, (k, p) ∈ m → (k, q) ∈ m → p = q) :
    m.lookup k = m'.lookup k := by
  have hnone : m.lookup k = none ↔ m'.lookup k = none := by
    simp only [lookup_eq_none_iff, List.mem_map, hmem]
  cases hp : m.lookup k with
  | none => exact (hnone.1 hp).symm
  | some p =>
    cases hq : m'.lookup k with
    | none => exact absurd (hnone.2 hq) (by simp [hp])
    | some q => rw [hk p q (mem_of_lookup hp) ((hmem _).2 (mem_of_lookup hq))]

section Entries

variable {K β γ : Type*} {R : β → γ → Prop} {m : List (K × β)} {m' : List (K × γ)}
  (h : List.Forall₂ (fun e e' => e.1 = e'.1 ∧ R e.2 e'.2) m m')

include h

theorem keys_eq_of_forall₂ : m.map (·.1) = m'.map (·.1) := by
  induction h with
  | nil => rfl
  | cons he _ ih => rw [List.map_cons, List.map_cons, he.1, ih]

theorem exists_left_of_forall₂ {k : K} {q : γ} (hq : (k, q) ∈ m') : ∃ p, (k, p) ∈ m ∧ R p q := by
  induction h with
  | nil => exact absurd hq List.not_mem_nil
  | @cons e e' m m' he _ ih =>
    obtain ⟨k', p⟩ := e
    rcases List.mem_cons.1 hq with rfl | hq
    · obtain ⟨rfl, hpq⟩ := he
      exact ⟨p, List.mem_cons_self, hpq⟩
    · obtain ⟨p, hp, hpq⟩ := ih hq
      exact ⟨p, List.mem_cons_of_mem _ hp, hpq⟩

end Entries

/-- Two tables with the same distinct keys and related entries. -/
structure SameKeys {K β γ : Type*} (R : β → γ → Prop) (m : List (K × β)) (m' : List (K × γ)) :
    Prop where
  nodup : (m.map (·.1)).Nodup
  perm : (m.map (·.1)).Perm (m'.map (·.1))
  rel : ∀ k p q, (k, p) ∈ m → (k, q) ∈ m' → R p q

namespace SameKeys

variable {K β β' γ γ' : Type*} {R : β → γ → Prop} {m : List (K × β)} {m' : List (K × γ)}

theorem map {S : β' → γ' → Prop} {f : β → β'} {g : γ → γ'} (h : SameKeys R m m')
    (hfg : ∀ e ∈ m, ∀ e' ∈ m', R e.2 e'.2 → S (f e.2) (g e'.2)) :
    SameKeys S (m.map fun e => (e.1, f e.2)) (m'.map fun e => (e.1, g e.2)) where
  nodup := by simpa [Function.comp_def] using h.nodup
  perm := by simpa [Function.comp_def] using h.perm
  rel k p q hp hq := by
    obtain ⟨e, he, heq⟩ := List.mem_map.1 hp
    obtain ⟨e', he', heq'⟩ := List.mem_map.1 hq
    obtain ⟨rfl, rfl⟩ := Prod.mk.inj heq
    obtain ⟨hk, rfl⟩ := Prod.mk.inj heq'
    exact hfg e he e' he' (h.rel e.1 e.2 e'.2 he (hk ▸ he'))

/-- Tables related, entry by entry, to two tables with the same keys. -/
theorem conj {S : β → β' → Prop} {S' : γ → γ' → Prop} {l : List (K × β')} {l' : List (K × γ')}
    (h : SameKeys R m m') (hl : List.Forall₂ (fun e e' => e.1 = e'.1 ∧ S e.2 e'.2) m l)
    (hl' : List.Forall₂ (fun e e' => e.1 = e'.1 ∧ S' e.2 e'.2) m' l') :
    SameKeys (fun x y => ∃ p q, S p x ∧ R p q ∧ S' q y) l l' := by
  have hkeys := keys_eq_of_forall₂ hl
  have hkeys' := keys_eq_of_forall₂ hl'
  refine ⟨hkeys ▸ h.nodup, hkeys ▸ hkeys' ▸ h.perm, fun k x y hx hy => ?_⟩
  obtain ⟨p, hp, hpx⟩ := exists_left_of_forall₂ hl hx
  obtain ⟨q, hq, hqy⟩ := exists_left_of_forall₂ hl' hy
  exact ⟨p, q, hpx, h.rel k p q hp hq, hqy⟩

variable (h : SameKeys R m m')

include h

theorem symm : SameKeys (fun q p => R p q) m' m :=
  ⟨h.perm.nodup_iff.1 h.nodup, h.perm.symm, fun k q p hq hp => h.rel k p q hp hq⟩

theorem exists_right {k : K} {p : β} (hp : (k, p) ∈ m) : ∃ q, (k, q) ∈ m' ∧ R p q := by
  obtain ⟨⟨k', q⟩, hq, rfl⟩ := List.mem_map.1
    (h.perm.mem_iff.1 (List.mem_map_of_mem (f := Prod.fst) hp))
  exact ⟨q, hq, h.rel _ p q hp hq⟩

/-- What holds of all entries of one holds of all entries of the other. -/
theorem all_eq {f : K × β → Bool} {g : K × γ → Bool}
    (hfg : ∀ k p q, (k, p) ∈ m → R p q → f (k, p) = g (k, q)) : m.all f = m'.all g := by
  rw [Bool.eq_iff_iff, List.all_eq_true, List.all_eq_true]
  constructor
  · rintro hall ⟨k, q⟩ hq
    obtain ⟨p, hp, hr⟩ := h.symm.exists_right hq
    rw [← hfg k p q hp hr]
    exact hall _ hp
  · rintro hall ⟨k, p⟩ hp
    obtain ⟨q, hq, hr⟩ := h.exists_right hp
    rw [hfg k p q hp hr]
    exact hall _ hq

/-- The entry of a key. -/
theorem lookup [BEq K] [LawfulBEq K] (k : K) : Option.Rel R (m.lookup k) (m'.lookup k) := by
  have hkeys : m.lookup k = none ↔ m'.lookup k = none := by
    rw [lookup_eq_none_iff, lookup_eq_none_iff, h.perm.mem_iff]
  cases hp : m.lookup k with
  | some p =>
    obtain ⟨q, hq⟩ := Option.ne_none_iff_exists'.1 (fun hq => by rw [hkeys.2 hq] at hp; cases hp)
    rw [hq]
    exact .some (h.rel k p q (mem_of_lookup hp) (mem_of_lookup hq))
  | none =>
    rw [hkeys.1 hp]
    exact .none

end SameKeys

end Table
