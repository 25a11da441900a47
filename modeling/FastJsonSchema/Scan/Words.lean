import Mathlib.Computability.Language
import Mathlib.InformationTheory.Coding.UniquelyDecodable
import Mathlib.Order.CompletePartialOrder
import Mathlib.Order.ConditionallyCompleteLattice.Basic
import Mathlib.Tactic.Common

/-!
# Grammars as languages

The rules of a grammar as Mathlib languages: one letter of a class (`letter`), a rule that may be
left out (`optional`), and the words over a class of letters (`within`).

* A language that contains the empty word and is closed under appending (`IsSubmonoid`) contains
  what is built from its parts; the words over a class are one.
* Restricting a language to a class of letters distributes over the operations (`inf_within_mul`,
  `inf_within_kstar`).
* A word splits in one way into a part without a delimiter and a part that starts with one
  (`append_inj_of_free`), so a product of languages that are separated by a delimiter is decided on
  that split (`append_mem_mul_iff`).
* A language where no word goes on from another one is a code (`uniquelyDecodable`).
-/

namespace Words

open scoped Computability

variable {α : Type} {p q : α → Bool} {a b : α} {w x y x' y' : List α} {K L M W : Language α}

/-- The words of one letter of a class. -/
def letter (p : α → Bool) : Language α := {w | ∃ a, w = [a] ∧ p a}

/-- The words over a class of letters. -/
def within (p : α → Bool) : Language α := {w | ∀ a ∈ w, p a}

/-- The words of a language, or none. -/
def optional (L : Language α) : Language α := 1 + L

/-- The words of at least `m` and at most `n` letters. -/
def ofLength (m n : ℕ) : Language α := {w | m ≤ w.length ∧ w.length ≤ n}

/-- One or more words of a language. -/
def many1 (L : Language α) : Language α := L * L∗

theorem mem_letter : w ∈ letter p ↔ ∃ a, w = [a] ∧ p a := Iff.rfl

theorem mem_within : w ∈ within p ↔ ∀ a ∈ w, p a := Iff.rfl

theorem mem_optional : w ∈ optional L ↔ w = [] ∨ w ∈ L := by
  rw [optional, Language.mem_add, Language.mem_one]

@[simp] theorem cons_mem_letter : a :: w ∈ letter p ↔ w = [] ∧ p a := by
  constructor
  · rintro ⟨b, h, hb⟩
    obtain ⟨rfl, rfl⟩ := List.cons.inj h
    exact ⟨rfl, hb⟩
  · rintro ⟨rfl, ha⟩
    exact ⟨a, rfl, ha⟩

theorem singleton_mem_letter : [a] ∈ letter p ↔ p a := by
  simp

@[simp] theorem mem_singleton_language : w ∈ ({x} : Language α) ↔ w = x := Iff.rfl

theorem mem_letter_mul : w ∈ letter p * L ↔ ∃ a t, w = a :: t ∧ p a ∧ t ∈ L := by
  rw [Language.mem_mul]
  constructor
  · rintro ⟨_, ⟨a, rfl, ha⟩, t, ht, rfl⟩
    exact ⟨a, t, rfl, ha, ht⟩
  · rintro ⟨a, t, rfl, ha, ht⟩
    exact ⟨[a], ⟨a, rfl, ha⟩, t, ht, rfl⟩

@[simp] theorem cons_mem_letter_mul : a :: w ∈ letter p * L ↔ p a ∧ w ∈ L := by
  rw [mem_letter_mul]
  constructor
  · rintro ⟨b, t, h, hb, ht⟩
    obtain ⟨rfl, rfl⟩ := List.cons.inj h
    exact ⟨hb, ht⟩
  · rintro ⟨ha, hw⟩
    exact ⟨a, w, rfl, ha, hw⟩

@[simp] theorem nil_notMem_letter_mul : [] ∉ letter p * L := by
  simp [mem_letter_mul]

@[simp] theorem nil_notMem_letter : [] ∉ letter p := by
  simp [mem_letter]

theorem nil_mem_mul : [] ∈ K * M ↔ [] ∈ K ∧ [] ∈ M := by
  rw [Language.mem_mul]
  constructor
  · rintro ⟨k, hk, m, hm, h⟩
    obtain ⟨rfl, rfl⟩ := List.append_eq_nil_iff.1 h
    exact ⟨hk, hm⟩
  · rintro ⟨hk, hm⟩
    exact ⟨[], hk, [], hm, rfl⟩

theorem length_le_of_mem_mul {i j : ℕ} (hK : ∀ k ∈ K, k.length ≤ i) (hM : ∀ m ∈ M, m.length ≤ j) :
    ∀ w ∈ K * M, w.length ≤ i + j := by
  rintro _ ⟨k, hk, m, hm, rfl⟩
  rw [List.length_append]
  exact Nat.add_le_add (hK k hk) (hM m hm)

theorem mem_optional_mul : w ∈ optional K * M ↔ w ∈ M ∨ w ∈ K * M := by
  rw [optional, add_mul, one_mul, Language.mem_add]

theorem mem_mul_optional : w ∈ K * optional M ↔ w ∈ K ∨ w ∈ K * M := by
  rw [optional, mul_add, mul_one, Language.mem_add]

/-- A word of repetitions is empty, or a first repetition with letters and the others. -/
theorem mem_kstar_iff : w ∈ L∗ ↔ w = [] ∨ ∃ u ∈ L, u ≠ [] ∧ ∃ t ∈ L∗, w = u ++ t := by
  constructor
  · rw [Language.mem_kstar_iff_exists_nonempty]
    rintro ⟨ws, rfl, hws⟩
    cases ws with
    | nil => exact .inl rfl
    | cons u ws =>
      obtain ⟨⟨hu, hne⟩, hws⟩ := List.forall_mem_cons.1 hws
      exact .inr ⟨u, hu, hne, _, Language.join_mem_kstar fun v hv => (hws v hv).1, rfl⟩
  · rintro (rfl | ⟨u, hu, -, t, ht, rfl⟩)
    · exact Language.nil_mem_kstar L
    · rw [← Language.one_add_self_mul_kstar_eq_kstar]
      exact .inr (Language.append_mem_mul hu ht)

theorem append_mem_kstar (hx : x ∈ L) (hy : y ∈ L∗) : x ++ y ∈ L∗ := by
  rw [← Language.one_add_self_mul_kstar_eq_kstar]
  exact .inr (Language.append_mem_mul hx hy)

theorem append_mem_kstar_right (hx : x ∈ L∗) (hy : y ∈ L) : x ++ y ∈ L∗ := by
  rw [← Language.one_add_kstar_mul_self_eq_kstar]
  exact .inr (Language.append_mem_mul hx hy)

/-- Induction over the repetitions, the first one outside. -/
theorem kstar_induction {P : List α → Prop} (nil : P [])
    (append : ∀ u ∈ L, u ≠ [] → ∀ t ∈ L∗, P t → P (u ++ t)) (hw : w ∈ L∗) : P w := by
  obtain ⟨ws, rfl, hws⟩ := Language.mem_kstar_iff_exists_nonempty.1 hw
  clear hw
  induction ws with
  | nil => exact nil
  | cons u ws ih =>
    obtain ⟨⟨hu, hne⟩, hws⟩ := List.forall_mem_cons.1 hws
    have ht : ws.flatten ∈ L∗ := Language.join_mem_kstar fun v hv => (hws v hv).1
    exact append u hu hne _ ht (ih hws)

/-- A first repetition is taken off where no other word could be taken. -/
theorem append_mem_kstar_iff {r : List α} (hx : x ∈ L)
    (huniq : ∀ v ∈ L, v ≠ [] → ∀ z ∈ L∗, x ++ r = v ++ z → v = x) :
    x ++ r ∈ L∗ ↔ r ∈ L∗ := by
  constructor
  · intro hall
    rcases mem_kstar_iff.1 hall with hnil | ⟨v, hv, hne, t, ht, heq⟩
    · rw [(List.append_eq_nil_iff.1 hnil).2]
      exact Language.nil_mem_kstar L
    · obtain rfl := huniq v hv hne t ht heq
      rwa [List.append_cancel_left heq]
  · exact append_mem_kstar hx

/-- A language is a code where no word goes on from another one. -/
theorem uniquelyDecodable (hnil : ∀ u ∈ L, u ≠ [])
    (huniq : ∀ u ∈ L, ∀ v ∈ L, ∀ y z, u ++ y = v ++ z → u = v) :
    InformationTheory.UniquelyDecodable L := by
  intro us vs hus hvs heq
  induction us generalizing vs with
  | nil =>
    cases vs with
    | nil => rfl
    | cons v vs =>
      have hv : v = [] := (List.append_eq_nil_iff.1 heq.symm).1
      exact absurd hv (hnil v (hvs v List.mem_cons_self))
  | cons u us ih =>
    obtain ⟨hu, hus⟩ := List.forall_mem_cons.1 hus
    cases vs with
    | nil =>
      have hu' : u = [] := (List.append_eq_nil_iff.1 heq).1
      exact absurd hu' (hnil u hu)
    | cons v vs =>
      obtain ⟨hv, hrest⟩ := List.forall_mem_cons.1 hvs
      obtain rfl := huniq u hu v hv us.flatten vs.flatten heq
      rw [ih vs hus hrest (List.append_cancel_left heq)]

theorem letter_or : letter (fun a => p a || q a) = letter p + letter q := by
  ext w
  simp only [Language.mem_add, mem_letter, Bool.or_eq_true]
  constructor
  · rintro ⟨a, rfl, ha | ha⟩
    · exact .inl ⟨a, rfl, ha⟩
    · exact .inr ⟨a, rfl, ha⟩
  · rintro (⟨a, rfl, ha⟩ | ⟨a, rfl, ha⟩)
    · exact ⟨a, rfl, .inl ha⟩
    · exact ⟨a, rfl, .inr ha⟩

/-- Words of a language with a letter between them. -/
theorem mem_mul_kstar_iff {D : Language α} (hD : ∀ v, v ∈ D ↔ v = [a]) :
    w ∈ L * (D * L)∗ ↔ ∃ ls, ls ≠ [] ∧ (∀ l ∈ ls, l ∈ L) ∧ w = [a].intercalate ls := by
  constructor
  · rintro ⟨l, hl, t, ht, rfl⟩
    suffices htail : ∃ ls, (∀ l ∈ ls, l ∈ L) ∧ ∀ l, l ++ t = [a].intercalate (l :: ls) by
      obtain ⟨ls, hls, heq⟩ := htail
      exact ⟨l :: ls, by simp, List.forall_mem_cons.2 ⟨hl, hls⟩, heq l⟩
    refine kstar_induction (P := fun t => ∃ ls, (∀ l ∈ ls, l ∈ L) ∧
      ∀ l, l ++ t = [a].intercalate (l :: ls)) ⟨[], by simp, by simp⟩ ?_ ht
    rintro _ ⟨d, hd, m, hm, rfl⟩ - t - ⟨ls, hls, heq⟩
    obtain rfl := (hD d).1 hd
    refine ⟨m :: ls, List.forall_mem_cons.2 ⟨hm, hls⟩, fun l => ?_⟩
    rw [List.intercalate_cons_cons, ← heq m]
    simp
  · rintro ⟨ls, hne, hls, rfl⟩
    obtain ⟨l, ls, rfl⟩ := List.exists_cons_of_ne_nil hne
    clear hne
    induction ls generalizing l with
    | nil =>
      rw [List.intercalate_singleton]
      exact ⟨l, hls l List.mem_cons_self, [], Language.nil_mem_kstar _, List.append_nil l⟩
    | cons m ls ih =>
      have ⟨hl, hls⟩ := List.forall_mem_cons.1 hls
      obtain ⟨m', hm', t, ht, heq⟩ := ih m hls
      have heq : m' ++ t = [a].intercalate (m :: ls) := heq
      refine ⟨l, hl, [a] ++ m' ++ t, ?_, ?_⟩
      · exact append_mem_kstar (Language.append_mem_mul ((hD _).2 rfl) hm') ht
      · simp [List.intercalate_cons_cons, ← heq]

/-! ## Languages closed under appending -/

/-- The language contains the empty word and is closed under appending. -/
structure IsSubmonoid (W : Language α) : Prop where
  one_le : 1 ≤ W
  mul_le : W * W ≤ W

namespace IsSubmonoid

variable (hW : IsSubmonoid W)

include hW

theorem mul (hK : K ≤ W) (hM : M ≤ W) : K * M ≤ W :=
  (mul_le_mul' hK hM).trans hW.mul_le

theorem kstar (hL : L ≤ W) : L∗ ≤ W := by
  intro w hw
  refine kstar_induction (hW.one_le rfl) (fun u hu _ t _ ht => ?_) hw
  exact hW.mul_le (Language.append_mem_mul (hL hu) ht)

theorem many1 (hL : L ≤ W) : many1 L ≤ W := hW.mul hL (hW.kstar hL)

theorem optional (hL : L ≤ W) : optional L ≤ W := by
  rintro w (hw | hw)
  · exact hW.one_le hw
  · exact hL hw

end IsSubmonoid

theorem isSubmonoid_kstar (L : Language α) : IsSubmonoid L∗ :=
  ⟨one_le_kstar, (kstar_mul_kstar L).le⟩

theorem isSubmonoid_within (p : α → Bool) : IsSubmonoid (within p) where
  one_le := by
    rintro w rfl a ha
    exact absurd ha List.not_mem_nil
  mul_le := by
    rintro w ⟨x, hx, y, hy, rfl⟩ a ha
    rcases List.mem_append.1 ha with ha | ha
    · exact hx a ha
    · exact hy a ha

theorem letter_le_within (h : ∀ a, p a → q a) : letter p ≤ within q := by
  rintro w ⟨a, rfl, ha⟩ b hb
  obtain rfl := List.mem_singleton.1 hb
  exact h _ ha

theorem kstar_letter : (letter p)∗ = within p := by
  ext w
  constructor
  · intro hw
    exact (isSubmonoid_within p).kstar (letter_le_within fun _ h => h) hw
  · intro hw
    induction w with
    | nil => exact Language.nil_mem_kstar _
    | cons a w ih =>
      obtain ⟨ha, hw⟩ := List.forall_mem_cons.1 hw
      exact append_mem_kstar (x := [a]) (singleton_mem_letter.2 ha) (ih hw)

theorem within_mono (h : ∀ a, p a = true → q a = true) : within p ≤ within q :=
  fun _ hw a ha => h a (hw a ha)

theorem mem_many1_iff (hL : ∀ w ∈ L, w ≠ []) : w ∈ many1 L ↔ w ∈ L∗ ∧ w ≠ [] := by
  constructor
  · rintro ⟨x, hx, y, hy, rfl⟩
    exact ⟨append_mem_kstar hx hy, fun h => hL x hx (List.append_eq_nil_iff.1 h).1⟩
  · rintro ⟨hw, hne⟩
    rcases mem_kstar_iff.1 hw with rfl | ⟨x, hx, -, y, hy, rfl⟩
    · exact absurd rfl hne
    · exact ⟨x, hx, y, hy, rfl⟩

theorem mem_many1_letter : w ∈ many1 (letter p) ↔ w ≠ [] ∧ ∀ a ∈ w, p a = true := by
  have hne : ∀ v ∈ letter p, v ≠ [] := by
    rintro v ⟨a, rfl, -⟩
    simp
  rw [mem_many1_iff hne, kstar_letter, mem_within, and_comm]

/-! ## Restriction to a class of letters -/

theorem inf_within_of_le (h : L ≤ within p) : L ⊓ within p = L := inf_eq_left.2 h

theorem inf_within_add : (K + M) ⊓ within p = K ⊓ within p + M ⊓ within p := by
  ext w
  simp only [Language.mem_inf, Language.mem_add]
  tauto

theorem inf_within_mul : (K * M) ⊓ within p = (K ⊓ within p) * (M ⊓ within p) := by
  ext w
  constructor
  · rintro ⟨⟨x, hx, y, hy, rfl⟩, hp⟩
    have hp := List.forall_mem_append.1 hp
    exact ⟨x, ⟨hx, hp.1⟩, y, ⟨hy, hp.2⟩, rfl⟩
  · rintro ⟨x, ⟨hx, hpx⟩, y, ⟨hy, hpy⟩, rfl⟩
    exact ⟨⟨x, hx, y, hy, rfl⟩, List.forall_mem_append.2 ⟨hpx, hpy⟩⟩

theorem inf_within_kstar : L∗ ⊓ within p = (L ⊓ within p)∗ := by
  apply le_antisymm
  · rintro w ⟨hw, hp⟩
    refine kstar_induction (P := fun w => w ∈ within p → w ∈ (L ⊓ within p)∗)
      (fun _ => Language.nil_mem_kstar _) (fun u hu _ t _ ih hp => ?_) hw hp
    obtain ⟨hpu, hpt⟩ := List.forall_mem_append.1 hp
    exact append_mem_kstar ⟨hu, hpu⟩ (ih hpt)
  · exact le_inf (kstar_mono inf_le_left) ((isSubmonoid_within p).kstar inf_le_right)

theorem inf_within_optional : optional L ⊓ within p = optional (L ⊓ within p) := by
  rw [optional, inf_within_add, inf_within_of_le (isSubmonoid_within p).one_le, optional]

theorem inf_within_sub : (K - M) ⊓ within p = K ⊓ within p - M := by
  ext w
  simp only [Language.mem_inf, Language.mem_sub]
  tauto

/-! ## Splitting at a delimiter -/

/-- The word has no letter of the class. -/
def Free (d : α → Bool) (w : List α) : Prop := ∀ a ∈ w, d a = false

/-- The word is empty or starts with a letter of the class. -/
def Starts (d : α → Bool) (w : List α) : Prop := ∀ a ∈ w.head?, d a = true

variable {d e : α → Bool}

@[simp] theorem free_nil : Free d [] := fun _ h => absurd h List.not_mem_nil

@[simp] theorem free_cons : Free d (a :: w) ↔ d a = false ∧ Free d w := List.forall_mem_cons

@[simp] theorem free_append : Free d (x ++ y) ↔ Free d x ∧ Free d y := List.forall_mem_append

@[simp] theorem starts_nil : Starts d ([] : List α) := by
  simp [Starts]

@[simp] theorem starts_cons : Starts d (a :: w) ↔ d a = true := by
  simp [Starts]

theorem Free.mono (h : Free d w) (hde : ∀ a, e a = true → d a = true) : Free e w := by
  intro a ha
  have := h a ha
  cases he : e a with
  | false => rfl
  | true => rw [hde a he] at this; exact this

theorem free_of_le (hL : L ≤ within q) (hq : ∀ a, q a → d a = false) (hw : w ∈ L) : Free d w :=
  fun a ha => hq a (hL hw a ha)

/-- The part of a word before the first letter of the class, and the rest. -/
theorem exists_split (d : α → Bool) (w : List α) :
    ∃ x y, w = x ++ y ∧ Free d x ∧ Starts d y := by
  induction w with
  | nil => exact ⟨[], [], rfl, free_nil, starts_nil⟩
  | cons a w ih =>
    cases ha : d a with
    | true => exact ⟨[], a :: w, rfl, free_nil, starts_cons.2 ha⟩
    | false =>
      obtain ⟨x, y, rfl, hx, hy⟩ := ih
      exact ⟨a :: x, y, rfl, free_cons.2 ⟨ha, hx⟩, hy⟩

theorem append_inj_of_free (hx : Free d x) (hy : Starts d y) (hx' : Free d x')
    (hy' : Starts d y') (h : x ++ y = x' ++ y') : x = x' ∧ y = y' := by
  induction x generalizing x' with
  | nil =>
    cases x' with
    | nil => exact ⟨rfl, h⟩
    | cons a x' =>
      rw [List.nil_append] at h
      subst h
      simp [(free_cons.1 hx').1] at hy
  | cons a x ih =>
    cases x' with
    | nil =>
      rw [List.nil_append] at h
      subst h
      simp [(free_cons.1 hx).1] at hy'
    | cons b x' =>
      obtain ⟨rfl, htail⟩ := List.cons.inj h
      obtain ⟨rfl, rfl⟩ := ih (free_cons.1 hx).2 (free_cons.1 hx').2 htail
      exact ⟨rfl, rfl⟩

/-- A word without a delimiter does not go over the first one. -/
theorem exists_rest_of_free (hx : Free d x) (hy : Starts d y) (hw : Free d w)
    (h : x ++ y = w ++ y') : ∃ t, x = w ++ t ∧ y' = t ++ y := by
  rcases List.append_eq_append_iff.1 h with ⟨t, rfl, rfl⟩ | ⟨t, rfl, rfl⟩
  · cases t with
    | nil => exact ⟨[], by simp, rfl⟩
    | cons a t =>
      rw [List.cons_append, starts_cons] at hy
      simp [hw a (by simp)] at hy
  · exact ⟨t, rfl, rfl⟩

/-- A product whose first factor has no delimiter and whose second one starts with one is decided
at the first delimiter. -/
theorem append_mem_mul_iff (hx : Free d x) (hy : Starts d y) (hK : ∀ k ∈ K, Free d k)
    (hM : ∀ m ∈ M, Starts d m) : x ++ y ∈ K * M ↔ x ∈ K ∧ y ∈ M := by
  constructor
  · rintro ⟨k, hk, m, hm, h⟩
    obtain ⟨rfl, rfl⟩ := append_inj_of_free (hK k hk) (hM m hm) hx hy h
    exact ⟨hk, hm⟩
  · rintro ⟨hxK, hyM⟩
    exact Language.append_mem_mul hxK hyM

/-- A word of one or more letters of a class, cut at the first letter that is not of the class. -/
theorem append_mem_many1_letter_mul_iff (hx : ∀ a ∈ x, p a = true)
    (hy : Starts (fun a => !p a) y) (hL : ∀ m ∈ L, Starts (fun a => !p a) m) :
    x ++ y ∈ many1 (letter p) * L ↔ x ≠ [] ∧ y ∈ L := by
  have hfree : Free (fun a => !p a) x := fun a ha => by simp [hx a ha]
  rw [append_mem_mul_iff hfree hy ?_ hL, mem_many1_letter]
  · tauto
  · intro k hk a ha
    simp [(mem_many1_letter.1 hk).2 a ha]

theorem starts_optional_letter_mul : ∀ m ∈ optional (letter d * L), Starts d m := by
  rintro m (hm | hm)
  · rw [(hm : m = [])]
    exact starts_nil
  · obtain ⟨a, t, rfl, ha, -⟩ := mem_letter_mul.1 hm
    exact starts_cons.2 ha

theorem starts_kstar_letter_mul : ∀ m ∈ (letter d * L)∗, Starts d m := by
  intro m hm
  rcases mem_kstar_iff.1 hm with rfl | ⟨_, hu, -, t, -, rfl⟩
  · exact starts_nil
  · obtain ⟨a, t, rfl, ha, -⟩ := mem_letter_mul.1 hu
    exact starts_cons.2 ha

theorem takeWhile_of_free (hx : Free d x) (hy : Starts d y) :
    (x ++ y).takeWhile (fun a => !d a) = x := by
  rw [List.takeWhile_append_of_pos fun a ha => by simp [hx a ha]]
  cases y with
  | nil => simp
  | cons a y => simp [starts_cons.1 hy]

theorem findIdx?_of_free (hx : Free d x) : x.findIdx? d = none :=
  List.findIdx?_eq_none_iff.2 hx

theorem findIdx?_append_cons (hx : Free d x) (ha : d a = true) :
    (x ++ a :: y).findIdx? d = some x.length := by
  simp [List.findIdx?_append, findIdx?_of_free hx, List.findIdx?_cons, ha]

end Words
