import FastJsonSchema.Scan.Basic
import FastJsonSchema.Scan.Words

/-!
# Scanners that recognise languages

Three ways a scanner goes with a language:

* `Consumes f U F`: `f` reports the length of a word of `U` that its window starts with, or 0; it
  finds a given word of `U` when what follows has `F`;
* `Spans f L`: `f` reports the length of its whole window exactly when the window is in `L`;
* `Decides f L`: `f` answers whether its window is in `L`.

A loop over a scanner that consumes `U` (`many`) takes the longest repetition of `U`, so it spans
`U∗` (`Consumes.many_spans`).
-/

namespace Scan

open Words

open scoped Computability

variable {f : Bytes → Result ℕ} {g : Bytes → Result Bool} {U L M : Language UInt8}
  {F : Bytes → Prop} {s w x y : Bytes}

/-- The scanner reports the length of a word of `U` at the start of its window, or 0. -/
structure Consumes (f : Bytes → Result ℕ) (U : Language UInt8) (F : Bytes → Prop) : Prop where
  ends : ∀ w, w ≠ [] → Ends (f w) fun n => n = 0 ∨ ∃ x y, w = x ++ y ∧ x ∈ U ∧ n = x.length
  complete : ∀ x ∈ U, ∀ y, F y → f (x ++ y) = .ok x.length

/-- The scanner reports the length of its whole window exactly when the window is in `L`. -/
def Spans (f : Bytes → Result ℕ) (L : Language UInt8) : Prop :=
  ∀ w, Ends (f w) fun n => n ≤ w.length ∧ (n = w.length ↔ w ∈ L)

/-- The scanner answers whether its window is in `L`. -/
def Decides (f : Bytes → Result Bool) (L : Language UInt8) : Prop :=
  ∀ w, Ends (f w) fun b => b = true ↔ w ∈ L

/-- Nothing is left for the scanner to take. -/
def Stuck (f : Bytes → Result ℕ) (w : Bytes) : Prop := w = [] ∨ f w = .ok 0

theorem Decides.eq_ok (h : Decides g L) : g w = .ok true ↔ w ∈ L := by
  obtain ⟨b, hb, hiff⟩ := h w
  rw [hb, ← hiff, Except.ok.injEq]

namespace Consumes

variable (h : Consumes f U F)

include h

theorem le (w : Bytes) (hw : w ≠ []) : Ends (f w) fun n => n ≤ w.length := by
  refine (h.ends w hw).mono ?_
  rintro n (rfl | ⟨x, y, rfl, -, rfl⟩)
  · exact Nat.zero_le _
  · simp

/-- Any word that the scanner was to find at the start of its window is the one it took. -/
theorem eq_of_taken {v z : Bytes} (hn : f w = .ok x.length) (hx : w = x ++ y) (hv : v ∈ U)
    (hz : F z) (heq : w = v ++ z) : v = x := by
  have hlen := h.complete v hv z hz
  rw [← heq, hn, Except.ok.injEq] at hlen
  exact (List.append_inj (heq.symm.trans hx) hlen.symm).1

/-- Where it took nothing, there was no word to find. -/
theorem eq_nil_of_zero {v z : Bytes} (hn : f w = .ok 0) (hv : v ∈ U) (hz : F z)
    (heq : w = v ++ z) : v = [] :=
  h.eq_of_taken hn (List.nil_append w).symm hv hz heq

/-- Where nothing has to follow, two words at the start of one word are the same. -/
theorem eq_of_append_eq (hF : ∀ y, F y) (hx : x ∈ U) {v z : Bytes} (hv : v ∈ U)
    (heq : x ++ y = v ++ z) : v = x :=
  h.eq_of_taken (h.complete x hx y (hF y)) rfl hv (hF z) heq

/-- The words that the scanner takes are a code. -/
theorem uniquelyDecodable (hU : ∀ u ∈ U, u ≠ []) (hF : ∀ y, F y) :
    InformationTheory.UniquelyDecodable U :=
  Words.uniquelyDecodable hU fun _ hu _ hv _ _ heq => (h.eq_of_append_eq hF hu hv heq).symm

/-- What is taken by the rounds of a loop over the scanner. -/
theorem many_ends (s : Bytes) :
    ∃ x y, s = x ++ y ∧ x ∈ U∗ ∧ Stuck f y ∧ many f s = .ok x.length := by
  let I : ℕ → Prop := fun i => ∃ x y, s = x ++ y ∧ x ∈ U∗ ∧ i = x.length
  suffices hmany : Ends (many f s) fun i =>
      ∃ x y, s = x ++ y ∧ x ∈ U∗ ∧ Stuck f y ∧ i = x.length by
    obtain ⟨i, hi, x, y, hs, hx, hy, rfl⟩ := hmany
    exact ⟨x, y, hs, hx, hy, hi⟩
  refine Ends.loop (I := I) (fun i => s.length - i) ?_
    ⟨[], s, rfl, Language.nil_mem_kstar U, rfl⟩ (by omega)
  rintro i ⟨x, y, rfl, hx, rfl⟩
  cases hy : y with
  | nil => simpa [Round] using ⟨x, [], by simp, hx, .inl rfl, rfl⟩
  | cons c t =>
    rw [← hy]
    have hne : y ≠ [] := by simp [hy]
    have hlt : x.length < (x ++ y).length := by simp [hy]
    obtain ⟨n, hn, hcase⟩ := h.ends y hne
    obtain ⟨m, hm, hle⟩ := h.le y hne
    obtain rfl : m = n := by
      rw [hm] at hn
      exact Except.ok.inj hn
    rw [if_pos hlt, consume_eq (window_suffix rfl rfl) hm hle, ok_bind]
    rcases hcase with rfl | ⟨u, v, rfl, hu, rfl⟩
    · simpa [Round] using ⟨x, y, rfl, hx, .inr hm, rfl⟩
    · by_cases hzero : u.length = 0
      · rw [if_pos hzero]
        exact .ok ⟨x, u ++ v, rfl, hx, .inr (by rw [hm, hzero]), rfl⟩
      · rw [if_neg hzero]
        refine .ok ⟨⟨x ++ u, v, by simp, append_mem_kstar_right hx hu, by simp⟩, ?_⟩
        simp only [List.length_append] at hlt ⊢
        omega

theorem many_append (hU : ∀ u ∈ U, u ≠ []) (hF : ∀ u ∈ U, ∀ y, F (u ++ y)) (hx : x ∈ U∗)
    (hy : Stuck f y) (hFy : F y) : many f (x ++ y) = .ok x.length := by
  have hfollow : ∀ t ∈ U∗, F (t ++ y) := by
    intro t ht
    rcases mem_kstar_iff.1 ht with rfl | ⟨u, hu, -, t', -, rfl⟩
    · exact hFy
    · rw [List.append_assoc]
      exact hF u hu _
  -- the repetitions that are left
  let I : ℕ → Prop := fun i => ∃ a t, x = a ++ t ∧ t ∈ U∗ ∧ i = a.length
  suffices hmany : Ends (many f (x ++ y)) (· = x.length) by
    obtain ⟨i, hi, rfl⟩ := hmany
    exact hi
  refine Ends.loop (I := I) (fun i => (x ++ y).length - i) ?_ ⟨[], x, rfl, hx, rfl⟩ (by omega)
  rintro i ⟨a, t, rfl, ht, rfl⟩
  rw [List.append_assoc]
  rcases mem_kstar_iff.1 ht with rfl | ⟨u, hu, -, t', ht', rfl⟩
  · rcases hy with rfl | hy
    · simp [Round]
    · rw [List.nil_append]
      by_cases hlt : a.length < (a ++ y).length
      · rw [if_pos hlt, consume_eq (window_suffix rfl rfl) hy (Nat.zero_le _)]
        simp [Round]
      · rw [if_neg hlt]
        simp [Round]
  · have hpos : 0 < u.length := List.length_pos_iff.2 (hU u hu)
    have hlt : a.length < (a ++ (u ++ t' ++ y)).length := by simp; omega
    have htake : f (u ++ t' ++ y) = .ok u.length := by
      rw [List.append_assoc]
      exact h.complete u hu _ (hfollow t' ht')
    rw [if_pos hlt, consume_eq (window_suffix rfl rfl) htake (by simp), ok_bind,
      if_neg (by omega)]
    refine .ok ⟨⟨a ++ u, t', by simp, ht', by simp⟩, ?_⟩
    simp only [List.length_append] at hlt ⊢
    omega

theorem many_spans (hU : ∀ u ∈ U, u ≠ []) (hF : ∀ u ∈ U, ∀ y, F (u ++ y)) (hnil : F []) :
    Spans (many f) U∗ := by
  intro s
  obtain ⟨x, y, rfl, hx, -, hmany⟩ := h.many_ends s
  refine ⟨_, hmany, by simp, ?_⟩
  constructor
  · intro hlen
    obtain rfl : y = [] := by simpa using hlen
    simpa using hx
  · intro hs
    have hall := h.many_append hU hF hs (.inl rfl) hnil
    rw [List.append_nil, hmany] at hall
    exact Except.ok.inj hall

/-- What a loop over the scanner takes is found again in front of what stops it. -/
theorem append_inj (hU : ∀ u ∈ U, u ≠ []) (hF : ∀ y, F y) (hx : x ∈ U∗) (hy : Stuck f y)
    {v z : Bytes} (hv : v ∈ U∗) (hz : Stuck f z) (heq : x ++ y = v ++ z) : x = v ∧ y = z := by
  have hleft := h.many_append hU (fun _ _ _ => hF _) hx hy (hF y)
  have hright := h.many_append hU (fun _ _ _ => hF _) hv hz (hF z)
  rw [heq, hright, Except.ok.injEq] at hleft
  exact List.append_inj heq hleft.symm

/-- A loop over the scanner that fails where nothing is taken. -/
theorem every_ends (hU : ∀ u ∈ U, u ≠ []) (hF : ∀ y, F y) (a : Bytes) {t : Bytes} {i : ℕ}
    (hi : i = a.length) : Ends (every f (a ++ t) i) fun b => b = true ↔ t ∈ U∗ := by
  let I : ℕ → Prop := fun i => ∃ x y, t = x ++ y ∧ x ∈ U∗ ∧ i = (a ++ x).length
  refine Ends.loop (I := I) (fun i => (a ++ t).length - i) ?_
    ⟨[], t, rfl, Language.nil_mem_kstar U, by simp [hi]⟩ (by omega)
  rintro i ⟨x, y, rfl, hx, rfl⟩
  rw [← List.append_assoc]
  cases hy : y with
  | nil => simpa [Round] using hx
  | cons c r =>
    rw [← hy]
    have hne : y ≠ [] := by simp [hy]
    have hlt : (a ++ x).length < (a ++ x ++ y).length := by simp [hy]
    obtain ⟨n, hn, hcase⟩ := h.ends y hne
    have hle : n ≤ y.length := (h.le y hne).of_eq_ok hn
    rw [if_pos hlt, consume_eq (window_suffix rfl rfl) hn hle, ok_bind]
    refine .ite (fun hzero => ?_) fun hpos => ?_
    · refine .ok (iff_of_false Bool.false_ne_true fun hall => ?_)
      subst hzero
      have hsplit := h.append_inj hU hF hx (.inr hn) hall (.inl rfl) (List.append_nil _).symm
      exact hne hsplit.2
    · obtain ⟨u, v, rfl, hu, rfl⟩ := hcase.resolve_left hpos
      refine .ok ⟨⟨x ++ u, v, by simp, append_mem_kstar_right hx hu, ?_⟩, ?_⟩
      · simp only [List.length_append, Nat.add_assoc]
      · simp only [List.length_append] at hlt ⊢
        omega

theorem every_decides_kstar (hU : ∀ u ∈ U, u ≠ []) (hF : ∀ y, F y) :
    Decides (fun s => every f s 0) U∗ := fun _ => h.every_ends hU hF [] rfl

/-- A loop over the scanner up to a byte of a class that fails where nothing is taken. -/
theorem manyUntil_ends {p : UInt8 → Bool} (a t : Bytes) {i : ℕ} (hi : i = a.length) :
    Ends (manyUntil p f (a ++ t) i) fun o => ∃ x y, t = x ++ y ∧ x ∈ U∗ ∧
      ((o = some (i + x.length) ∧ Starts p y) ∨
        (o = none ∧ Stuck f y ∧ y.head?.any (fun c => !p c) = true)) := by
  let I : ℕ → Prop := fun j => ∃ x y, t = x ++ y ∧ x ∈ U∗ ∧ j = i + x.length
  refine Ends.loop (I := I) (fun j => (a ++ t).length - j) ?_
    ⟨[], t, rfl, Language.nil_mem_kstar U, rfl⟩ (by omega)
  rintro j ⟨x, y, rfl, hx, rfl⟩
  have hlen : i + x.length = (a ++ x).length := by rw [hi, List.length_append]
  rw [← List.append_assoc, peek_suffix hlen rfl, ok_bind]
  refine .ite (fun hcond => ?_) fun hcond => .ok ⟨x, y, rfl, hx, .inl ⟨rfl, ?_⟩⟩
  · have hne : y ≠ [] := by
      rintro rfl
      simp at hcond
    obtain ⟨n, hn, hcase⟩ := h.ends y hne
    have hle : n ≤ y.length := (h.le y hne).of_eq_ok hn
    rw [consume_eq (window_suffix hlen rfl) hn hle, ok_bind]
    refine .ite (fun hzero => ?_) fun hpos => ?_
    · subst hzero
      exact .ok ⟨x, y, rfl, hx, .inr ⟨rfl, .inr hn, hcond⟩⟩
    · obtain ⟨u, v, rfl, hu, rfl⟩ := hcase.resolve_left hpos
      refine .ok ⟨⟨x ++ u, v, by simp, append_mem_kstar_right hx hu, by simp [Nat.add_assoc]⟩, ?_⟩
      simp only [List.length_append] at hle hlen ⊢
      omega
  · cases y with
    | nil => exact starts_nil
    | cons c y => simpa using hcond

end Consumes

/-- A loop up to a byte of a class sees what the scanner does before other bytes only. -/
theorem manyUntil_congr {f' : Bytes → Result ℕ} {p : UInt8 → Bool}
    (h : ∀ c w, p c = false → f (c :: w) = f' (c :: w)) (s : Bytes) (i : ℕ) :
    manyUntil p f s i = manyUntil p f' s i := by
  unfold manyUntil
  congr 1
  funext i
  by_cases hi : i < s.length
  · have hwindow : window s i s.length = .ok (s[i] :: s.drop (i + 1)) := by
      rw [window_eq hi.le le_rfl, List.take_length, List.drop_eq_getElem_cons hi]
    cases hp : p s[i] with
    | true => simp [peek, byte_eq hi, hi, hp]
    | false =>
      have hconsume : consume f s i s.length = consume f' s i s.length := by
        rw [consume, consume, hwindow, ok_bind, ok_bind, h _ _ hp]
      rw [hconsume]
  · simp [peek, hi]

/-! ## A first item and the items after it -/

section Items

variable {K : Language UInt8} {G : Bytes → Prop} {body : Bytes → ℕ → Result (Step ℕ ℕ)}

/-- What a round over items does at `i` with the rest `t` of the window, where `G` holds of what may
follow an item and `F` of what may follow the last one: it takes the item that `t` starts with,
unless `t` itself may follow; where there is no item it stops, or it fails if `t` may not follow. -/
def ItemRound (U : Language UInt8) (G F : Bytes → Prop) (i : ℕ) (t : Bytes) : Step ℕ ℕ → Prop
  | .next j => ¬ F t ∧ ∃ u z, t = u ++ z ∧ u ∈ U ∧ u ≠ [] ∧ j = i + u.length ∧
      ∀ v ∈ U, ∀ r, G r → t = v ++ r → v = u
  | .done n => (∀ v ∈ U, v ≠ [] → ∀ r, G r → t ≠ v ++ r) ∧ (n = i ∨ n = 0 ∧ ¬ F t)

/-- The rounds over items, from `a` on. -/
theorem items_ends (hG : ∀ q ∈ U∗, ∀ y, F y → G (q ++ y))
    (hbody : ∀ b r, s = b ++ r → Ends (body s b.length) (ItemRound U G F b.length r))
    {a t : Bytes} (hs : s = a ++ t) : Ends (loop (body s) (s.length + 1) a.length) fun n =>
      (n = 0 ∨ ∃ x y, t = x ++ y ∧ x ∈ U∗ ∧ n = a.length + x.length) ∧
        ∀ x y, t = x ++ y → x ∈ U∗ → F y → n = a.length + x.length := by
  -- every repetition that something may follow goes on from what is taken so far
  let I : ℕ → Prop := fun i => ∃ x r, t = x ++ r ∧ x ∈ U∗ ∧ i = a.length + x.length ∧
    ∀ w y, t = w ++ y → w ∈ U∗ → F y → ∃ q ∈ U∗, w = x ++ q ∧ r = q ++ y
  refine Ends.loop (I := I) (fun i => s.length - i) ?_
    ⟨[], t, rfl, Language.nil_mem_kstar U, rfl, fun w y ht hw _ => ⟨w, hw, rfl, ht⟩⟩ (by omega)
  rintro i ⟨x, r, rfl, hx, rfl, hrest⟩
  rw [← List.append_assoc] at hs
  have hround := hbody (a ++ x) r hs
  rw [List.length_append] at hround
  refine hround.mono fun step hstep => ?_
  cases step with
  | next j =>
    obtain ⟨hF, u, z, rfl, hu, hne, rfl, huniq⟩ := hstep
    have hpos := List.length_pos_iff.2 hne
    have hlen := congrArg List.length hs
    simp only [List.length_append] at hlen
    refine ⟨⟨x ++ u, z, by simp, append_mem_kstar_right hx hu, by simp [Nat.add_assoc], ?_⟩, ?_⟩
    · intro w y ht hw hy
      obtain ⟨q, hq, rfl, heq⟩ := hrest w y ht hw hy
      rcases mem_kstar_iff.1 hq with rfl | ⟨v, hv, -, q', hq', rfl⟩
      · rw [List.nil_append] at heq
        exact absurd (heq ▸ hy) hF
      · obtain rfl := huniq v hv (q' ++ y) (hG q' hq' y hy) (by rw [heq, List.append_assoc])
        rw [List.append_assoc, List.append_cancel_left_eq] at heq
        exact ⟨q', hq', by simp, heq⟩
    · dsimp only
      omega
  | done n =>
    obtain ⟨hnone, hn⟩ := hstep
    constructor
    · rcases hn with rfl | ⟨rfl, -⟩
      · exact .inr ⟨x, r, rfl, hx, rfl⟩
      · exact .inl rfl
    · intro w y ht hw hy
      obtain ⟨q, hq, rfl, heq⟩ := hrest w y ht hw hy
      rcases mem_kstar_iff.1 hq with rfl | ⟨v, hv, hne, q', hq', rfl⟩
      · rw [List.nil_append] at heq
        subst heq
        rw [List.append_nil]
        exact hn.resolve_right fun h => h.2 hy
      · exact absurd (by rw [heq, List.append_assoc]) (hnone v hv hne (q' ++ y) (hG q' hq' y hy))

/-- A scanner of a first item with a loop over the items after it. -/
theorem Consumes.first_items {g : Bytes → Result ℕ} (hg : Consumes g K G)
    (hK : ∀ k ∈ K, k ≠ []) (hG : ∀ q ∈ U∗, ∀ y, F y → G (q ++ y))
    (hf : ∀ w, f w = do
      let n ← g w
      if n = 0 then .ok 0 else loop (body w) (w.length + 1) n)
    (hbody : ∀ w b r, w = b ++ r → Ends (body w b.length) (ItemRound U G F b.length r)) :
    Consumes f (K * U∗) F where
  ends w hne := by
    obtain ⟨n, hn, hcase⟩ := hg.ends w hne
    rw [hf, hn, ok_bind]
    refine .ite (fun _ => .ok (.inl rfl)) fun hpos => ?_
    obtain ⟨k, t, rfl, hk, rfl⟩ := hcase.resolve_left hpos
    refine (items_ends hG (hbody _) rfl).mono ?_
    rintro m ⟨rfl | ⟨x, y, rfl, hx, rfl⟩, -⟩
    · exact .inl rfl
    · exact .inr ⟨k ++ x, y, by simp, Language.append_mem_mul hk hx, by simp⟩
  complete x hx y hy := by
    obtain ⟨k, hk, q, hq, rfl⟩ := hx
    have hn : g (k ++ (q ++ y)) = .ok k.length := hg.complete k hk _ (hG q hq y hy)
    have hpos : k.length ≠ 0 := fun h => hK k hk (List.length_eq_zero_iff.1 h)
    obtain ⟨m, hm, -, hall⟩ := items_ends hG (hbody (k ++ (q ++ y))) rfl
    show f (k ++ q ++ y) = .ok (k ++ q).length
    rw [List.append_assoc, hf, hn, ok_bind, if_neg hpos, hm, hall q y rfl hq hy, List.length_append]

end Items

/-- A loop that fails where nothing is taken, over a scanner that takes words off a language. -/
theorem every_decides (hnil : [] ∈ L) (hf : ∀ w, w ≠ [] → Ends (f w) fun n =>
      (n = 0 ∧ w ∉ L) ∨ ∃ x y, w = x ++ y ∧ x ≠ [] ∧ n = x.length ∧ (w ∈ L ↔ y ∈ L)) :
    Decides (fun s => every f s 0) L := by
  intro s
  let I : ℕ → Prop := fun i => ∃ a t, s = a ++ t ∧ i = a.length ∧ (s ∈ L ↔ t ∈ L)
  refine Ends.loop (I := I) (fun i => s.length - i) ?_ ⟨[], s, rfl, rfl, Iff.rfl⟩ (by omega)
  rintro i ⟨a, t, rfl, rfl, hiff⟩
  refine .ite (fun hlt => ?_) fun hend => .ok ?_
  · have hne : t ≠ [] := by
      rintro rfl
      simp at hlt
    obtain ⟨n, hn, hcase⟩ := hf t hne
    have hle : n ≤ t.length := by
      rcases hcase with ⟨rfl, -⟩ | ⟨x, y, rfl, -, rfl, -⟩
      · exact Nat.zero_le _
      · simp
    rw [consume_eq (window_suffix rfl rfl) hn hle, ok_bind]
    rcases hcase with ⟨rfl, hnot⟩ | ⟨x, y, rfl, hx, rfl, hrest⟩
    · rw [if_pos rfl]
      exact .ok (iff_of_false Bool.false_ne_true fun hall => hnot (hiff.1 hall))
    · have hpos := List.length_pos_iff.2 hx
      rw [if_neg hpos.ne']
      refine .ok ⟨⟨a ++ x, y, by simp, by simp, hiff.trans hrest⟩, ?_⟩
      simp only [List.length_append] at hlt ⊢
      omega
  · obtain rfl : t = [] := by
      rw [List.length_append] at hend
      exact List.length_eq_zero_iff.1 (by omega)
    exact iff_of_true rfl (hiff.2 hnil)

/-! ## Scanners that stay within their window -/

/-- The scanner reports at most the bytes of its window. -/
def Bounded (f : Bytes → Result ℕ) : Prop := ∀ w, w ≠ [] → Ends (f w) fun n => n ≤ w.length

theorem Consumes.bounded (h : Consumes f U F) : Bounded f := h.le

theorem consume_suffix_ends {i : ℕ} (hi : i ≤ s.length)
    (h : Ends (f (s.drop i)) fun n => n ≤ (s.drop i).length) :
    Ends (consume f s i s.length) fun n => i + n ≤ s.length := by
  have hwindow : window s i s.length = .ok (s.drop i) := by
    rw [window_eq hi le_rfl, List.take_length]
  obtain ⟨n, hn, hle⟩ := h
  refine ⟨n, consume_eq hwindow hn hle, ?_⟩
  rw [List.length_drop] at hle
  omega

namespace Bounded

variable (h : Bounded f)

include h

/-- A call of the scanner at `i`. -/
theorem consume_ends {i : ℕ} (hi : i < s.length) :
    Ends (consume f s i s.length) fun n => i + n ≤ s.length :=
  consume_suffix_ends hi.le (h _ (by simpa using hi))

theorem every_ends (s : Bytes) {i : ℕ} (hi : i ≤ s.length) :
    Ends (every f s i) fun _ => True := by
  refine Ends.loop (I := fun i => i ≤ s.length) (fun i => s.length - i) ?_ hi (by omega)
  intro i hi
  refine .ite (fun hlt => (h.consume_ends hlt).bind fun n hn => ?_) fun _ => .ok trivial
  refine .ite (fun _ => .ok trivial) fun hpos => .ok ⟨hn, ?_⟩
  dsimp only
  omega

theorem manyUntil_ends {p : UInt8 → Bool} (s : Bytes) {i : ℕ} (hi : i ≤ s.length) :
    Ends (manyUntil p f s i) fun o => ∀ j ∈ o, i ≤ j ∧ j ≤ s.length := by
  refine Ends.loop (I := fun j => i ≤ j ∧ j ≤ s.length) (fun j => s.length - j) ?_ ⟨le_rfl, hi⟩
    (by omega)
  rintro j ⟨hij, hj⟩
  refine (peek_ends le_rfl).bind fun b hb => ?_
  refine .ite (fun hcond => ?_) fun _ => .ok fun k hk => ?_
  · have hlt : j < s.length := hb hcond
    refine (h.consume_ends hlt).bind fun n hn => ?_
    refine .ite (fun _ => .ok fun k hk => by cases hk) fun hpos => .ok ⟨⟨by omega, hn⟩, ?_⟩
    dsimp only
    omega
  · obtain rfl : j = k := Option.some.inj hk
    exact ⟨hij, hj⟩

end Bounded

/-! ## Scans up to a delimiter -/

variable {p : UInt8 → Bool} {a b z : Bytes} {i j : ℕ}

/-- The word before the first byte that is not of the class, and the rest. -/
theorem exists_run (p : UInt8 → Bool) (w : Bytes) :
    ∃ x y, w = x ++ y ∧ (∀ c ∈ x, p c = true) ∧ Starts (fun c => !p c) y := by
  obtain ⟨x, y, rfl, hx, hy⟩ := exists_split (fun c => !p c) w
  exact ⟨x, y, rfl, fun c hc => by simpa using hx c hc, hy⟩

theorem skipWhile_run (hx : ∀ c ∈ x, p c = true) (hy : Starts (fun c => !p c) y)
    (hi : i = a.length) (hj : j = a.length + (x ++ y).length) :
    skipWhile p (a ++ (x ++ y ++ z)) i j = .ok (i + x.length) := by
  have hfree : Free (fun c => !p c) x := fun c hc => by simp [hx c hc]
  have htake : (x ++ y).takeWhile p = x := by simpa using takeWhile_of_free hfree hy
  rw [skipWhile_append hi hj, htake]

theorem skipWhile_run_end (hx : ∀ c ∈ x, p c = true) (hy : Starts (fun c => !p c) y)
    (hi : i = a.length) (hj : j = (a ++ (x ++ y)).length) :
    skipWhile p (a ++ (x ++ y)) i j = .ok (i + x.length) := by
  simpa using skipWhile_run (z := []) hx hy hi (hj.trans List.length_append)

theorem find_none (hx : Free p x) (hi : i = a.length) (hj : j = a.length + x.length) :
    find p (a ++ (x ++ z)) i j = .ok none := by
  rw [find_append hi hj, findIdx?_of_free hx]
  rfl

theorem find_some {c : UInt8} (hx : Free p x) (hc : p c = true) (hi : i = a.length)
    (hj : j = a.length + (x ++ c :: y).length) :
    find p (a ++ (x ++ c :: y ++ z)) i j = .ok (some (i + x.length)) := by
  rw [find_append hi hj, findIdx?_append_cons hx hc]
  rfl

/-- The place of the first byte of the class, or the end. -/
theorem find_split (hx : Free p x) (hy : Starts p y) (hi : i = a.length)
    (hj : j = a.length + (x ++ y).length) :
    ∃ r, find p (a ++ (x ++ y ++ z)) i j = .ok r ∧ r.getD j = i + x.length := by
  cases y with
  | nil =>
    rw [List.append_nil] at hj ⊢
    exact ⟨none, find_none hx hi hj, by rw [Option.getD_none, hj, hi]⟩
  | cons c y => exact ⟨_, find_some hx (starts_cons.1 hy) hi hj, rfl⟩

end Scan
