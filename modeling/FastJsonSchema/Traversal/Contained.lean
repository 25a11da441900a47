import FastJsonSchema.Traversal.Judgement

/-!
# When a guarded call restores the stack

A guarded call leaves a level behind exactly when a failure exits from an element of a level
(`leak_eq_zero_iff`). Its stores stay within the stack exactly when the highest one does, as its
judgement has it (`Guards.stored_iff`). When a guarded call returns, it has stored within the stack
and restored what it found if and only if no store lies past the stack and no failure has exited
from an element (`guards_restores_iff`). What a store past the stack does is left open.
-/

namespace Traversal

variable {Call Tok Site Exn : Type}

section Contained

variable (judge : Bool → Call → Judgement Site Exn) (contained : Bool → Call → Prop) (quiet : Bool)

mutual

/-- No failure exits from an element of a level, up to the end of the program. -/
def Prog.Contained : Prog Call Tok Site Exn → Prop
  | .skip | .fail _ | .raise _ | .crash => True
  | .seq p q => p.Contained ∧ ((p.judge judge quiet).exit = .pass → q.Contained)
  | .call c => contained quiet c
  | .guarded c k => contained true c ∧ ((judge true c).exit = .pass → (k true).Contained) ∧
      ((judge true c).exit = .fail → (k false).Contained)
  | .each xs => EachContained xs

/-- The same for the elements of a level: in particular none of them fails. -/
def Prog.EachContained : List (Tok × Prog Call Tok Site Exn) → Prop
  | [] => True
  | (_, p) :: xs => p.Contained ∧ (p.judge judge quiet).exit ≠ .fail ∧
      ((p.judge judge quiet).exit = .pass → EachContained xs)

end

end Contained

namespace Machine

/-- No failure exits from an element of a level in the body of a call. -/
def Contained (M : Machine Call Tok Site Exn) : ℕ → Bool → Call → Prop
  | 0, _, _ => True
  | n + 1, quiet, c => (M.body c).Contained (M.judge n) (Contained M n) quiet

/-- In the guarded call of `c` no failure exits from an element of a level. -/
def Contains (M : Machine Call Tok Site Exn) (c : Call) : Prop :=
  ∃ n, (M.judge n true c).exit ≠ .starved ∧ M.Contained n true c

end Machine

/-! ## The levels left behind -/

namespace Judgement

variable {j k : Judgement Site Exn}

theorem leak_andThen :
    (j.andThen k).leak = 0 ↔ j.leak = 0 ∧ (j.exit = .pass → k.leak = 0) := by
  by_cases h : j.exit = .pass
  · rw [andThen_of_pass h]
    simp [after, h]
  · rw [andThen_of_ne h]
    simp [h]

theorem leak_branch {k : Bool → Judgement Site Exn} :
    (j.branch k).leak = 0 ↔ j.leak = 0 ∧ (j.exit = .pass → (k true).leak = 0) ∧
      (j.exit = .fail → (k false).leak = 0) := by
  rw [branch]
  cases h : j.exit <;> simp [after]

theorem leak_deepen : j.deepen.leak = 0 ↔ j.leak = 0 ∧ j.exit ≠ .fail := by
  rw [deepen]
  cases h : j.exit <;> simp

end Judgement

section Leak

variable {judge : Bool → Call → Judgement Site Exn} {contained : Bool → Call → Prop}

theorem Prog.judgeEach_leak {q : Bool} {xs : List (Tok × Prog Call Tok Site Exn)}
    (hx : ∀ x ∈ xs, (x.2.judge judge q).leak = 0 ↔ x.2.Contained judge contained q) :
    (Prog.judgeEach judge q xs).leak = 0 ∧ (Prog.judgeEach judge q xs).exit ≠ .fail ↔
      Prog.EachContained judge contained q xs := by
  induction xs with
  | nil => simp [Prog.judgeEach, Prog.EachContained, Judgement.ended]
  | cons x xs ih =>
    obtain ⟨t, p⟩ := x
    have hp := hx (t, p) (by simp)
    have hxs := ih fun x hx' => hx x (by simp [hx'])
    simp only [Prog.judgeEach, Prog.EachContained, ← hp, ← hxs]
    by_cases hpass : (p.judge judge q).exit = .pass
    · rw [Judgement.andThen_of_pass hpass]
      simp [Judgement.after, hpass, and_assoc]
    · rw [Judgement.andThen_of_ne hpass]
      simp [hpass]

variable (hc : ∀ q c, (judge q c).leak = 0 ↔ contained q c)

include hc

theorem Prog.judge_leak {q : Bool} (p : Prog Call Tok Site Exn) :
    (p.judge judge q).leak = 0 ↔ p.Contained judge contained q := by
  induction p with
  | skip => simp [Prog.judge, Prog.Contained, Judgement.ended]
  | fail e => cases q <;> simp [Prog.judge, Prog.Contained, Judgement.ended]
  | raise x => simp [Prog.judge, Prog.Contained, Judgement.ended]
  | crash => simp [Prog.judge, Prog.Contained, Judgement.ended]
  | seq p p' ihp ihp' =>
    simp only [Prog.judge, Prog.Contained, Judgement.leak_andThen, ihp, ihp']
  | call c => simpa only [Prog.judge, Prog.Contained] using hc q c
  | guarded c k ih =>
    simp only [Prog.judge, Prog.Contained, Judgement.leak_branch, hc, ih]
  | each xs ih =>
    rw [Prog.Contained, ← Prog.judgeEach_leak ih, ← Judgement.leak_deepen, Prog.judge]
    cases xs with
    | nil => simp [Prog.judgeEach, Judgement.deepen, Judgement.ended]
    | cons x xs => simp

end Leak

namespace Machine

variable {M : Machine Call Tok Site Exn} {s : State Tok Site} {r : Result Tok Site Exn} {c : Call}

variable (M) in
theorem leak_eq_zero_iff (n : ℕ) : ∀ q c, (M.judge n q c).leak = 0 ↔ M.Contained n q c := by
  induction n with
  | zero => exact fun _ _ => iff_of_true rfl trivial
  | succ n ih => exact fun q c => Prog.judge_leak ih _

/-- The judgement of a guarded call leaves no level behind if and only if no failure exits from an
element. -/
theorem Judged.contains_iff {j : Judgement Site Exn} (h : M.Judged true c j) :
    M.Contains c ↔ j.leak = 0 := by
  constructor
  · rintro ⟨n, hn, hcont⟩
    rw [h.unique ⟨n, rfl, hn⟩]
    exact (M.leak_eq_zero_iff n true c).2 hcont
  · intro hj
    obtain ⟨n, rfl, hn⟩ := h
    exact ⟨n, hn, (M.leak_eq_zero_iff n true c).1 hj⟩

/-! ## The stores of a quiet run -/

variable (M) in
/-- The stores of a run from the depth `d`, the highest of them `p` levels above it, are within the
stack. -/
def InStack (d : ℤ) (p : ℕ) : Prop := p = 0 ∨ 0 ≤ d + 1 ∧ d + p < M.max

variable (M) in
/-- In the guarded call of `c` from the depth `d` every store is within the stack. -/
def FitsFrom (d : ℤ) (c : Call) : Prop := ∃ j, M.Judged true c j ∧ M.InStack d j.peak

/-- The run has ended in a way that a guarded call turns into a verdict. -/
def Returned (r : Result Tok Site Exn) : Prop := r.1 = .done ∨ r.1 = .thrown

theorem returned_iff : Returned r ↔ r.verdict ≠ none := by
  obtain ⟨o, s⟩ := r
  cases o <;> simp [Returned, Result.verdict]

variable (M) in
/-- `P` says that the run from `s` that ends in `r` stores within the stack. -/
structure Lands (P : Prop) (s : State Tok Site) (r : Result Tok Site Exn) : Prop where
  stored : M.Stored s → P → M.Stored r.2
  of_stored : Returned r → M.Stored r.2 → P

end Machine

/-! ### No level is left behind without a store -/

namespace Judgement

variable {j k : Judgement Site Exn}

theorem leak_le_peak_andThen (hj : j.leak ≤ j.peak) (hk : k.leak ≤ k.peak) :
    (j.andThen k).leak ≤ (j.andThen k).peak := by
  by_cases h : j.exit = .pass
  · rw [andThen_of_pass h]
    simp only [after]
    omega
  · rw [andThen_of_ne h]
    exact hj

theorem leak_le_peak_branch {k : Bool → Judgement Site Exn} (hj : j.leak ≤ j.peak)
    (hk : ∀ b, (k b).leak ≤ (k b).peak) : (j.branch k).leak ≤ (j.branch k).peak := by
  have htrue := hk true
  have hfalse := hk false
  rw [branch]
  cases j.exit <;> simp only [after] <;> omega

theorem leak_le_peak_deepen (hj : j.leak ≤ j.peak) : j.deepen.leak ≤ j.deepen.peak := by
  rw [deepen]
  cases j.exit <;> simp only <;> omega

theorem peak_le_andThen : j.peak ≤ (j.andThen k).peak := by
  by_cases h : j.exit = .pass
  · rw [andThen_of_pass h]
    exact le_max_left _ _
  · rw [andThen_of_ne h]

theorem peak_le_branch {k : Bool → Judgement Site Exn} : j.peak ≤ (j.branch k).peak := by
  rw [branch]
  cases j.exit <;> first | exact le_max_left _ _ | exact le_rfl

end Judgement

section LeakPeak

variable {judge : Bool → Call → Judgement Site Exn}

theorem Prog.judgeEach_leak_le {q : Bool} {xs : List (Tok × Prog Call Tok Site Exn)}
    (hx : ∀ x ∈ xs, (x.2.judge judge q).leak ≤ (x.2.judge judge q).peak) :
    (Prog.judgeEach judge q xs).leak ≤ (Prog.judgeEach judge q xs).peak := by
  induction xs with
  | nil => exact le_rfl
  | cons x xs ih =>
    obtain ⟨t, p⟩ := x
    have ⟨hp, hxs⟩ := List.forall_mem_cons.1 hx
    exact Judgement.leak_le_peak_andThen hp (ih hxs)

theorem Prog.judge_leak_le (hc : ∀ q c, (judge q c).leak ≤ (judge q c).peak) {q : Bool}
    (p : Prog Call Tok Site Exn) : (p.judge judge q).leak ≤ (p.judge judge q).peak := by
  induction p with
  | skip => exact le_rfl
  | fail e => cases q <;> exact le_rfl
  | raise x => exact le_rfl
  | crash => exact le_rfl
  | seq p p' ihp ihp' => exact Judgement.leak_le_peak_andThen ihp ihp'
  | call c => exact hc q c
  | guarded c k ih => exact Judgement.leak_le_peak_branch (hc true c) ih
  | each xs ih =>
    rw [Prog.judge]
    split_ifs
    · exact le_rfl
    · exact Judgement.leak_le_peak_deepen (Prog.judgeEach_leak_le ih)

end LeakPeak

namespace Machine

variable {M : Machine Call Tok Site Exn} {s : State Tok Site} {r : Result Tok Site Exn} {c : Call}
  {j k : Judgement Site Exn}

variable (M) in
theorem judge_leak_le (n : ℕ) : ∀ q c, (M.judge n q c).leak ≤ (M.judge n q c).peak := by
  induction n with
  | zero => exact fun _ _ => le_rfl
  | succ n ih => exact fun q c => Prog.judge_leak_le ih _

/-! ### Composition -/

theorem InStack.of_le {d : ℤ} {p p' : ℕ} (h : M.InStack d p) (hle : p' ≤ p) : M.InStack d p' := by
  unfold InStack at h ⊢
  omega

theorem inStack_after {d : ℤ} (hj : j.leak ≤ j.peak) :
    M.InStack d (j.after k).peak ↔ M.InStack d j.peak ∧ M.InStack (d + j.leak) k.peak := by
  simp only [InStack, Judgement.after]
  omega

theorem lands_refl {P : Prop} (hP : P) {o : Outcome Exn} : M.Lands P s (o, s) :=
  ⟨fun hs _ => hs, fun _ _ => hP⟩

/-- Going on with `f`: `R` is `P` and what the rest needs, or `P` when there is no rest. -/
theorem Lands.andThen {f : State Tok Site → Result Tok Site Exn} {P Q R : Prop} {b : ℤ}
    (h : M.Lands P s r) (ht : M.Follows s r j) (hf : M.Frame b r.2 (f r.2).2)
    (hk : M.Stored r.2 → M.Lands Q r.2 (f r.2)) (hP : R → P)
    (hpass : j.exit = .pass → r.2.depth = s.depth + j.leak → (R ↔ P ∧ Q))
    (hne : j.exit ≠ .pass → (R ↔ P)) : M.Lands R s (r.andThen f) := by
  by_cases hd : r.1 = .done
  · rw [Result.andThen_of_done hd]
    have hiff : M.Stored r.2 → (R ↔ P ∧ Q) := fun hs => by
      have ht := ht hs
      rw [hd] at ht
      exact hpass ht.1 ht.2
    refine ⟨fun hs hR => ?_, fun hret hs => ?_⟩
    · have hs₁ := h.stored hs (hP hR)
      exact (hk hs₁).stored hs₁ ((hiff hs₁).1 hR).2
    · have hs₁ : M.Stored r.2 := hs.mono hf.log
      exact (hiff hs₁).2 ⟨h.of_stored (.inl hd) hs₁, (hk hs₁).of_stored hret hs⟩
  · rw [Result.andThen_of_ne hd]
    refine ⟨fun hs hR => h.stored hs (hP hR), fun hret hs => ?_⟩
    have ht := ht hs
    rw [hret.resolve_left hd] at ht
    exact (hne (by simp [ht.1])).2 (h.of_stored hret hs)

/-- Going on with the verdict of a guarded call. -/
theorem Lands.branch {f : Bool → State Tok Site → Result Tok Site Exn}
    {k : Bool → Judgement Site Exn} {b : ℤ} (h : M.Lands (M.InStack s.depth j.peak) s r)
    (ht : M.Follows s r j) (hl : j.leak ≤ j.peak) (hf : ∀ v, M.Frame b r.2 (f v r.2).2)
    (hk : ∀ v, M.Stored r.2 → M.Lands (M.InStack r.2.depth (k v).peak) r.2 (f v r.2)) :
    M.Lands (M.InStack s.depth (j.branch k).peak) s (r.branch f) := by
  have hP : M.InStack s.depth (j.branch k).peak → M.InStack s.depth j.peak := fun hR =>
    hR.of_le Judgement.peak_le_branch
  -- the verdict that the run goes on with is that of the judgement
  have hgo : ∀ v, M.Stored r.2 → j.branch k = j.after (k v) → r.2.depth = s.depth + j.leak →
      (M.InStack s.depth (j.branch k).peak ↔
        M.InStack s.depth j.peak ∧ M.InStack r.2.depth (k v).peak) := by
    intro v _ hbranch hdepth
    rw [hbranch, inStack_after hl, hdepth]
  obtain ⟨o, s₁⟩ := r
  cases o with
  | done =>
    have hiff : M.Stored s₁ → _ := fun hs => hgo true hs (by rw [Judgement.branch, (ht hs).1])
      (ht hs).2
    refine ⟨fun hs hR => ?_, fun hret hs => ?_⟩
    · have hs₁ := h.stored hs (hP hR)
      exact (hk true hs₁).stored hs₁ ((hiff hs₁).1 hR).2
    · have hs₁ : M.Stored s₁ := Stored.mono hs (hf true).log
      exact (hiff hs₁).2 ⟨h.of_stored (.inl rfl) hs₁, (hk true hs₁).of_stored hret hs⟩
  | thrown =>
    have hiff : M.Stored s₁ → _ := fun hs => hgo false hs (by rw [Judgement.branch, (ht hs).1])
      (ht hs).2
    refine ⟨fun hs hR => ?_, fun hret hs => ?_⟩
    · have hs₁ := h.stored hs (hP hR)
      exact (hk false hs₁).stored hs₁ ((hiff hs₁).1 hR).2
    · have hs₁ : M.Stored s₁ := Stored.mono hs (hf false).log
      exact (hiff hs₁).2 ⟨h.of_stored (.inr rfl) hs₁, (hk false hs₁).of_stored hret hs⟩
  | _ =>
    refine ⟨fun hs hR => h.stored hs (hP hR), fun hret _ => ?_⟩
    simp [Returned, Result.branch] at hret

/-! ### Programs -/

theorem stored_logged {a : Access} :
    M.Stored (s.logged a) ↔ M.Stored s ∧ ∀ i, a = .write i → 0 ≤ i ∧ i < M.max := by
  simp only [Stored, State.log_logged, List.mem_append, List.mem_singleton]
  constructor
  · exact fun h => ⟨fun i hi => h i (.inl hi), fun i hi => h i (.inr hi.symm)⟩
  · rintro ⟨h, ha⟩ i (hi | hi)
    · exact h i hi
    · exact ha i hi.symm

/-- A store is within the stack when its slot is. -/
theorem stored_write (t : Tok) (s : State Tok Site) :
    M.Stored (M.write t s).2 ↔ M.Stored s ∧ 0 ≤ s.depth ∧ s.depth < M.max := by
  have hlog : (M.write t s).2.log = (s.logged (.write s.depth)).log := by
    unfold write
    split_ifs
    · rfl
    · cases M.overrun t s.toContext <;> rfl
  have hlogged : M.Stored (s.logged (.write s.depth)) ↔ _ := stored_logged
  rw [Stored, hlog, ← Stored, hlogged]
  simp

section Exec

variable {callee : Call → State Tok Site → Result Tok Site Exn}
  {jcallee : Bool → Call → Judgement Site Exn}
  (hc : ∀ c s, M.Frame (s.depth + 1) s (callee c s).2)
  (hj : ∀ c s, M.Follows s (callee c s) (jcallee s.shortCircuit c))
  (hl : ∀ q c, (jcallee q c).leak ≤ (jcallee q c).peak)

include hc hj hl

omit hj hl in
/-- A store is in the log of the elements. -/
theorem write_log (t : Tok) (p : Prog Call Tok Site Exn) (xs : List (Tok × Prog Call Tok Site Exn))
    (s : State Tok Site) :
    (M.write t s).2.log <+: (M.execEach callee ((t, p) :: xs) s).2.log := by
  by_cases hdone : (M.write t s).1 = .done
  · rw [execEach, Result.andThen_of_done hdone]
    exact (element_frame hc p xs _).log
  · have hexec : M.execEach callee ((t, p) :: xs) s = M.write t s := by
      rw [execEach, Result.andThen_of_ne hdone]
    exact hexec ▸ List.prefix_refl _

/-- An element and those after it, once its token is stored. -/
theorem element_lands {t : Tok} {p : Prog Call Tok Site Exn}
    {xs : List (Tok × Prog Call Tok Site Exn)} (hd : 0 ≤ s.depth ∧ s.depth < M.max)
    (hq : s.shortCircuit = true)
    (hp : M.Lands (M.InStack s.depth (p.judge jcallee true).peak) s (M.exec callee p s))
    (hxs : ∀ s, s.shortCircuit = true → M.Lands (xs = [] ∨ 0 ≤ s.depth ∧
      s.depth + (Prog.judgeEach jcallee true xs).peak < (M.max : ℤ)) s (M.execEach callee xs s)) :
    M.Lands (s.depth + (Prog.judgeEach jcallee true ((t, p) :: xs)).peak < (M.max : ℤ)) s
      ((M.exec callee p s).andThen (M.execEach callee xs)) := by
  have hfollows := exec_follows hc hj p s
  rw [hq] at hfollows
  have hleak := Prog.judge_leak_le hl (q := true) p
  rw [Prog.judgeEach]
  refine hp.andThen hfollows (execEach_frame (fun x _ => exec_frame hc x.2) _)
    (fun hs => hxs _ (((exec_frame hc p _).mode hs).trans hq)) ?_ ?_ ?_
  · intro h
    have hle := Judgement.peak_le_andThen (j := p.judge jcallee true)
      (k := Prog.judgeEach jcallee true xs)
    rw [InStack]
    omega
  · intro hpass hdepth
    rw [hdepth, Judgement.andThen_of_pass hpass, InStack]
    simp only [Judgement.after]
    cases xs with
    | nil =>
      simp only [Prog.judgeEach, Judgement.ended, true_or, and_true]
      omega
    | cons x xs =>
      simp only [reduceCtorEq, false_or]
      omega
  · intro hne
    rw [Judgement.andThen_of_ne hne, InStack]
    omega

/-- The elements of a level store into the slot of the level and above. -/
theorem execEach_lands {xs : List (Tok × Prog Call Tok Site Exn)}
    (hx : ∀ x ∈ xs, ∀ s, s.shortCircuit = true →
      M.Lands (M.InStack s.depth (x.2.judge jcallee true).peak) s (M.exec callee x.2 s)) :
    ∀ s, s.shortCircuit = true →
      M.Lands (xs = [] ∨ 0 ≤ s.depth ∧
        s.depth + (Prog.judgeEach jcallee true xs).peak < (M.max : ℤ)) s
          (M.execEach callee xs s) := by
  induction xs with
  | nil => exact fun s _ => lands_refl (.inl rfl)
  | cons x xs ih =>
    obtain ⟨t, p⟩ := x
    obtain ⟨hp, hxs⟩ := List.forall_mem_cons.1 hx
    dsimp only at hp
    intro s hq
    by_cases hd : 0 ≤ s.depth ∧ s.depth < M.max
    · have hdone : (M.write t s).1 = .done := by rw [write, if_pos hd]
      have hdepth : (M.write t s).2.depth = s.depth := by rw [write, if_pos hd]; rfl
      have hq₁ : (M.write t s).2.shortCircuit = true := by rw [write, if_pos hd]; exact hq
      have hlands := element_lands hc hj hl (t := t) (hdepth ▸ hd) hq₁ (hp _ hq₁) (ih hxs)
      rw [hdepth] at hlands
      rw [execEach, Result.andThen_of_done hdone]
      refine ⟨fun hs h => hlands.stored ((stored_write t s).2 ⟨hs, hd⟩) ?_,
        fun hr hs => .inr ⟨hd.1, hlands.of_stored hr hs⟩⟩
      rcases h with h | h
      · cases h
      · exact h.2
    · refine ⟨fun _ h => ?_, fun _ hs => ?_⟩
      · rcases h with h | h
        · cases h
        · omega
      · exact absurd ((stored_write t s).1 (hs.mono (write_log hc t p xs s))).2 hd

theorem exec_lands (hland : ∀ c s, s.shortCircuit = true →
      M.Lands (M.InStack s.depth (jcallee true c).peak) s (callee c s))
    (p : Prog Call Tok Site Exn) : ∀ s, s.shortCircuit = true →
      M.Lands (M.InStack s.depth (p.judge jcallee true).peak) s (M.exec callee p s) := by
  induction p with
  | skip => exact fun s _ => lands_refl (.inl rfl)
  | fail e =>
    intro s hq
    rw [exec, yieldError, hq]
    exact lands_refl (.inl rfl)
  | raise x => exact fun s _ => lands_refl (.inl rfl)
  | crash => exact fun s _ => lands_refl (.inl rfl)
  | seq p q ihp ihq =>
    intro s hq
    have hfollows := exec_follows hc hj p s
    rw [hq] at hfollows
    refine (ihp s hq).andThen hfollows (exec_frame hc q _)
      (fun hs => ihq _ (((exec_frame hc p s).mode hs).trans hq)) ?_ ?_ ?_
    · exact fun h => h.of_le Judgement.peak_le_andThen
    · intro hpass hdepth
      rw [hdepth, Prog.judge, Judgement.andThen_of_pass hpass,
        inStack_after (Prog.judge_leak_le hl p)]
    · intro hne
      rw [Prog.judge, Judgement.andThen_of_ne hne]
  | call c => exact fun s hq => hland c s hq
  | guarded c k ih =>
    intro s hq
    have hland := hland c (s.mode true) rfl
    have hp : M.Lands (M.InStack s.depth (jcallee true c).peak) s (protect callee c s) :=
      ⟨hland.stored, hland.of_stored⟩
    exact hp.branch (protect_follows hj c s) (hl true c) (fun b => exec_frame hc (k b) _)
      fun b _ => ih b _ hq
  | each xs ih =>
    intro s hq
    have he := execEach_lands hc hj hl ih (s.enter !xs.isEmpty) hq
    rw [State.depth_enter] at he
    have henter : M.Stored s → M.Stored (s.enter !xs.isEmpty) := fun hs =>
      (stored_logged (a := .enter s.depth !xs.isEmpty)).2 ⟨hs, by simp⟩
    have hleave : M.Stored (M.execEach callee xs (s.enter !xs.isEmpty)).leave.2 ↔
        M.Stored (M.execEach callee xs (s.enter !xs.isEmpty)).2 := by simp [Stored]
    have hiff : M.InStack s.depth ((Prog.each xs).judge jcallee true).peak ↔
        (xs = [] ∨ 0 ≤ s.depth + 1 ∧
          s.depth + 1 + (Prog.judgeEach jcallee true xs).peak < M.max) := by
      cases xs with
      | nil => simp [Prog.judge, InStack, Judgement.ended]
      | cons x xs =>
        simp only [Prog.judge, InStack, Judgement.deepen, List.isEmpty_cons, Bool.false_eq_true,
          if_false, reduceCtorEq, false_or]
        omega
    rw [exec]
    split_ifs
    · exact ⟨fun hs _ => henter hs, fun hret _ => by simp [Returned] at hret⟩
    · refine ⟨fun hs h => hleave.2 (he.stored (henter hs) (hiff.1 h)), fun hret hs => ?_⟩
      refine hiff.2 (he.of_stored ?_ (hleave.1 hs))
      simpa [Returned] using hret

end Exec

variable (M) in
/-- **The stores of a quiet run** are within the stack, when it returns, if and only if the highest
one is. -/
theorem run_lands (n : ℕ) : ∀ c s, s.shortCircuit = true →
    M.Lands (M.InStack s.depth (M.judge n true c).peak) s (M.run n c s) := by
  induction n with
  | zero => exact fun c s _ => lands_refl (.inl rfl)
  | succ n ih =>
    intro c s hq
    have he := exec_lands (run_frame M n) (run_follows M n) (judge_leak_le M n) ih (M.body c)
      (s.logged (.read s.depth)) hq
    exact ⟨fun hs => he.stored (stored_logged.2 ⟨hs, by simp⟩), he.of_stored⟩

/-! ## What a guarded call restores -/

/-- A guarded call restores the mode, however it ends. -/
theorem Guards.mode (h : M.Guards c s r) : r.2.shortCircuit = s.shortCircuit := by
  obtain ⟨n, rfl, -⟩ := h
  rfl

/-- A guarded call that returns stores within the stack if and only if its judgement does. -/
theorem Guards.stored_iff (hs : M.Stored s) (h : M.Guards c s r) (hv : r.verdict ≠ none) :
    M.Stored r.2 ↔ M.FitsFrom s.depth c := by
  obtain ⟨n, rfl, hr⟩ := h
  rw [← returned_iff] at hv
  constructor
  · intro hstored
    have hfollows := M.run_follows n c (s.mode true) hstored
    rw [State.shortCircuit_mode] at hfollows
    refine ⟨M.judge n true c, ⟨n, rfl, ?_⟩,
      (M.run_lands n c (s.mode true) rfl).of_stored hv hstored⟩
    have hexit : (M.run n c (s.mode true)).1 = .done ∨ (M.run n c (s.mode true)).1 = .thrown := hv
    rcases hexit with ho | ho <;> rw [ho] at hfollows <;> simp [hfollows.1]
  · rintro ⟨j, ⟨m, rfl, hj⟩, hfits⟩
    -- with the fuel of both the run is the same
    have hrun : M.run (n + m) c (s.mode true) = M.run n c (s.mode true) :=
      M.run_mono (Nat.le_add_right n m) c _ hr
    have hjudge := M.judge_mono (Nat.le_add_left m n) true c hj
    have hlands := M.run_lands (n + m) c (s.mode true) rfl
    rw [hrun, hjudge] at hlands
    exact hlands.stored hs hfits

/-- A guarded call that returns is as deep as its judgement says. -/
theorem Guards.depth (hs : M.Stored r.2) (h : M.Guards c s r) (hv : r.verdict ≠ none) :
    (∀ i : ℕ, i ≤ s.depth → r.2.path i = s.path i) ∧
      ∃ j, M.Judged true c j ∧ r.2.depth = s.depth + j.leak := by
  obtain ⟨n, rfl, hr⟩ := h
  have hframe := M.run_frame n c (s.mode true)
  refine ⟨fun i hi => hframe.path hs i (by simpa using Int.lt_add_one_of_le hi), ?_⟩
  have hfollows := M.run_follows n c (s.mode true) hs
  rw [State.shortCircuit_mode] at hfollows
  refine ⟨M.judge n true c, ⟨n, rfl, ?_⟩, ?_⟩ <;>
    cases ho : (M.run n c (s.mode true)).1 <;> rw [ho] at hfollows <;>
      simp_all [Tracks, Result.verdict]

/-- **What a guarded call restores.** A guarded call that returns has stored within the stack and
leaves the context as it found it if and only if no store lies past the stack and no failure has
exited from an element of a level. -/
theorem guards_restores_iff (hs : M.Stored s) (h : M.Guards c s r) (hv : r.verdict ≠ none) :
    (M.Stored r.2 ∧ r.2.depth = s.depth ∧ r.2.shortCircuit = s.shortCircuit ∧
      ∀ i : ℕ, i ≤ s.depth → r.2.path i = s.path i) ↔ M.FitsFrom s.depth c ∧ M.Contains c := by
  rw [← h.stored_iff hs hv]
  refine and_congr_right fun hstored => ?_
  obtain ⟨hpath, j, hj, hd⟩ := h.depth hstored hv
  rw [hj.contains_iff]
  constructor
  · rintro ⟨hdepth, -, -⟩
    omega
  · intro h0
    exact ⟨by omega, h.mode, hpath⟩

end Machine

end Traversal
