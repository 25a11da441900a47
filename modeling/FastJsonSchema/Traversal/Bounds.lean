import FastJsonSchema.Traversal.Judgement
import Mathlib.Data.List.Infix

/-!
# When a run leaves the stack

The guard of `each` compares the new depth with `Machine.max`, and the slots end one below it. So
a run from a depth within the stack leaves it exactly when its highest store, as its judgement has
it, lies past the last slot (`run_safe_iff`). Below that neither the guard nor an empty slot ever
stops the run (`Bounded.ne_tooDeep`, `Bounded.ne_badPath`): the guard only fires in runs that have
already stored past the last slot.
-/

namespace Traversal

variable {Call Tok Site Exn : Type}

namespace Machine

variable (M : Machine Call Tok Site Exn)

/-- All accesses so far are within the stack, so is the depth, and every slot below `b` holds a
token. -/
structure Within (b : ℤ) (s : State Tok Site) : Prop where
  safe : M.Safe s
  nonneg : 0 ≤ s.depth
  lt : s.depth < M.max
  filled : ∀ i : ℕ, (i : ℤ) < b → s.path i ≠ none

/-- What the highest store of the judgement `j` says about a run from `s` that ends in `r`. -/
structure Bounded (s : State Tok Site) (r : Result Tok Site Exn) (j : Judgement Site Exn) :
    Prop where
  within : s.depth + j.peak < M.max → M.Within (r.2.depth + 1) r.2
  ne_tooDeep : s.depth + j.peak < M.max → r.1 ≠ .tooDeep
  ne_badPath : s.depth + j.peak < M.max → r.1 ≠ .badPath
  out : (M.max : ℤ) ≤ s.depth + j.peak → ¬ M.Safe r.2

/-- The call of `c` from the bottom of the stack reaches no element `max` levels down, where a level
left behind counts. -/
def Fits (quiet : Bool) (c : Call) : Prop := ∀ n, (M.judge n quiet c).peak < M.max

variable {M} {s : State Tok Site} {r : Result Tok Site Exn}

theorem Within.logged {b : ℤ} {a : Access} (h : M.Within b s) (ha : M.InRange a) :
    M.Within b (s.logged a) :=
  ⟨safe_logged.2 ⟨h.safe, ha⟩, h.nonneg, h.lt, h.filled⟩

/-- A run without stores that ends within the stack. -/
theorem Bounded.of_within {j : Judgement Site Exn} {b : ℤ} (h : M.Within b s) (hj : j.peak = 0)
    (hr : M.Within (r.2.depth + 1) r.2) (ho : r.1 ≠ .tooDeep) (hb : r.1 ≠ .badPath) :
    M.Bounded s r j := by
  refine ⟨fun _ => hr, fun _ => ho, fun _ => hb, fun hout => ?_⟩
  have := h.lt
  rw [hj] at hout
  push_cast at hout
  omega

theorem readPath_isSome (h : M.Within (s.depth + 1) s) : ∃ ts, s.readPath = some ts := by
  have hall : ∀ l : List ℕ, (∀ i ∈ l, s.path i ≠ none) → ∃ ts, l.mapM s.path = some ts := by
    intro l
    induction l with
    | nil => exact fun _ => ⟨[], rfl⟩
    | cons i l ih =>
      intro hl
      obtain ⟨t, ht⟩ := Option.ne_none_iff_exists'.1 (hl i (by simp))
      obtain ⟨ts, hts⟩ := ih fun i hi => hl i (by simp [hi])
      exact ⟨t :: ts, by simp [List.mapM_cons, ht, hts]⟩
  refine hall _ fun i hi => h.filled i ?_
  have := h.nonneg
  have := List.mem_range.1 hi
  omega

theorem Judgement.peak_after (j k : Judgement Site Exn) :
    ((j.after k).peak : ℤ) = Max.max (j.peak : ℤ) (j.leak + k.peak) := by
  simp only [Judgement.after]
  omega

/-- Going on with `k` after `j`, from the state `s₁` in which a run that follows `j` ends. -/
theorem Bounded.after {s₁ : State Tok Site} {j k : Judgement Site Exn}
    (hlt : s.depth + j.peak < M.max) (hd : s₁.depth = s.depth + j.leak)
    (hk : M.Bounded s₁ r k) : M.Bounded s r (j.after k) := by
  have hpeak := Judgement.peak_after j k
  have hk' : s.depth + (j.after k).peak < M.max → s₁.depth + k.peak < M.max := by
    intro h
    rw [hd]
    omega
  exact ⟨fun h => hk.within (hk' h), fun h => hk.ne_tooDeep (hk' h),
    fun h => hk.ne_badPath (hk' h), fun h => hk.out (by rw [hd]; omega)⟩

/-- A run that leaves the stack in its first part leaves it. -/
theorem Bounded.of_out {s₁ : State Tok Site} {j j' : Judgement Site Exn} (hs : ¬ M.Safe s₁)
    (hlog : s₁.log <+: r.2.log) (hout : (M.max : ℤ) ≤ s.depth + j.peak)
    (hle : j.peak ≤ j'.peak) : M.Bounded s r j' :=
  ⟨fun h => by omega, fun h => by omega, fun h => by omega, fun _ h => hs (h.mono hlog)⟩

theorem Bounded.andThen {f : State Tok Site → Result Tok Site Exn} {j k : Judgement Site Exn}
    {b : ℤ} (h : M.Bounded s r j) (ht : M.Follows s r j) (hf : M.Frame b r.2 (f r.2).2)
    (hk : M.Within (r.2.depth + 1) r.2 → M.Bounded r.2 (f r.2) k) :
    M.Bounded s (r.andThen f) (j.andThen k) := by
  by_cases hlt : s.depth + j.peak < M.max
  · have hw := h.within hlt
    have ht := ht hw.safe.stored
    have hdeep := h.ne_tooDeep hlt
    have hbad := h.ne_badPath hlt
    obtain ⟨o, s₁⟩ := r
    cases o with
    | done =>
      rw [Result.andThen_of_done rfl, Judgement.andThen_of_pass ht.1]
      exact Bounded.after hlt ht.2 (hk hw)
    | thrown =>
      rw [Result.andThen_of_ne (by simp), Judgement.andThen_of_ne (by simp [ht.1])]
      exact h
    | tooDeep => exact absurd rfl hdeep
    | badPath => exact absurd rfl hbad
    | crashed =>
      have hj : j.exit = _ := ht hw.safe
      rw [Result.andThen_of_ne (by simp), Judgement.andThen_of_ne (by simp [hj])]
      exact h
    | _ =>
      have hj : j.exit = _ := ht
      rw [Result.andThen_of_ne (by simp), Judgement.andThen_of_ne (by simp [hj])]
      exact h
  · have hs := h.out (not_lt.1 hlt)
    refine Bounded.of_out hs ?_ (not_lt.1 hlt) ?_
    · by_cases hd : r.1 = .done
      · rw [Result.andThen_of_done hd]
        exact hf.log
      · rw [Result.andThen_of_ne hd]
    · by_cases hj : j.exit = .pass
      · rw [Judgement.andThen_of_pass hj]
        exact le_max_left _ _
      · rw [Judgement.andThen_of_ne hj]

theorem Bounded.branch {f : Bool → State Tok Site → Result Tok Site Exn}
    {j : Judgement Site Exn} {k : Bool → Judgement Site Exn} {b : ℤ} (h : M.Bounded s r j)
    (ht : M.Follows s r j) (hf : ∀ v, M.Frame b r.2 (f v r.2).2)
    (hk : ∀ v, M.Within (r.2.depth + 1) r.2 → M.Bounded r.2 (f v r.2) (k v)) :
    M.Bounded s (r.branch f) (j.branch k) := by
  obtain ⟨o, s₁⟩ := r
  by_cases hlt : s.depth + j.peak < M.max
  · have hw := h.within hlt
    have ht := ht hw.safe.stored
    have hdeep := h.ne_tooDeep hlt
    have hbad := h.ne_badPath hlt
    cases o with
    | done =>
      rw [Judgement.branch, ht.1]
      exact Bounded.after hlt ht.2 (hk true hw)
    | thrown =>
      rw [Judgement.branch, ht.1]
      exact Bounded.after hlt ht.2 (hk false hw)
    | tooDeep => exact absurd rfl hdeep
    | badPath => exact absurd rfl hbad
    | crashed =>
      have hj : j.exit = _ := ht hw.safe
      rw [Judgement.branch, hj]
      exact h
    | _ =>
      have hj : j.exit = _ := ht
      rw [Judgement.branch, hj]
      exact h
  · refine Bounded.of_out (h.out (not_lt.1 hlt)) ?_ (not_lt.1 hlt) ?_
    · cases o with
      | done => exact (hf true).log
      | thrown => exact (hf false).log
      | _ => exact List.prefix_refl _
    · rw [Judgement.branch]
      cases j.exit <;> first | exact le_max_left _ _ | exact le_rfl

theorem yieldError_bounded (e : Site) (h : M.Within (s.depth + 1) s) :
    M.Bounded s (M.yieldError e s)
      (if s.shortCircuit then .ended .fail else ⟨.pass, 0, 0, [(e, 0)]⟩) := by
  have hr := h.logged (a := .read s.depth) h.lt
  unfold yieldError
  cases hq : s.shortCircuit with
  | true => exact Bounded.of_within h rfl h (by simp) (by simp)
  | false =>
    obtain ⟨ts, hts⟩ := readPath_isSome h
    simp only [Bool.false_eq_true, if_false, if_neg (not_le.2 h.lt), hts]
    exact Bounded.of_within h rfl ⟨hr.safe, hr.nonneg, hr.lt, hr.filled⟩ (by simp) (by simp)

/-- A store at a depth within the stack fills the slot. -/
theorem write_within (t : Tok) (h : M.Within s.depth s) :
    (M.write t s).1 = .done ∧ (M.write t s).2.depth = s.depth ∧
      M.Within (s.depth + 1) (M.write t s).2 := by
  rw [write, if_pos ⟨h.nonneg, h.lt⟩]
  refine ⟨rfl, rfl, safe_logged.2 ⟨h.safe, h.nonneg, h.lt⟩, h.nonneg, h.lt, fun i hi => ?_⟩
  have hpos := h.nonneg
  by_cases he : i = s.depth.toNat
  · simp [he]
  · exact (Function.update_of_ne he _ _).trans_ne (h.filled i (by omega))

section Exec

variable {callee : Call → State Tok Site → Result Tok Site Exn}
  {jcallee : Bool → Call → Judgement Site Exn}
  (hc : ∀ c s, M.Frame (s.depth + 1) s (callee c s).2)
  (hj : ∀ c s, M.Follows s (callee c s) (jcallee s.shortCircuit c))

include hc hj

theorem execEach_bounded {xs : List (Tok × Prog Call Tok Site Exn)}
    (hx : ∀ x ∈ xs, ∀ s, M.Within (s.depth + 1) s →
      M.Bounded s (M.exec callee x.2 s) (x.2.judge jcallee s.shortCircuit)) :
    ∀ s, M.Within s.depth s → (xs = [] → M.Within (s.depth + 1) s) →
      M.Bounded s (M.execEach callee xs s) (Prog.judgeEach jcallee s.shortCircuit xs) := by
  induction xs with
  | nil =>
    intro s _ h
    exact Bounded.of_within (h rfl) rfl (h rfl) (by simp [execEach]) (by simp [execEach])
  | cons x xs ih =>
    obtain ⟨t, p⟩ := x
    intro s h _
    obtain ⟨hdone, hdepth, hw⟩ := write_within t h
    have hq := (M.write_frame t s).mode hw.safe.stored
    rw [← hdepth] at hw
    rw [execEach, Result.andThen_of_done hdone, Prog.judgeEach, ← hq]
    have hgo : M.Bounded (M.write t s).2 ((M.exec callee p (M.write t s).2).andThen
        (M.execEach callee xs)) ((p.judge jcallee (M.write t s).2.shortCircuit).andThen
          (Prog.judgeEach jcallee (M.write t s).2.shortCircuit xs)) := by
      refine (hx (t, p) (by simp) _ hw).andThen (exec_follows hc hj p _)
        (execEach_frame (fun x _ => exec_frame hc x.2) _) fun hw₂ => ?_
      rw [← (exec_frame hc p _).mode hw₂.safe.stored]
      exact ih (fun x hx' => hx x (by simp [hx'])) _
        ⟨hw₂.safe, hw₂.nonneg, hw₂.lt, fun i hi => hw₂.filled i (by omega)⟩ fun _ => hw₂
    exact ⟨fun h => hgo.within (by omega), fun h => hgo.ne_tooDeep (by omega),
      fun h => hgo.ne_badPath (by omega), fun h => hgo.out (by omega)⟩

omit hj in
/-- Elements within the stack start within the stack. -/
theorem depth_lt_of_safe {x : Tok × Prog Call Tok Site Exn}
    {xs : List (Tok × Prog Call Tok Site Exn)}
    (h : M.Safe (M.execEach callee (x :: xs) s).2) : s.depth < M.max := by
  have hwrite : (M.write x.1 s).2.log = s.log ++ [.write s.depth] := by
    unfold write
    split_ifs
    · rfl
    · cases M.overrun x.1 s.toContext <;> rfl
  have hlog : (M.write x.1 s).2.log <+: (M.execEach callee (x :: xs) s).2.log := by
    by_cases hd : (M.write x.1 s).1 = .done
    · rw [execEach, Result.andThen_of_done hd]
      exact (element_frame hc x.2 xs _).log
    · rw [execEach, Result.andThen_of_ne hd]
  exact (h (.write s.depth) (hlog.subset (by rw [hwrite]; simp))).2

variable (hb : ∀ c s, M.Within (s.depth + 1) s →
  M.Bounded s (callee c s) (jcallee s.shortCircuit c))

include hb

theorem exec_bounded (p : Prog Call Tok Site Exn) : ∀ s, M.Within (s.depth + 1) s →
    M.Bounded s (M.exec callee p s) (p.judge jcallee s.shortCircuit) := by
  induction p with
  | skip => exact fun s h => Bounded.of_within h rfl h (by simp [exec]) (by simp [exec])
  | fail e => exact fun s h => yieldError_bounded e h
  | raise x => exact fun s h => Bounded.of_within h rfl h (by simp [exec]) (by simp [exec])
  | crash => exact fun s h => Bounded.of_within h rfl h (by simp [exec]) (by simp [exec])
  | seq p q ihp ihq =>
    intro s h
    refine (ihp s h).andThen (exec_follows hc hj p s) (exec_frame hc q _) fun hw => ?_
    exact (exec_frame hc p s).mode hw.safe.stored ▸ ihq _ hw
  | call c => exact fun s h => hb c s h
  | guarded c k ih =>
    intro s h
    have hq := hb c (s.mode true) ⟨h.safe, h.nonneg, h.lt, h.filled⟩
    have hp : M.Bounded s (protect callee c s) (jcallee true c) := by
      refine ⟨fun hlt => ?_, hq.ne_tooDeep, hq.ne_badPath, hq.out⟩
      have := hq.within hlt
      exact ⟨this.safe, this.nonneg, this.lt, this.filled⟩
    exact hp.branch (protect_follows hj c s) (fun b => exec_frame hc (k b) _) fun b => ih b _
  | each xs ih =>
    intro s h
    have hmax : ¬ (M.max : ℤ) < s.depth + 1 := by have := h.lt; omega
    simp only [exec, Prog.judge, if_neg hmax]
    cases xs with
    | nil =>
      have hl : (M.execEach callee [] (s.enter false)).leave
          = (.done, (s.enter false).leave) := Result.leave_of_done _ rfl
      rw [show (!([] : List (Tok × Prog Call Tok Site Exn)).isEmpty) = false from rfl, hl]
      have hd : (s.enter false).leave.depth = s.depth := by simp
      refine Bounded.of_within h rfl ?_ (by simp) (by simp)
      exact ⟨safe_logged.2 ⟨h.safe, trivial⟩, by rw [hd]; exact h.nonneg, by rw [hd]; exact h.lt,
        by rw [hd]; exact h.filled⟩
    | cons x xs =>
      simp only [List.isEmpty_cons, Bool.not_false, Bool.false_eq_true, if_false]
      have hsafe : ∀ r : Result Tok Site Exn, M.Safe r.leave.2 ↔ M.Safe r.2 := by simp [Safe]
      have hf : M.Frame (s.enter true).depth (s.enter true)
          (M.execEach callee (x :: xs) (s.enter true)).2 :=
        execEach_frame (fun x _ => exec_frame hc x.2) _
      by_cases hlt : s.depth + 1 < M.max
      · have he := execEach_bounded hc hj ih (s.enter true)
          ⟨safe_logged.2 ⟨h.safe, trivial⟩, by have := h.nonneg; simp; omega, hlt,
            by simpa using h.filled⟩ (by simp)
        rw [State.shortCircuit_enter] at he
        obtain ⟨hwithin, hdeep, hbad, hout⟩ := he
        have hl := (M.execEach callee (x :: xs) (s.enter true)).depth_leave
        simp only [State.depth_enter] at hwithin hdeep hbad hout
        have hcast : (((Prog.judgeEach jcallee s.shortCircuit (x :: xs)).deepen.peak : ℕ) : ℤ)
            = (Prog.judgeEach jcallee s.shortCircuit (x :: xs)).peak + 1 := rfl
        refine ⟨fun h' => ?_, fun h' => ?_, fun h' => ?_, fun h' => ?_⟩ <;> rw [hcast] at h'
        · have hw := hwithin (by omega)
          have hdepth := hf.depth hw.safe.stored
          have := hw.lt
          have := h.nonneg
          rw [State.depth_enter] at hdepth
          refine ⟨(hsafe _).2 hw.safe, by omega, by omega, fun i hi => ?_⟩
          rw [Result.path_leave]
          exact hw.filled i (by omega)
        · simpa using hdeep (by omega)
        · simpa using hbad (by omega)
        · rw [hsafe]
          exact hout (by omega)
      · -- the guard admits the last depth, and the first store is past the last slot
        have hout : ¬ M.Safe (M.execEach callee (x :: xs) (s.enter true)).leave.2 := by
          rw [hsafe]
          exact fun hs => hlt (depth_lt_of_safe hc hs)
        have hpeak : (M.max : ℤ)
            ≤ s.depth + (Prog.judgeEach jcallee s.shortCircuit (x :: xs)).deepen.peak := by
          simp only [Judgement.deepen]
          push_cast
          omega
        exact ⟨fun h => by omega, fun h => by omega, fun h => by omega, fun _ => hout⟩

end Exec

variable (M) in
theorem run_bounded (n : ℕ) : ∀ c s, M.Within (s.depth + 1) s →
    M.Bounded s (M.run n c s) (M.judge n s.shortCircuit c) := by
  induction n with
  | zero => exact fun c s h => Bounded.of_within h rfl h (by simp [run]) (by simp [run])
  | succ n ih =>
    intro c s h
    have hb := exec_bounded (run_frame M n) (run_follows M n) ih (M.body c)
      (s.logged (.read s.depth)) (h.logged h.lt)
    exact ⟨hb.within, hb.ne_tooDeep, hb.ne_badPath, hb.out⟩

variable (M) in
/-- **When a run leaves the stack.** From a depth within the stack, the accesses of a run stay
within the stack if and only if its highest store does. -/
theorem run_safe_iff (n : ℕ) (c : Call) (h : M.Within (s.depth + 1) s) :
    M.Safe (M.run n c s).2 ↔ s.depth + (M.judge n s.shortCircuit c).peak < M.max := by
  have hb := run_bounded M n c s h
  refine ⟨fun hs => ?_, fun hlt => (hb.within hlt).safe⟩
  by_contra hlt
  exact hb.out (not_lt.1 hlt) hs

variable (M) in
/-- A run within the stack of a call that passes ends as deep as its judgement says. -/
theorem run_done {n : ℕ} {c : Call} {j : Judgement Site Exn} (h : M.Within (s.depth + 1) s)
    (hj : M.judge n s.shortCircuit c = j) (hx : j.exit = .pass)
    (hlt : s.depth + j.peak < M.max) :
    (M.run n c s).1 = .done ∧ (M.run n c s).2.depth = s.depth + j.leak ∧
      M.Within ((M.run n c s).2.depth + 1) (M.run n c s).2 := by
  have hb := run_bounded M n c s h
  rw [hj] at hb
  have hw := hb.within hlt
  have hdeep := hb.ne_tooDeep hlt
  have hbad := hb.ne_badPath hlt
  have ht := run_follows M n c s hw.safe.stored
  rw [hj] at ht
  cases ho : (M.run n c s).1 with
  | done => exact ⟨rfl, by rw [ho] at ht; exact ht.2, hw⟩
  | tooDeep => exact absurd ho hdeep
  | badPath => exact absurd ho hbad
  | crashed => simp [ho, Tracks, hx, hw.safe] at ht
  | _ => simp [ho, Tracks, hx] at ht

end Machine

end Traversal
