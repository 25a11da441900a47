import FastJsonSchema.Traversal.Bounds

/-!
# What a check reports

A check is a piece of a program that reports one failure, or nothing. `M.Reports p b e` says that
every loud run of `p` from a state within the stack ends normally, and that it reports `e` exactly
when `b` holds. The rules below say when a check does so, by what it does: it fails under a
condition, or it fails elsewhere, raises, or dies.

`M.ComesTo q p` says that `q` is a piece of `p`, behind guarded calls whose verdicts lead to it. A
loud run of `p` that ends normally runs `q` on the way (`ComesTo.exec`).
-/

namespace Traversal

variable {Call Tok Site Exn : Type}

namespace Machine

variable {M : Machine Call Tok Site Exn} {p : Prog Call Tok Site Exn} {b : Prop} {c : Bool}
  {e e' : Site} {x : Exn} {s : State Tok Site}

/-- The states in which a check may start: loud, and within the stack. -/
structure Ready (M : Machine Call Tok Site Exn) (s : State Tok Site) : Prop where
  loud : s.shortCircuit = false
  within : M.Within (s.depth + 1) s

/-- From `s`, whatever the calls do, `p` ends normally and reports `e` exactly when `b` holds. -/
structure ReportsFrom (M : Machine Call Tok Site Exn) (p : Prog Call Tok Site Exn) (b : Prop)
    (e : Site) (s : State Tok Site)
    (callee : Call → State Tok Site → Result Tok Site Exn) : Prop where
  done : (M.exec callee p s).1 = .done
  reports : (∃ ts, (M.exec callee p s).2.errors = s.errors ++ [(e, ts)]) ↔ b

/-- Every run of `p` that may start ends normally and reports `e` exactly when `b` holds. -/
def Reports (M : Machine Call Tok Site Exn) (p : Prog Call Tok Site Exn) (b : Prop) (e : Site) :
    Prop :=
  ∀ s callee, M.Ready s → M.ReportsFrom p b e s callee

/-- A failure in the loud mode is reported with the path on the stack. -/
theorem Ready.yieldError (h : M.Ready s) (e : Site) : ∃ ts,
    M.yieldError e s =
      (.done, { s.logged (.read s.depth) with errors := s.errors ++ [(e, ts)] }) := by
  obtain ⟨ts, hts⟩ := readPath_isSome h.within
  refine ⟨ts, ?_⟩
  rw [Machine.yieldError, h.loud, if_neg Bool.false_ne_true, if_neg (not_le.2 h.within.lt), hts]

/-- A check that fails under a condition, from one state. -/
theorem reportsFrom_failWhen_iff (h : M.Ready s)
    {callee : Call → State Tok Site → Result Tok Site Exn} :
    M.ReportsFrom (.when c (.fail e')) b e s callee ↔ (e = e' ∧ c = true ↔ b) := by
  obtain ⟨ts, hts⟩ := h.yieldError e'
  have hexec : M.exec callee (.when c (.fail e')) s =
      if c then (.done, { s.logged (.read s.depth) with errors := s.errors ++ [(e', ts)] })
      else (.done, s) := by
    cases c
    · rfl
    · exact hts
  have hreports : (∃ ts, (M.exec callee (.when c (.fail e')) s).2.errors = s.errors ++ [(e, ts)]) ↔
      e = e' ∧ c = true := by
    rw [hexec]
    cases c with
    | false => simp
    | true =>
      constructor
      · rintro ⟨ts', heq⟩
        have hpair := List.singleton_inj.1 (List.append_cancel_left heq)
        exact ⟨(Prod.mk.inj hpair).1.symm, rfl⟩
      · rintro ⟨rfl, -⟩
        exact ⟨ts, rfl⟩
  constructor
  · intro hr
    rw [← hreports]
    exact hr.reports
  · intro hb
    refine ⟨?_, hreports.trans hb⟩
    rw [hexec]
    cases c <;> rfl

section Rules

variable (hs : M.Ready s)

include hs

theorem reports_failWhen_iff :
    M.Reports (.when c (.fail e')) b e ↔ (e = e' ∧ c = true ↔ b) :=
  ⟨fun h => (reportsFrom_failWhen_iff hs).1 (h s (fun _ s => (.done, s)) hs),
    fun h _ _ hs' => (reportsFrom_failWhen_iff hs').2 h⟩

theorem reports_skip_iff : M.Reports .skip b e ↔ ¬ b := by
  have h : M.Reports (.when false (.fail e)) b e ↔ (e = e ∧ false = true ↔ b) :=
    reports_failWhen_iff hs
  rw [show (Prog.when false (.fail e) : Prog Call Tok Site Exn) = .skip from rfl] at h
  simpa using h

theorem not_reports_raise : ¬ M.Reports (.raise x) b e := by
  intro h
  cases (h s (fun _ s => (.done, s)) hs).done

theorem not_reports_crash : ¬ M.Reports .crash b e := by
  intro h
  cases (h s (fun _ s => (.done, s)) hs).done

end Rules

/-! ## The pieces of a program -/

variable (M) in
/-- The guarded call of `c` returns `v`. -/
def Gives (c : Call) (v : Bool) : Prop :=
  ∃ j, M.Judged true c j ∧ j.exit = if v then .pass else .fail

variable (M) in
/-- `q` is a piece of the program, where its guarded calls return what they return. -/
inductive ComesTo (q : Prog Call Tok Site Exn) : Prog Call Tok Site Exn → Prop
  | here : ComesTo q q
  | left {p p' : Prog Call Tok Site Exn} (h : ComesTo q p) : ComesTo q (.seq p p')
  | right {p p' : Prog Call Tok Site Exn} (h : ComesTo q p') : ComesTo q (.seq p p')
  | guarded {c : Call} {k : Bool → Prog Call Tok Site Exn} {v : Bool} (hc : M.Gives c v)
    (h : ComesTo q (k v)) : ComesTo q (.guarded c k)

theorem ComesTo.block {q : Prog Call Tok Site Exn} {ps : List (Prog Call Tok Site Exn)}
    (hp : p ∈ ps) (h : M.ComesTo q p) : M.ComesTo q (.block ps) := by
  induction ps with
  | nil => exact absurd hp List.not_mem_nil
  | cons p' ps ih =>
    rcases List.mem_cons.1 hp with rfl | hp
    · exact .left h
    · exact .right (ih hp)

/-- A run within the stack ends within the stack. -/
theorem Ready.exec (h : M.Ready s) {n : ℕ} (hs : M.Safe (M.exec (M.run n) p s).2) :
    M.Ready (M.exec (M.run n) p s).2 := by
  have hb := exec_bounded (run_frame M n) (run_follows M n) (run_bounded M n) p s h.within
  refine ⟨((exec_frame (run_frame M n) p s).mode hs.stored).trans h.loud, hb.within ?_⟩
  by_contra hout
  exact hb.out (not_lt.1 hout) hs

/-- A guarded call within the stack ends within the stack. -/
theorem Ready.protect (h : M.Ready s) {n : ℕ} {c : Call}
    (hs : M.Safe (protect (M.run n) c s).2) : M.Ready (protect (M.run n) c s).2 := by
  have hb := run_bounded M n c (s.mode true) ⟨h.within.safe, h.within.nonneg, h.within.lt,
    h.within.filled⟩
  refine ⟨h.loud, ?_⟩
  have hw := hb.within (by
    by_contra hout
    exact hb.out (not_lt.1 hout) hs)
  exact ⟨hw.safe, hw.nonneg, hw.lt, hw.filled⟩

/-- A guarded call that stores within the stack and returns has the verdict it gives. -/
theorem Gives.protect {c : Call} {v v' : Bool} (h : M.Gives c v) {n : ℕ}
    (hs : M.Stored (protect (M.run n) c s).2)
    (hv : (protect (M.run n) c s).1 = if v' then .done else .thrown) : v' = v := by
  obtain ⟨j, hj, hexit⟩ := h
  have hfollows := M.run_follows n c (s.mode true) hs
  rw [State.shortCircuit_mode] at hfollows
  have hv : (M.run n c (s.mode true)).1 = if v' then .done else .thrown := hv
  have hjudge : (M.judge n true c).exit = if v' then .pass else .fail := by
    cases v' <;> rw [hv] at hfollows <;> exact hfollows.1
  have heq := hj.unique ⟨n, rfl, by rw [hjudge]; cases v' <;> simp⟩
  rw [heq, hjudge] at hexit
  cases v <;> cases v' <;> simp_all

/-- **A loud run comes to the pieces of its program**: when it stays within the stack and ends
normally, it has run the piece from a state in which a check may start, and it reports what the
piece reports. -/
theorem ComesTo.exec {q : Prog Call Tok Site Exn} (h : M.ComesTo q p) {n : ℕ} :
    ∀ {s : State Tok Site}, M.Ready s → M.Safe (M.exec (M.run n) p s).2 →
      (M.exec (M.run n) p s).1 = .done → ∃ s', M.Ready s' ∧ s.errors <+: s'.errors ∧
        (M.exec (M.run n) q s').2.errors <+: (M.exec (M.run n) p s).2.errors := by
  have hframe := fun p : Prog Call Tok Site Exn => exec_frame (run_frame M n) p
  induction h with
  | here => exact fun hs _ _ => ⟨_, hs, List.prefix_refl _, List.prefix_refl _⟩
  | @left p p' h ih =>
    intro s hs hsafe hdone
    rw [Machine.exec] at hsafe hdone ⊢
    by_cases hd : (M.exec (M.run n) p s).1 = .done
    · rw [Result.andThen_of_done hd] at hsafe ⊢
      obtain ⟨s', hs', herrors, hq⟩ := ih hs (hsafe.mono (hframe p' _).log) hd
      exact ⟨s', hs', herrors, hq.trans (hframe p' _).errors⟩
    · rw [Result.andThen_of_ne hd] at hdone
      exact absurd hdone hd
  | @right p p' h ih =>
    intro s hs hsafe hdone
    rw [Machine.exec] at hsafe hdone ⊢
    by_cases hd : (M.exec (M.run n) p s).1 = .done
    · rw [Result.andThen_of_done hd] at hsafe hdone ⊢
      obtain ⟨s', hs', herrors, hq⟩ := ih (hs.exec (hsafe.mono (hframe p' _).log)) hsafe hdone
      exact ⟨s', hs', (hframe p s).errors.trans herrors, hq⟩
    · rw [Result.andThen_of_ne hd] at hdone
      exact absurd hdone hd
  | @guarded c k v hc h ih =>
    intro s hs hsafe hdone
    rw [Machine.exec, Result.branch] at hsafe hdone ⊢
    have hp := protect_frame (run_frame M n) c s
    -- the run goes on with the verdict that the call gives
    have hgo : ∀ v', (protect (M.run n) c s).1 = (if v' then .done else .thrown) →
        M.Safe (M.exec (M.run n) (k v') (protect (M.run n) c s).2).2 →
          (M.exec (M.run n) (k v') (protect (M.run n) c s).2).1 = .done → ∃ s', M.Ready s' ∧
            s.errors <+: s'.errors ∧ (M.exec (M.run n) q s').2.errors <+:
              (M.exec (M.run n) (k v') (protect (M.run n) c s).2).2.errors := by
      intro v' hv' hsafe hdone
      have hsafe₁ := hsafe.mono (hframe (k v') _).log
      obtain rfl := hc.protect hsafe₁.stored hv'
      obtain ⟨s', hs', herrors, hq⟩ := ih (hs.protect hsafe₁) hsafe hdone
      exact ⟨s', hs', hp.errors.trans herrors, hq⟩
    cases ho : (protect (M.run n) c s).1 with
    | done =>
      rw [ho] at hsafe hdone
      exact hgo true ho hsafe hdone
    | thrown =>
      rw [ho] at hsafe hdone
      exact hgo false ho hsafe hdone
    | _ =>
      rw [ho] at hdone
      exact absurd (ho.symm.trans hdone) (by simp)

end Machine

end Traversal
