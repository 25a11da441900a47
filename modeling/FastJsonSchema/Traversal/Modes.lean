import FastJsonSchema.Traversal.Frame

/-!
# The two modes agree

A loud run that ends goes on after a failure, where the quiet run of the same program leaves at
the first one. Up to that failure the two runs are in lockstep, also through the guarded calls,
which run quietly in both. So the quiet run ends without an exit exactly when the loud run
reports nothing (`run_agrees`, `guards_of_runs`).
-/

namespace Traversal

variable {Call Tok Site Exn : Type}

namespace Machine

variable (M : Machine Call Tok Site Exn)

/-- The loud result `r` and the quiet result `r'` of one program run from `s`: if the loud run
ends within the stack, either it reported nothing and the quiet one ends in the same state, or
it reported something and the quiet one left. -/
def Agrees (s : State Tok Site) (r r' : Result Tok Site Exn) : Prop :=
  M.Safe r.2 → r.1 = .done →
    r.2.errors = s.errors ∧ r' = (.done, r.2.mode true) ∨
      r.2.errors ≠ s.errors ∧ r'.1 = .thrown

variable {M} {s : State Tok Site} {r r' : Result Tok Site Exn}

theorem errors_ne_trans {s₁ s₂ : State Tok Site} (h : s.errors <+: s₁.errors)
    (h' : s₁.errors <+: s₂.errors) (hne : s₁.errors ≠ s.errors) : s₂.errors ≠ s.errors := by
  intro he
  rw [he] at h'
  exact hne (h'.eq_of_length_le h.length_le)

/-- Agreement passes through sequencing: `f` and `f'` go on from the loud and the quiet state. -/
theorem Agrees.andThen {f f' : State Tok Site → Result Tok Site Exn} {b b' : ℤ}
    (h : M.Agrees s r r') (hr : M.Frame b s r.2) (hf : M.Frame b' r.2 (f r.2).2)
    (ha : M.Safe r.2 → M.Agrees r.2 (f r.2) (f' (r.2.mode true))) :
    M.Agrees s (r.andThen f) (r'.andThen f') := by
  intro hs hd
  by_cases hdone : r.1 = .done
  · rw [Result.andThen_of_done hdone] at hs hd ⊢
    have hs₁ : M.Safe r.2 := hs.mono hf.log
    rcases h hs₁ hdone with ⟨he, rfl⟩ | ⟨hne, ht⟩
    · rw [Result.andThen_of_done rfl, ← he]
      exact ha hs₁ hs hd
    · refine .inr ⟨errors_ne_trans hr.errors hf.errors hne, ?_⟩
      rw [Result.andThen_of_ne (by simp [ht]), ht]
  · rw [Result.andThen_of_ne hdone] at hd
    exact absurd hd hdone

theorem agrees_done (s : State Tok Site) :
    M.Agrees s (.done, s) (.done, s.mode true) := fun _ _ => .inl ⟨rfl, rfl⟩

theorem yieldError_agrees (e : Site) (hq : s.shortCircuit = false) :
    M.Agrees s (M.yieldError e s) (M.yieldError e (s.mode true)) := by
  intro _ hd
  refine .inr ⟨?_, by simp [yieldError]⟩
  unfold yieldError at hd ⊢
  simp only [hq, Bool.false_eq_true, if_false] at hd ⊢
  split_ifs at hd ⊢ with hmax
  cases hp : s.readPath with
  | none => simp [hp] at hd
  | some ts => simp

theorem write_agrees (t : Tok) (s : State Tok Site) :
    M.Agrees s (M.write t s) (M.write t (s.mode true)) := by
  intro hs _
  have hd : 0 ≤ s.depth ∧ s.depth < M.max := hs (.write s.depth) (by
    unfold write
    split_ifs
    · simp [State.logged]
    · cases M.overrun t s.toContext <;> simp [State.logged])
  have hd' : 0 ≤ (s.mode true).depth ∧ (s.mode true).depth < M.max := hd
  rw [write, write, if_pos hd, if_pos hd']
  exact .inl ⟨rfl, rfl⟩

section Exec

variable {callee : Call → State Tok Site → Result Tok Site Exn}

/-- A guarded call is the same in both modes. -/
theorem protect_mode_true (c : Call) (s : State Tok Site) :
    protect callee c (s.mode true) =
      ((protect callee c s).1, (protect callee c s).2.mode true) := rfl

variable (hc : ∀ c s, M.Frame (s.depth + 1) s (callee c s).2)
  (ha : ∀ c s, s.shortCircuit = false → M.Agrees s (callee c s) (callee c (s.mode true)))

include hc

theorem execEach_agrees {xs : List (Tok × Prog Call Tok Site Exn)}
    (hx : ∀ x ∈ xs, ∀ s, s.shortCircuit = false →
      M.Agrees s (M.exec callee x.2 s) (M.exec callee x.2 (s.mode true))) :
    ∀ s, s.shortCircuit = false →
      M.Agrees s (M.execEach callee xs s) (M.execEach callee xs (s.mode true)) := by
  induction xs with
  | nil => exact fun s _ => agrees_done s
  | cons x xs ih =>
    obtain ⟨t, p⟩ := x
    intro s hq
    have hw := M.write_frame t s
    have hp := fun s => exec_frame hc p s
    refine (write_agrees t s).andThen hw (element_frame hc p xs _) fun hs₁ => ?_
    have hq₁ := (hw.mode hs₁.stored).trans hq
    refine (hx (t, p) (by simp) _ hq₁).andThen (hp _)
      (execEach_frame (fun x _ => exec_frame hc x.2) _) fun hs₂ => ?_
    exact ih (fun x hx' => hx x (by simp [hx'])) _ (((hp _).mode hs₂.stored).trans hq₁)

include ha

/-- Agreement of a program, given the agreement of its calls. -/
theorem exec_agrees (p : Prog Call Tok Site Exn) : ∀ s, s.shortCircuit = false →
    M.Agrees s (M.exec callee p s) (M.exec callee p (s.mode true)) := by
  induction p with
  | skip => exact fun s _ => agrees_done s
  | fail e => exact fun s hq => yieldError_agrees e hq
  | raise x => exact fun s _ _ hd => absurd hd (by simp [exec])
  | crash => exact fun s _ _ hd => absurd hd (by simp [exec])
  | seq p q ihp ihq =>
    intro s hq
    exact (ihp s hq).andThen (exec_frame hc p s) (exec_frame hc q _) fun hs =>
      ihq _ (((exec_frame hc p s).mode hs.stored).trans hq)
  | call c => exact fun s hq => ha c s hq
  | guarded c k ih =>
    intro s hq hs hd
    have hp := protect_frame hc c s
    have hpq := (hc c (s.mode true)).quiet
    simp only [exec, protect_mode_true] at hs hd ⊢
    -- the quiet run of the frame reports nothing, so both runs go on from one state
    have hgo : ∀ b, M.Safe (M.exec callee (k b) (protect callee c s).2).2 →
        (M.exec callee (k b) (protect callee c s).2).1 = .done → _ := fun b hs hd =>
      ih b (protect callee c s).2 hq hs hd
    have herr : ∀ b, M.Safe (M.exec callee (k b) (protect callee c s).2).2 →
        (protect callee c s).2.errors = s.errors := fun b hs =>
      hpq (Safe.mono hs (exec_frame hc (k b) (protect callee c s).2).log).stored rfl
    cases ho : (protect callee c s).1 with
    | done =>
      simp only [Result.branch, ho] at hs hd ⊢
      rw [← herr true hs]
      exact hgo true hs hd
    | thrown =>
      simp only [Result.branch, ho] at hs hd ⊢
      rw [← herr false hs]
      exact hgo false hs hd
    | _ =>
      simp only [Result.branch, ho] at hd
      exact absurd hd (by simp)
  | each xs ih =>
    intro s hq
    have he := execEach_agrees hc ih (s.enter !xs.isEmpty) hq
    intro hs hd
    simp only [exec] at hs hd ⊢
    split_ifs at hs hd ⊢ with hmax hmax'
    · exact absurd hmax' hmax
    · rw [show (s.mode true).enter (!xs.isEmpty) = (s.enter !xs.isEmpty).mode true from rfl]
      have hdone : (M.execEach callee xs (s.enter !xs.isEmpty)).1 = .done := by simpa using hd
      rw [Result.leave_of_done _ hdone] at hs ⊢
      rcases he hs hdone with ⟨heq, hr⟩ | ⟨hne, ht⟩
      · rw [hr]
        exact .inl ⟨heq, rfl⟩
      · exact .inr ⟨hne, by rw [Result.leave_of_ne _ (by simp [ht]), ht]⟩

end Exec

variable (M) in
theorem run_agrees (n : ℕ) : ∀ c s, s.shortCircuit = false →
    M.Agrees s (M.run n c s) (M.run n c (s.mode true)) := by
  induction n with
  | zero => exact fun c s _ _ hd => absurd hd (by simp [run])
  | succ n ih => exact fun c s hq => exec_agrees (run_frame M n) ih (M.body c) _ hq

/-- **The two modes agree.** When a loud run ends within the stack, a guarded call of the same
target returns, and its verdict is positive exactly when the loud run reported nothing. -/
theorem guards_of_runs {c : Call} (hq : s.shortCircuit = false) (h : M.Runs c s r)
    (hs : M.Safe r.2) (hd : r.1 = .done) :
    ∃ r' b, M.Guards c s r' ∧ r'.verdict = some b ∧ (r.2.errors ≠ s.errors ↔ b = false) := by
  obtain ⟨n, rfl, hr⟩ := h
  rcases run_agrees M n c s hq hs hd with ⟨he, hr'⟩ | ⟨hne, ht⟩
  · refine ⟨_, true, ⟨n, rfl, by simp [hr']⟩, by simp [Result.verdict, hr'], by simp [he]⟩
  · refine ⟨_, false, ⟨n, rfl, by simp [ht]⟩, by simp [Result.verdict, ht], by simp [hne]⟩

end Machine

end Traversal
