import FastJsonSchema.Traversal.Prog

/-!
# Runs do not depend on the fuel

A run that ends with some fuel ends the same with more (`run_mono`), so the relations
`Machine.Runs` and `Machine.Guards` are deterministic (`Runs.unique`, `Guards.unique`).
-/

namespace Traversal

variable {Call Tok Site Exn : Type}

namespace Result

variable {r r' : Result Tok Site Exn}

theorem andThen_of_done {f : State Tok Site → Result Tok Site Exn} (h : r.1 = .done) :
    r.andThen f = f r.2 := by
  rw [andThen, h]

theorem andThen_of_ne {f : State Tok Site → Result Tok Site Exn} (h : r.1 ≠ .done) :
    r.andThen f = r := by
  obtain ⟨o, s⟩ := r
  cases o <;> simp_all [andThen]

theorem andThen_mono {f f' : State Tok Site → Result Tok Site Exn}
    (hr : r.1 ≠ .starved → r' = r) (hf : ∀ s, (f s).1 ≠ .starved → f' s = f s)
    (h : (r.andThen f).1 ≠ .starved) : r'.andThen f' = r.andThen f := by
  by_cases hs : r.1 = .starved
  · rw [andThen_of_ne (by simp [hs])] at h
    exact absurd hs h
  · rw [hr hs]
    by_cases hd : r.1 = .done
    · rw [andThen_of_done hd] at h
      rw [andThen_of_done hd, andThen_of_done hd, hf _ h]
    · rw [andThen_of_ne hd, andThen_of_ne hd]

theorem branch_mono {f f' : Bool → State Tok Site → Result Tok Site Exn}
    (hr : r.1 ≠ .starved → r' = r) (hf : ∀ b s, (f b s).1 ≠ .starved → f' b s = f b s)
    (h : (r.branch f).1 ≠ .starved) : r'.branch f' = r.branch f := by
  obtain ⟨o, s⟩ := r
  cases o with
  | starved => exact absurd rfl h
  | done => rw [hr (by simp)]; exact hf true s h
  | thrown => rw [hr (by simp)]; exact hf false s h
  | _ => rw [hr (by simp)]; rfl

section Leave

variable (r)

@[simp] theorem fst_leave : r.leave.1 = r.1 := by
  obtain ⟨o, s⟩ := r
  cases o <;> rfl

@[simp] theorem log_leave : r.leave.2.log = r.2.log := by
  obtain ⟨o, s⟩ := r
  cases o <;> rfl

@[simp] theorem path_leave : r.leave.2.path = r.2.path := by
  obtain ⟨o, s⟩ := r
  cases o <;> rfl

@[simp] theorem errors_leave : r.leave.2.errors = r.2.errors := by
  obtain ⟨o, s⟩ := r
  cases o <;> rfl

@[simp] theorem shortCircuit_leave : r.leave.2.shortCircuit = r.2.shortCircuit := by
  obtain ⟨o, s⟩ := r
  cases o <;> rfl

theorem leave_of_done (h : r.1 = .done) : r.leave = (.done, r.2.leave) := by
  rw [leave, andThen_of_done h]

theorem leave_of_ne (h : r.1 ≠ .done) : r.leave = r := andThen_of_ne h

/-- The pop takes one level at most. -/
theorem depth_leave : r.2.depth - 1 ≤ r.leave.2.depth ∧ r.leave.2.depth ≤ r.2.depth := by
  by_cases h : r.1 = .done
  · rw [leave_of_done r h, State.depth_leave]
    omega
  · rw [leave_of_ne r h]
    omega

end Leave

end Result

namespace Machine

variable (M : Machine Call Tok Site Exn)

@[simp] theorem protect_fst (callee : Call → State Tok Site → Result Tok Site Exn) (c : Call)
    (s : State Tok Site) : (protect callee c s).1 = (callee c (s.mode true)).1 := rfl

@[simp] theorem protect_snd (callee : Call → State Tok Site → Result Tok Site Exn) (c : Call)
    (s : State Tok Site) :
    (protect callee c s).2 = (callee c (s.mode true)).2.mode s.shortCircuit := rfl

section Mono

variable {callee callee' : Call → State Tok Site → Result Tok Site Exn}
  (hc : ∀ c s, (callee c s).1 ≠ .starved → callee' c s = callee c s)

include hc

theorem protect_mono (c : Call) (s : State Tok Site) (h : (protect callee c s).1 ≠ .starved) :
    protect callee' c s = protect callee c s := by
  rw [protect, hc c _ h, protect]

omit hc in
theorem execEach_mono {xs : List (Tok × Prog Call Tok Site Exn)}
    (hx : ∀ x ∈ xs, ∀ s, (M.exec callee x.2 s).1 ≠ .starved →
      M.exec callee' x.2 s = M.exec callee x.2 s) :
    ∀ s, (M.execEach callee xs s).1 ≠ .starved →
      M.execEach callee' xs s = M.execEach callee xs s := by
  induction xs with
  | nil => exact fun _ _ => rfl
  | cons x xs ih =>
    obtain ⟨t, p⟩ := x
    intro s h
    simp only [execEach] at h ⊢
    refine Result.andThen_mono (fun _ => rfl) (fun s' h' => ?_) h
    exact Result.andThen_mono (hx (t, p) (by simp) s')
      (fun s'' => ih (fun x hx' => hx x (by simp [hx'])) s'') h'

/-- If a call that ends keeps its result, so does a program. -/
theorem exec_mono (p : Prog Call Tok Site Exn) :
    ∀ s, (M.exec callee p s).1 ≠ .starved → M.exec callee' p s = M.exec callee p s := by
  induction p with
  | skip => exact fun _ _ => rfl
  | fail e => exact fun _ _ => rfl
  | raise x => exact fun _ _ => rfl
  | crash => exact fun _ _ => rfl
  | seq p q ihp ihq =>
    intro s h
    simp only [exec] at h ⊢
    exact Result.andThen_mono (ihp s) ihq h
  | call c =>
    intro s h
    simp only [exec] at h ⊢
    exact hc c s h
  | guarded c k ih =>
    intro s h
    simp only [exec] at h ⊢
    exact Result.branch_mono (protect_mono hc c s) ih h
  | each xs ih =>
    intro s h
    simp only [exec] at h ⊢
    split_ifs at h ⊢ with hd
    · rfl
    · rw [execEach_mono M ih _ (by simpa using h)]

end Mono

theorem run_succ_of_run (n : ℕ) : ∀ c s, (M.run n c s).1 ≠ .starved →
    M.run (n + 1) c s = M.run n c s := by
  induction n with
  | zero => exact fun _ _ h => absurd rfl h
  | succ n ih =>
    intro c s h
    exact M.exec_mono ih _ _ h

/-- **More fuel changes nothing.** -/
theorem run_mono {n m : ℕ} (hnm : n ≤ m) (c : Call) (s : State Tok Site)
    (h : (M.run n c s).1 ≠ .starved) : M.run m c s = M.run n c s := by
  induction m, hnm using Nat.le_induction with
  | base => rfl
  | succ m hm ih => rw [M.run_succ_of_run m c s (by rwa [ih]), ih]

variable {M} {c : Call} {s : State Tok Site} {r r' : Result Tok Site Exn}

theorem Runs.unique (h : M.Runs c s r) (h' : M.Runs c s r') : r = r' := by
  obtain ⟨n, hn, hr⟩ := h
  obtain ⟨n', hn', hr'⟩ := h'
  rcases le_total n n' with hle | hle
  · rw [← hn, ← hn', M.run_mono hle c s (by rwa [hn])]
  · rw [← hn, ← hn', M.run_mono hle c s (by rwa [hn'])]

/-- A guarded call is a run of the call in the quiet mode, with the mode restored. -/
theorem guards_iff : M.Guards c s r ↔
    ∃ r', M.Runs c (s.mode true) r' ∧ r = (r'.1, r'.2.mode s.shortCircuit) :=
  ⟨fun ⟨n, hn, hr⟩ => ⟨_, ⟨n, rfl, by rw [← hn] at hr; exact hr⟩, hn.symm⟩,
    fun ⟨_, ⟨n, hn, hr⟩, h⟩ => ⟨n, by rw [h, ← hn]; rfl, by rw [h]; exact hr⟩⟩

theorem Guards.unique (h : M.Guards c s r) (h' : M.Guards c s r') : r = r' := by
  obtain ⟨r₁, h₁, rfl⟩ := guards_iff.1 h
  obtain ⟨r₂, h₂, rfl⟩ := guards_iff.1 h'
  rw [h₁.unique h₂]

end Machine

end Traversal
