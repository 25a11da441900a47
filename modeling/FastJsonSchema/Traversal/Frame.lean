import FastJsonSchema.Traversal.Run

/-!
# What a run leaves alone

A run extends the log and the list of reports, and when all its stores stay within the stack it
keeps the mode, ends no shallower than it started, and keeps every slot up to the depth it
started at (`exec_frame`, `run_frame`). In the quiet mode it reports nothing.

The depth itself is only bounded from below: an exit out of `each` skips the pop.
-/

namespace Traversal

variable {Call Tok Site Exn : Type}

namespace Machine

variable {M : Machine Call Tok Site Exn} {s s' s'' : State Tok Site}

theorem Safe.mono (h : M.Safe s') (hlog : s.log <+: s'.log) : M.Safe s :=
  fun a ha => h a (hlog.subset ha)

theorem Stored.mono (h : M.Stored s') (hlog : s.log <+: s'.log) : M.Stored s :=
  fun i hi => h i (hlog.subset hi)

theorem safe_logged {a : Access} : M.Safe (s.logged a) ↔ M.Safe s ∧ M.InRange a := by
  simp only [Safe, State.logged, List.mem_append, List.mem_singleton]
  exact ⟨fun h => ⟨fun x hx => h x (.inl hx), h a (.inr rfl)⟩,
    fun ⟨h, ha⟩ x hx => hx.elim (h x) fun e => e ▸ ha⟩

variable (M) in
/-- The frame of a run from `s` to `s'`, for the slots below `b`. -/
structure Frame (b : ℤ) (s s' : State Tok Site) : Prop where
  log : s.log <+: s'.log
  errors : s.errors <+: s'.errors
  mode : M.Stored s' → s'.shortCircuit = s.shortCircuit
  depth : M.Stored s' → s.depth ≤ s'.depth
  path : M.Stored s' → ∀ i : ℕ, (i : ℤ) < b → s'.path i = s.path i
  quiet : M.Stored s' → s.shortCircuit = true → s'.errors = s.errors

namespace Frame

variable {b b' : ℤ}

theorem refl (b : ℤ) (s : State Tok Site) : M.Frame b s s :=
  ⟨List.prefix_refl _, List.prefix_refl _, fun _ => rfl, fun _ => le_rfl, fun _ _ _ => rfl,
    fun _ _ => rfl⟩

theorem weaken (h : M.Frame b s s') (hb : b' ≤ b) : M.Frame b' s s' :=
  ⟨h.log, h.errors, h.mode, h.depth, fun hs i hi => h.path hs i (hi.trans_le hb), h.quiet⟩

theorem trans (h : M.Frame b s s') (h' : M.Frame b' s' s'') (hb : M.Stored s' → b ≤ b') :
    M.Frame b s s'' where
  log := h.log.trans h'.log
  errors := h.errors.trans h'.errors
  mode hs := (h'.mode hs).trans (h.mode (hs.mono h'.log))
  depth hs := (h.depth (hs.mono h'.log)).trans (h'.depth hs)
  path hs i hi :=
    (h'.path hs i (hi.trans_le (hb (hs.mono h'.log)))).trans (h.path (hs.mono h'.log) i hi)
  quiet hs hq :=
    (h'.quiet hs ((h.mode (hs.mono h'.log)).trans hq)).trans (h.quiet (hs.mono h'.log) hq)

theorem logged (b : ℤ) (s : State Tok Site) (a : Access) : M.Frame b s (s.logged a) :=
  ⟨List.prefix_append _ _, List.prefix_refl _, fun _ => rfl, fun _ => le_rfl, fun _ _ _ => rfl,
    fun _ _ => rfl⟩

theorem andThen {r : Result Tok Site Exn} {f : State Tok Site → Result Tok Site Exn}
    (h : M.Frame b s r.2) (hf : M.Frame b' r.2 (f r.2).2) (hb : M.Stored r.2 → b ≤ b') :
    M.Frame b s (r.andThen f).2 := by
  by_cases hd : r.1 = .done
  · rw [Result.andThen_of_done hd]
    exact h.trans hf hb
  · rwa [Result.andThen_of_ne hd]

theorem branch {r : Result Tok Site Exn} {f : Bool → State Tok Site → Result Tok Site Exn}
    (h : M.Frame b s r.2) (hf : ∀ v, M.Frame b' r.2 (f v r.2).2) (hb : M.Stored r.2 → b ≤ b') :
    M.Frame b s (r.branch f).2 := by
  obtain ⟨o, s'⟩ := r
  cases o with
  | done => exact h.trans (hf true) hb
  | thrown => exact h.trans (hf false) hb
  | _ => exact h

end Frame

theorem yieldError_frame (e : Site) (s : State Tok Site) :
    M.Frame (s.depth + 1) s (M.yieldError e s).2 := by
  unfold yieldError
  split_ifs with hq
  · exact Frame.refl _ _
  · exact Frame.logged _ _ _
  · cases s.readPath with
    | none => exact Frame.logged _ _ _
    | some ts =>
      exact ⟨List.prefix_append _ _, List.prefix_append _ _, fun _ => rfl, fun _ => le_rfl,
        fun _ _ _ => rfl, fun _ h => absurd h hq⟩

/-- A store within the stack keeps the slots below it; any other store is in the log. -/
theorem write_frame (t : Tok) (s : State Tok Site) : M.Frame s.depth s (M.write t s).2 := by
  unfold write
  split_ifs with hd
  · refine ⟨List.prefix_append _ _, List.prefix_refl _, fun _ => rfl, fun _ => le_rfl,
      fun _ i hi => ?_, fun _ _ => rfl⟩
    exact Function.update_of_ne (by omega) _ _
  · have hout : ∀ c : Context Tok,
        ¬ M.Stored { s.logged (.write s.depth) with toContext := c } :=
      fun c hs => hd (hs s.depth (by simp [State.logged]))
    cases M.overrun t s.toContext with
    | none => exact Frame.logged _ _ _
    | some c =>
      exact ⟨List.prefix_append _ _, List.prefix_refl _, fun h => absurd h (hout c),
        fun h => absurd h (hout c), fun h => absurd h (hout c), fun h => absurd h (hout c)⟩

section Exec

variable {callee : Call → State Tok Site → Result Tok Site Exn}

theorem protect_frame (hc : ∀ c s, M.Frame (s.depth + 1) s (callee c s).2) (c : Call)
    (s : State Tok Site) : M.Frame (s.depth + 1) s (protect callee c s).2 := by
  have h := hc c (s.mode true)
  refine ⟨h.log, h.errors, fun _ => rfl, h.depth, h.path, fun hs _ => h.quiet hs rfl⟩

theorem execEach_frame {xs : List (Tok × Prog Call Tok Site Exn)}
    (hx : ∀ x ∈ xs, ∀ s, M.Frame (s.depth + 1) s (M.exec callee x.2 s).2) :
    ∀ s, M.Frame s.depth s (M.execEach callee xs s).2 := by
  induction xs with
  | nil => exact fun s => Frame.refl _ _
  | cons x xs ih =>
    obtain ⟨t, p⟩ := x
    intro s
    have hw := M.write_frame t s
    have hp := hx (t, p) (by simp) (M.write t s).2
    refine hw.andThen ?_ hw.depth
    exact (hp.weaken (Int.lt_succ _).le).andThen (ih (fun x hx' => hx x (by simp [hx'])) _) hp.depth

/-- **The frame of a program**, given the frame of its calls. -/
theorem exec_frame (hc : ∀ c s, M.Frame (s.depth + 1) s (callee c s).2)
    (p : Prog Call Tok Site Exn) : ∀ s, M.Frame (s.depth + 1) s (M.exec callee p s).2 := by
  induction p with
  | skip => exact fun s => Frame.refl _ _
  | fail e => exact fun s => M.yieldError_frame e s
  | raise x => exact fun s => Frame.refl _ _
  | crash => exact fun s => Frame.refl _ _
  | seq p q ihp ihq =>
    intro s
    exact (ihp s).andThen (ihq _) fun hs => by have := (ihp s).depth hs; omega
  | call c => exact fun s => hc c s
  | guarded c k ih =>
    intro s
    have h := protect_frame hc c s
    exact h.branch (fun b => ih b _) fun hs => by have := h.depth hs; omega
  | each xs ih =>
    intro s
    have h := execEach_frame ih (s.enter !xs.isEmpty)
    have hlog : s.log <+: (M.execEach callee xs (s.enter !xs.isEmpty)).2.log :=
      (List.prefix_append _ _).trans h.log
    have hl := (M.execEach callee xs (s.enter !xs.isEmpty)).depth_leave
    simp only [exec]
    split_ifs with hd
    · exact ⟨List.prefix_append _ _, List.prefix_refl _, fun _ => rfl,
        fun _ => (Int.lt_succ s.depth).le, fun _ _ _ => rfl, fun _ _ => rfl⟩
    · have hs : M.Stored (M.execEach callee xs (s.enter !xs.isEmpty)).leave.2 ↔
          M.Stored (M.execEach callee xs (s.enter !xs.isEmpty)).2 := by simp [Stored]
      refine ⟨by simpa using hlog, by simpa using h.errors, ?_, ?_, ?_, ?_⟩ <;>
        intro hsafe <;> rw [hs] at hsafe
      · simpa using h.mode hsafe
      · have hdepth := h.depth hsafe
        rw [State.depth_enter] at hdepth
        omega
      · simpa using h.path hsafe
      · simpa using h.quiet hsafe

/-- The frame of an element and the elements after it. -/
theorem element_frame (hc : ∀ c s, M.Frame (s.depth + 1) s (callee c s).2)
    (p : Prog Call Tok Site Exn) (xs : List (Tok × Prog Call Tok Site Exn)) (s : State Tok Site) :
    M.Frame s.depth s ((M.exec callee p s).andThen (M.execEach callee xs)).2 :=
  ((exec_frame hc p s).weaken (Int.lt_succ _).le).andThen
    (execEach_frame (fun x _ => exec_frame hc x.2) _) (exec_frame hc p s).depth

end Exec

variable (M) in
/-- **The frame of a call.** -/
theorem run_frame (n : ℕ) : ∀ c s, M.Frame (s.depth + 1) s (M.run n c s).2 := by
  induction n with
  | zero => exact fun c s => Frame.refl _ _
  | succ n ih =>
    intro c s
    exact (Frame.logged _ s _).trans (exec_frame ih _ _) fun _ => le_rfl

end Machine

end Traversal
