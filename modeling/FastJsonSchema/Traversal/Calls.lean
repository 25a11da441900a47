import FastJsonSchema.Traversal.Run

/-!
# The calls of a program

`Prog.calls` lists the calls that a program may make, whatever its state. A run depends on the
bodies of these calls only (`run_congr`), and it ends when the calls cannot go on forever
(`exists_fuel_of_acc`).
-/

namespace Traversal

variable {Call Tok Site Exn : Type}

namespace Prog

mutual

/-- The calls that a program may make. -/
def calls : Prog Call Tok Site Exn → List Call
  | .seq p q => p.calls ++ q.calls
  | .call c => [c]
  | .guarded c k => c :: ((k true).calls ++ (k false).calls)
  | .each xs => callsEach xs
  | _ => []

/-- The calls that the elements of a level may make. -/
def callsEach : List (Tok × Prog Call Tok Site Exn) → List Call
  | [] => []
  | (_, p) :: xs => p.calls ++ callsEach xs

end

theorem mem_callsEach {xs : List (Tok × Prog Call Tok Site Exn)} {c : Call} :
    c ∈ callsEach xs ↔ ∃ x ∈ xs, c ∈ x.2.calls := by
  induction xs with
  | nil => simp [callsEach]
  | cons x xs ih =>
    obtain ⟨t, p⟩ := x
    simp [callsEach, ih]

theorem mem_calls_seq {p q : Prog Call Tok Site Exn} {c : Call} :
    c ∈ (seq p q).calls ↔ c ∈ p.calls ∨ c ∈ q.calls := List.mem_append

theorem mem_calls_guarded {k : Bool → Prog Call Tok Site Exn} {c c' : Call} :
    c' ∈ (guarded c k).calls ↔ c' = c ∨ ∃ b, c' ∈ (k b).calls := by
  rw [calls, List.mem_cons, List.mem_append, Bool.exists_bool, or_comm (a := c' ∈ (k true).calls)]

theorem mem_calls_each {xs : List (Tok × Prog Call Tok Site Exn)} {c : Call} :
    c ∈ (each xs).calls ↔ ∃ x ∈ xs, c ∈ x.2.calls := mem_callsEach

/-- The calls of a program are in a set. -/
def CallsIn (P : Call → Prop) (p : Prog Call Tok Site Exn) : Prop := ∀ c ∈ p.calls, P c

namespace CallsIn

variable {P Q : Call → Prop} {p q : Prog Call Tok Site Exn}

theorem skip : CallsIn P (.skip : Prog Call Tok Site Exn) := fun _ h => absurd h List.not_mem_nil

theorem fail {e : Site} : CallsIn P (.fail e : Prog Call Tok Site Exn) :=
  fun _ h => absurd h List.not_mem_nil

theorem raise {x : Exn} : CallsIn P (.raise x : Prog Call Tok Site Exn) :=
  fun _ h => absurd h List.not_mem_nil

theorem crash : CallsIn P (.crash : Prog Call Tok Site Exn) :=
  fun _ h => absurd h List.not_mem_nil

theorem call {c : Call} (h : P c) : CallsIn P (.call c : Prog Call Tok Site Exn) :=
  fun _ hc => List.mem_singleton.1 hc ▸ h

theorem seq (hp : CallsIn P p) (hq : CallsIn P q) : CallsIn P (.seq p q) := fun c hc =>
  (mem_calls_seq.1 hc).elim (hp c) (hq c)

theorem guarded {c : Call} {k : Bool → Prog Call Tok Site Exn} (hc : P c)
    (hk : ∀ b, CallsIn P (k b)) : CallsIn P (.guarded c k) := by
  intro c' h
  rcases mem_calls_guarded.1 h with rfl | ⟨b, hb⟩
  · exact hc
  · exact hk b c' hb

theorem each {xs : List (Tok × Prog Call Tok Site Exn)} (h : ∀ x ∈ xs, CallsIn P x.2) :
    CallsIn P (.each xs) := by
  intro c hc
  obtain ⟨x, hx, hc⟩ := mem_calls_each.1 hc
  exact h x hx c hc

theorem block {ps : List (Prog Call Tok Site Exn)} (h : ∀ p ∈ ps, CallsIn P p) :
    CallsIn P (.block ps) := by
  induction ps with
  | nil => exact .skip
  | cons p ps ih =>
    exact .seq (h p List.mem_cons_self) (ih fun q hq => h q (List.mem_cons_of_mem p hq))

theorem when {b : Bool} (h : b = true → CallsIn P p) : CallsIn P (.when b p) := by
  cases b with
  | true => exact h rfl
  | false => exact .skip

theorem mono (h : CallsIn P p) (hPQ : ∀ c, P c → Q c) : CallsIn Q p := fun c hc => hPQ c (h c hc)

end CallsIn

end Prog

namespace Machine

/-! ## A run depends on its calls only -/

section Congr

variable {M M' : Machine Call Tok Site Exn}
  {callee callee' : Call → State Tok Site → Result Tok Site Exn}
  (hmax : M'.max = M.max) (hover : M'.overrun = M.overrun)

include hmax in
theorem yieldError_congr (e : Site) (s : State Tok Site) :
    M'.yieldError e s = M.yieldError e s := by
  rw [yieldError, yieldError, hmax]

include hmax hover

theorem write_congr (t : Tok) (s : State Tok Site) : M'.write t s = M.write t s := by
  rw [write, write, hmax, hover]

theorem execEach_congr {xs : List (Tok × Prog Call Tok Site Exn)}
    (hx : ∀ x ∈ xs, ∀ s, M'.exec callee' x.2 s = M.exec callee x.2 s) :
    ∀ s, M'.execEach callee' xs s = M.execEach callee xs s := by
  induction xs with
  | nil => exact fun _ => rfl
  | cons x xs ih =>
    obtain ⟨t, p⟩ := x
    obtain ⟨hp, hxs⟩ := List.forall_mem_cons.1 hx
    intro s
    rw [execEach, execEach, write_congr hmax hover]
    congr 1
    funext s'
    rw [hp s']
    congr 1
    funext s''
    exact ih hxs s''

/-- A program runs the same when its calls do. -/
theorem exec_congr (p : Prog Call Tok Site Exn)
    (hc : p.CallsIn fun c => ∀ s, callee' c s = callee c s) :
    ∀ s, M'.exec callee' p s = M.exec callee p s := by
  induction p with
  | skip => exact fun _ => rfl
  | fail e => exact yieldError_congr hmax e
  | raise x => exact fun _ => rfl
  | crash => exact fun _ => rfl
  | seq p q ihp ihq =>
    intro s
    rw [exec, exec, ihp fun c h => hc c (Prog.mem_calls_seq.2 (.inl h))]
    congr 1
    funext s'
    exact ihq (fun c h => hc c (Prog.mem_calls_seq.2 (.inr h))) s'
  | call c => exact hc c (List.mem_singleton.2 rfl)
  | guarded c k ih =>
    intro s
    rw [exec, exec, protect, protect, hc c (Prog.mem_calls_guarded.2 (.inl rfl))]
    congr 1
    funext b s'
    exact ih b (fun c' h => hc c' (Prog.mem_calls_guarded.2 (.inr ⟨b, h⟩))) s'
  | each xs ih =>
    intro s
    rw [exec, exec, hmax]
    congr 1
    rw [execEach_congr hmax hover]
    intro x hx
    exact ih x hx fun c h => hc c (Prog.mem_calls_each.2 ⟨x, hx, h⟩)

/-- **A run depends on the bodies of its calls only**: of those in a set that contains the first
call and with a call the calls of its body. -/
theorem run_congr {P : Call → Prop} (hP : ∀ c, P c → (M.body c).CallsIn P)
    (hbody : ∀ c, P c → M'.body c = M.body c) (n : ℕ) :
    ∀ c, P c → ∀ s, M'.run n c s = M.run n c s := by
  induction n with
  | zero => exact fun _ _ _ => rfl
  | succ n ih =>
    intro c hc s
    rw [run, run, hbody c hc]
    exact exec_congr hmax hover _ (fun c' hc' => ih c' (hP c hc c' hc')) _

end Congr

/-! ## Termination -/

section Termination

variable {M : Machine Call Tok Site Exn}

theorem andThen_ne_starved {r : Result Tok Site Exn} {f : State Tok Site → Result Tok Site Exn}
    (hr : r.1 ≠ .starved) (hf : ∀ s, (f s).1 ≠ .starved) : (r.andThen f).1 ≠ .starved := by
  by_cases h : r.1 = .done
  · rw [Result.andThen_of_done h]
    exact hf _
  · rw [Result.andThen_of_ne h]
    exact hr

theorem write_ne_starved (t : Tok) (s : State Tok Site) : (M.write t s).1 ≠ .starved := by
  unfold write
  split_ifs
  · simp
  · cases M.overrun t s.toContext <;> simp

theorem yieldError_ne_starved (e : Site) (s : State Tok Site) :
    (M.yieldError e s).1 ≠ .starved := by
  unfold yieldError
  split_ifs
  · simp
  · simp
  · cases s.readPath <;> simp

variable {callee : Call → State Tok Site → Result Tok Site Exn}

theorem execEach_ne_starved {xs : List (Tok × Prog Call Tok Site Exn)}
    (hx : ∀ x ∈ xs, ∀ s, (M.exec callee x.2 s).1 ≠ .starved) :
    ∀ s, (M.execEach callee xs s).1 ≠ .starved := by
  induction xs with
  | nil =>
    intro s
    simp [execEach]
  | cons x xs ih =>
    obtain ⟨t, p⟩ := x
    obtain ⟨hp, hxs⟩ := List.forall_mem_cons.1 hx
    intro s
    rw [execEach]
    exact andThen_ne_starved (write_ne_starved t s) fun s' =>
      andThen_ne_starved (hp s') (ih hxs)

/-- A program ends when its calls do. -/
theorem exec_ne_starved (p : Prog Call Tok Site Exn)
    (hc : p.CallsIn fun c => ∀ s, (callee c s).1 ≠ .starved) :
    ∀ s, (M.exec callee p s).1 ≠ .starved := by
  induction p with
  | skip =>
    intro s
    simp [exec]
  | fail e => exact yieldError_ne_starved e
  | raise x =>
    intro s
    simp [exec]
  | crash =>
    intro s
    simp [exec]
  | seq p q ihp ihq =>
    intro s
    rw [exec]
    refine andThen_ne_starved (ihp (fun c h => hc c ?_) s) (ihq fun c h => hc c ?_)
    · exact Prog.mem_calls_seq.2 (.inl h)
    · exact Prog.mem_calls_seq.2 (.inr h)
  | call c => exact hc c (List.mem_singleton.2 rfl)
  | guarded c k ih =>
    intro s
    have hcall := hc c (Prog.mem_calls_guarded.2 (.inl rfl)) (s.mode true)
    have hgo : ∀ b s', (M.exec callee (k b) s').1 ≠ .starved := fun b =>
      ih b fun c' h => hc c' (Prog.mem_calls_guarded.2 (.inr ⟨b, h⟩))
    rw [exec, Result.branch, protect]
    dsimp only
    cases ho : (callee c (s.mode true)).1 with
    | done => exact hgo true _
    | thrown => exact hgo false _
    | starved => exact absurd ho hcall
    | _ => simp
  | each xs ih =>
    intro s
    have hxs := @execEach_ne_starved _ _ _ _ M callee xs fun x hx =>
      ih x hx fun c h => hc c (Prog.mem_calls_each.2 ⟨x, hx, h⟩)
    rw [exec]
    split_ifs
    · simp
    · rw [Result.fst_leave]
      exact hxs _

/-- **A call ends from every state** when no chain of calls goes on forever. -/
theorem exists_fuel_of_acc {c : Call} (h : Acc (fun c' c => c' ∈ (M.body c).calls) c) :
    ∃ n, ∀ s, (M.run n c s).1 ≠ .starved := by
  induction h with
  | intro c _ ih =>
    -- one fuel for all calls of the body
    have hfuel : ∀ l : List Call, (∀ c' ∈ l, c' ∈ (M.body c).calls) →
        ∃ n, ∀ c' ∈ l, ∀ s, (M.run n c' s).1 ≠ .starved := by
      intro l
      induction l with
      | nil => exact fun _ => ⟨0, fun c' hc' => absurd hc' List.not_mem_nil⟩
      | cons c' l ihl =>
        intro hl
        have ⟨hc', hl'⟩ := List.forall_mem_cons.1 hl
        obtain ⟨n, hn⟩ := ih c' hc'
        obtain ⟨m, hm⟩ := ihl hl'
        refine ⟨n + m, List.forall_mem_cons.2 ⟨fun s => ?_, fun c'' hc'' s => ?_⟩⟩
        · rw [M.run_mono (Nat.le_add_right n m) c' s (hn s)]
          exact hn s
        · rw [M.run_mono (Nat.le_add_left m n) c'' s (hm c'' hc'' s)]
          exact hm c'' hc'' s
    obtain ⟨n, hn⟩ := hfuel (M.body c).calls fun _ h => h
    exact ⟨n + 1, fun s => exec_ne_starved (M.body c) hn _⟩

end Termination

end Machine

end Traversal
