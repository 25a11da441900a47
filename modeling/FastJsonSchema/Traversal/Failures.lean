import FastJsonSchema.Traversal.Location
import FastJsonSchema.Traversal.Solution

/-!
# What a checker reports

`Prog.failures` lists the failures of a program in the loud mode, given the verdicts of the calls
it guards and the failures of those it makes: no stack, no mode and no exit is part of it. Where the
calls lead down a well-founded relation, the lists of all calls are determined by their equations,
and the judgement of a call in the loud mode reports its list: all of it when it passes, an initial
part of it when an exception or a trap cuts it short (`exists_judge_lists`).
-/

namespace Traversal

variable {Call Tok Site Exn : Type}

mutual

/-- The failures of a program, given the verdicts of the calls it guards and the failures of those
it makes. -/
def Prog.failures (f : Call → Bool) (E : Call → List Site) : Prog Call Tok Site Exn → List Site
  | .fail e => [e]
  | .seq p q => p.failures f E ++ q.failures f E
  | .call c => E c
  | .guarded c k => (k (f c)).failures f E
  | .each xs => Prog.failuresEach f E xs
  | _ => []

/-- The failures of the elements of a level. -/
def Prog.failuresEach (f : Call → Bool) (E : Call → List Site) :
    List (Tok × Prog Call Tok Site Exn) → List Site
  | [] => []
  | (_, p) :: xs => p.failures f E ++ Prog.failuresEach f E xs

end

namespace Prog

section Failures

variable {f g : Call → Bool} {E E' : Call → List Site}

@[simp] theorem failures_skip : (skip : Prog Call Tok Site Exn).failures f E = [] := rfl

@[simp] theorem failures_raise (x : Exn) : (raise x : Prog Call Tok Site Exn).failures f E = [] :=
  rfl

@[simp] theorem failures_crash : (crash : Prog Call Tok Site Exn).failures f E = [] := rfl

@[simp] theorem failures_fail (e : Site) : (fail e : Prog Call Tok Site Exn).failures f E = [e] :=
  rfl

@[simp] theorem failures_seq (p q : Prog Call Tok Site Exn) :
    (seq p q).failures f E = p.failures f E ++ q.failures f E := rfl

@[simp] theorem failures_call (c : Call) : (call c : Prog Call Tok Site Exn).failures f E = E c :=
  rfl

@[simp] theorem failures_guarded (c : Call) (k : Bool → Prog Call Tok Site Exn) :
    (guarded c k).failures f E = (k (f c)).failures f E := rfl

@[simp] theorem failures_each (xs : List (Tok × Prog Call Tok Site Exn)) :
    (each xs).failures f E = xs.flatMap fun x => x.2.failures f E := by
  change failuresEach f E xs = _
  induction xs with
  | nil => rfl
  | cons x xs ih => rw [failuresEach, ih, List.flatMap_cons]

@[simp] theorem failures_block (ps : List (Prog Call Tok Site Exn)) :
    (block ps).failures f E = ps.flatMap (failures f E) := by
  induction ps with
  | nil => rfl
  | cons p ps ih => rw [block, failures_seq, ih, List.flatMap_cons]

@[simp] theorem failures_when (b : Bool) (p : Prog Call Tok Site Exn) :
    (when b p).failures f E = if b then p.failures f E else [] := by
  cases b <;> rfl

/-- The failures of a program depend on its calls only. -/
theorem failures_congr (p : Prog Call Tok Site Exn)
    (h : p.CallsIn fun c => f c = g c ∧ E c = E' c) : p.failures f E = p.failures g E' := by
  induction p with
  | skip => rfl
  | fail e => rfl
  | raise x => rfl
  | crash => rfl
  | seq p q ihp ihq =>
    rw [failures_seq, failures_seq, ihp fun c hc => h c (mem_calls_seq.2 (.inl hc)),
      ihq fun c hc => h c (mem_calls_seq.2 (.inr hc))]
  | call c => exact (h c (List.mem_singleton.2 rfl)).2
  | guarded c k ih =>
    rw [failures_guarded, failures_guarded, (h c (mem_calls_guarded.2 (.inl rfl))).1]
    exact ih _ fun c' hc' => h c' (mem_calls_guarded.2 (.inr ⟨_, hc'⟩))
  | each xs ih =>
    rw [failures_each, failures_each]
    refine List.flatMap_congr fun x hx => ih x hx fun c hc => ?_
    exact h c (mem_calls_each.2 ⟨x, hx, hc⟩)

end Failures

end Prog

/-! ## The judgement reports the failures -/

namespace Judgement

/-- The reports of a judgement in the loud mode are the failures `es`: all of them when it passes,
the first of them when it does not. -/
structure Lists (j : Judgement Site Exn) (es : List Site) : Prop where
  start : j.reports.map (·.1) <+: es
  pass : j.exit = .pass → j.reports.map (·.1) = es
  ne_fail : j.exit ≠ .fail
  ne_starved : j.exit ≠ .starved

variable {j k : Judgement Site Exn} {es es' : List Site}

theorem reports_after :
    (j.after k).reports.map (·.1) = j.reports.map (·.1) ++ k.reports.map (·.1) := by
  rw [after, List.map_append, List.map_map]
  rfl

/-- What follows a judgement goes on with the list. -/
theorem Lists.after (hj : j.reports.map (·.1) = es) (hk : k.Lists es') :
    (j.after k).Lists (es ++ es') where
  start := by
    rw [reports_after, hj, List.prefix_append_right_inj]
    exact hk.start
  pass hp := by rw [reports_after, hj, hk.pass hp]
  ne_fail := hk.ne_fail
  ne_starved := hk.ne_starved

theorem Lists.andThen (hj : j.Lists es) (hk : k.Lists es') : (j.andThen k).Lists (es ++ es') := by
  by_cases hx : j.exit = .pass
  · rw [andThen_of_pass hx]
    exact .after (hj.pass hx) hk
  · rw [andThen_of_ne hx]
    exact ⟨hj.start.trans (List.prefix_append _ _), fun hp => absurd hp hx, hj.ne_fail,
      hj.ne_starved⟩

/-- A guarded call reports nothing and goes on with its verdict. -/
theorem Lists.branch {k : Bool → Judgement Site Exn} {b : Bool} (hj : j.Decides b)
    (hnil : j.reports = []) (hk : (k b).Lists es) : (j.branch k).Lists es := by
  have hmap : j.reports.map (·.1) = [] := by rw [hnil, List.map_nil]
  rw [Judgement.branch]
  cases hx : j.exit with
  | pass =>
    obtain rfl := hj.pass hx
    exact .after hmap hk
  | fail =>
    obtain rfl := hj.fail hx
    exact .after hmap hk
  | starved => exact absurd hx hj.ne_starved
  | _ => exact ⟨hmap ▸ List.nil_prefix, by simp [hx], by simp [hx], by simp [hx]⟩

theorem Lists.deepen (h : j.Lists es) : j.deepen.Lists es :=
  ⟨h.start, h.pass, h.ne_fail, h.ne_starved⟩

end Judgement

section Judge

variable {callee : Bool → Call → Judgement Site Exn} {f : Call → Bool} {E : Call → List Site}

theorem Prog.judgeEach_quiet {xs : List (Tok × Prog Call Tok Site Exn)}
    (h : ∀ x ∈ xs, (x.2.judge callee true).reports = []) :
    (Prog.judgeEach callee true xs).reports = [] := by
  induction xs with
  | nil => rfl
  | cons x xs ih =>
    obtain ⟨t, p⟩ := x
    have ⟨hp, hxs⟩ := List.forall_mem_cons.1 h
    rw [Prog.judgeEach, Judgement.andThen]
    split
    · rw [Judgement.after, hp, ih hxs]
      rfl
    · exact hp

/-- A program reports nothing in the quiet mode. -/
theorem Prog.judge_quiet (h : ∀ c, (callee true c).reports = []) (p : Prog Call Tok Site Exn) :
    (p.judge callee true).reports = [] := by
  induction p with
  | skip => rfl
  | fail e => rfl
  | raise x => rfl
  | crash => rfl
  | seq p q ihp ihq =>
    rw [Prog.judge, Judgement.andThen]
    split
    · rw [Judgement.after, ihp, ihq]
      rfl
    · exact ihp
  | call c => exact h c
  | guarded c k ih =>
    rw [Prog.judge, Judgement.branch]
    split
    · rw [Judgement.after, h c, ih]
      rfl
    · rw [Judgement.after, h c, ih]
      rfl
    · exact h c
  | each xs ih =>
    rw [Prog.judge]
    split_ifs
    · rfl
    · exact Prog.judgeEach_quiet ih

theorem Prog.judgeEach_lists {xs : List (Tok × Prog Call Tok Site Exn)}
    (h : ∀ x ∈ xs, (x.2.judge callee false).Lists (x.2.failures f E)) :
    (Prog.judgeEach callee false xs).Lists (xs.flatMap fun x => x.2.failures f E) := by
  induction xs with
  | nil => exact ⟨List.nil_prefix, fun _ => rfl, nofun, nofun⟩
  | cons x xs ih =>
    obtain ⟨t, p⟩ := x
    have ⟨hp, hxs⟩ := List.forall_mem_cons.1 h
    exact hp.andThen (ih hxs)

/-- A program reports its failures, when its calls do. -/
theorem Prog.judge_lists (p : Prog Call Tok Site Exn)
    (hf : p.CallsIn fun c => (callee true c).Decides (f c) ∧ (callee true c).reports = [])
    (hE : p.CallsIn fun c => (callee false c).Lists (E c)) :
    (p.judge callee false).Lists (p.failures f E) := by
  have hended : ∀ x : Exit Exn, x ≠ .fail → x ≠ .starved →
      (Judgement.ended x : Judgement Site Exn).Lists [] := fun x hfail hstarved =>
    ⟨List.nil_prefix, fun _ => rfl, hfail, hstarved⟩
  induction p with
  | skip => exact hended _ nofun nofun
  | fail e => exact ⟨List.prefix_rfl, fun _ => rfl, nofun, nofun⟩
  | raise x => exact hended _ nofun nofun
  | crash => exact hended _ nofun nofun
  | seq p q ihp ihq =>
    have hp := ihp (fun c h => hf c (Prog.mem_calls_seq.2 (.inl h)))
      fun c h => hE c (Prog.mem_calls_seq.2 (.inl h))
    have hq := ihq (fun c h => hf c (Prog.mem_calls_seq.2 (.inr h)))
      fun c h => hE c (Prog.mem_calls_seq.2 (.inr h))
    exact hp.andThen hq
  | call c => exact hE c (List.mem_singleton.2 rfl)
  | guarded c k ih =>
    obtain ⟨hdecides, hnil⟩ := hf c (Prog.mem_calls_guarded.2 (.inl rfl))
    refine .branch hdecides hnil (ih (f c) (fun c' h => hf c' ?_) fun c' h => hE c' ?_)
    · exact Prog.mem_calls_guarded.2 (.inr ⟨_, h⟩)
    · exact Prog.mem_calls_guarded.2 (.inr ⟨_, h⟩)
  | each xs ih =>
    have hxs := Prog.judgeEach_lists fun x (hx : x ∈ xs) =>
      ih x hx (fun c h => hf c (Prog.mem_calls_each.2 ⟨x, hx, h⟩))
        fun c h => hE c (Prog.mem_calls_each.2 ⟨x, hx, h⟩)
    rw [Prog.judge, Prog.failures_each]
    cases xs with
    | nil => exact hended _ nofun nofun
    | cons x xs => exact hxs.deepen

end Judge

namespace Machine

variable {M : Machine Call Tok Site Exn}

theorem judge_quiet (n : ℕ) : ∀ c, (M.judge n true c).reports = [] := by
  induction n with
  | zero => exact fun _ => rfl
  | succ n ih => exact fun c => Prog.judge_quiet ih (M.body c)

/-- **The judgements report the solution.** Where no chain of calls goes on forever, the verdicts
are decided as in `exists_judge_decides` and the failures of each call are those of its body, every
call of a set closed under calls reports its failures in the loud mode. -/
theorem exists_judge_lists {P : Call → Prop} {f : Call → Bool} {E : Call → List Site}
    (hP : ∀ c, P c → (M.body c).CallsIn P)
    (hf : ∀ c, P c → ∀ callee : Bool → Call → Judgement Site Exn,
      (∀ c' ∈ (M.body c).calls, (callee true c').Decides (f c')) →
        (M.body c).Decides callee (f c))
    (hE : ∀ c, P c → E c = (M.body c).failures f E)
    {c : Call} (h : Acc (fun c' c => c' ∈ (M.body c).calls) c) (hc : P c) :
    ∃ n, (M.judge n false c).Lists (E c) := by
  induction h with
  | intro c hacc ih =>
    obtain ⟨n, hn⟩ := exists_judge_of_forall (M := M) (P := fun c j => j.Decides (f c)) (q := true)
      (l := (M.body c).calls) (fun _ _ hj => hj.ne_starved)
      fun c' hc' => exists_judge_decides hP hf (hacc c' hc') (hP c hc c' hc')
    obtain ⟨m, hm⟩ := exists_judge_of_forall (M := M) (P := fun c j => j.Lists (E c)) (q := false)
      (l := (M.body c).calls) (fun _ _ hj => hj.ne_starved)
      fun c' hc' => ih c' hc' (hP c hc c' hc')
    refine ⟨n + m + 1, ?_⟩
    rw [hE c hc]
    refine Prog.judge_lists (M.body c) (fun c' hc' => ⟨?_, judge_quiet _ c'⟩) fun c' hc' => ?_
    · rw [M.judge_mono (Nat.le_add_right n m) true c' (hn c' hc').ne_starved]
      exact hn c' hc'
    · show (M.judge (n + m) false c').Lists (E c')
      rw [M.judge_mono (Nat.le_add_left m n) false c' (hm c' hc').ne_starved]
      exact hm c' hc'

/-- **What a run in the loud mode reports**, as long as it stays within the stack: the failures that
its judgement lists. -/
theorem run_lists {L : Layout Call Tok Site} (hM : M.Lays L) {root : Tok} {l : List Tok}
    {n m k : ℕ} {c : Call} {s : State Tok Site} {es : List Site} (hl : L.call false l c)
    (hplaced : Placed root l k s) (hw : M.Within (s.depth + 1) s) (hloud : s.shortCircuit = false)
    (hj : (M.judge m false c).Lists es) (hends : (M.run n c s).1 ≠ .starved)
    (hs : M.Safe (M.run n c s).2) :
    ∃ new, (M.run n c s).2.errors = s.errors ++ new ∧ new.map (·.1) <+: es ∧
      ((M.run n c s).1 = .done → new.map (·.1) = es) := by
  have hb := run_bounded M n c s hw
  have hlt := (run_safe_iff M n c hw).1 hs
  have ht := run_follows M n c s hs.stored
  rw [hloud] at ht
  -- the judgement of the run is the one that lists
  have hexit : (M.judge n false c).exit ≠ .starved := by
    intro hx
    cases ho : (M.run n c s).1 with
    | starved => exact hends ho
    | tooDeep => exact hb.ne_tooDeep hlt ho
    | badPath => exact hb.ne_badPath hlt ho
    | done =>
      rw [ho] at ht
      exact absurd (hx.symm.trans ht.1) nofun
    | thrown =>
      rw [ho] at ht
      exact absurd (hx.symm.trans ht.1) nofun
    | raised x =>
      rw [ho] at ht
      exact absurd (hx.symm.trans ht) nofun
    | crashed =>
      rw [ho] at ht
      exact absurd (hx.symm.trans (ht hs)) nofun
  rw [Judged.unique ⟨m, rfl, hj.ne_starved⟩ ⟨n, rfl, hexit⟩] at hj
  obtain ⟨new, hnew, hall⟩ := run_located hM n l c k s (hloud ▸ hl) hplaced hw hs
  rw [hloud] at hall
  have hsites : new.map (·.1) = (M.judge n false c).reports.map (·.1) := by
    rw [← List.forall₂_eq_eq_eq, List.forall₂_map_left_iff, List.forall₂_map_right_iff]
    exact hall.imp fun _ _ h => h.1
  refine ⟨new, hnew, hsites ▸ hj.start, fun hdone => hsites.trans (hj.pass ?_)⟩
  rw [hdone] at ht
  exact ht.1

end Machine

end Traversal
