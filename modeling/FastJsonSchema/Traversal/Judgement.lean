import FastJsonSchema.Traversal.Frame

/-!
# Judgements: runs without a stack

`Machine.judge` runs a program without a context. Its result says how the program ends, how many
levels it leaves behind on the stack (a failure that exits from below leaves every level between
the frame and itself), how far above the start it stores, and what it reports, each report with
the levels left behind before it.

A run that stores within the stack follows its judgement (`run_follows`): it ends as the judgement
says, and exactly as deep.
-/

namespace Traversal

variable {Call Tok Site Exn : Type}

/-- How a program ends, the stack aside. -/
inductive Exit (Exn : Type)
  | pass
  | fail
  | raised (x : Exn)
  | crashed
  | starved
  deriving DecidableEq

/-- What a program does, the stack aside. -/
structure Judgement (Site Exn : Type) where
  exit : Exit Exn
  /-- The levels between the depth at the start and the depth at the end. -/
  leak : ℕ
  /-- The highest store, in levels above the depth at the start. -/
  peak : ℕ
  /-- The failures reported, each with the levels left behind before it. -/
  reports : List (Site × ℕ)

namespace Judgement

/-- The judgement of a program that only ends. -/
def ended (x : Exit Exn) : Judgement Site Exn := ⟨x, 0, 0, []⟩

/-- `k`, seen from the start of `j`. -/
def after (j k : Judgement Site Exn) : Judgement Site Exn where
  exit := k.exit
  leak := j.leak + k.leak
  peak := max j.peak (j.leak + k.peak)
  reports := j.reports ++ k.reports.map fun e => (e.1, j.leak + e.2)

/-- Go on with `k` after a pass. -/
def andThen (j k : Judgement Site Exn) : Judgement Site Exn :=
  match j.exit with
  | .pass => j.after k
  | _ => j

/-- Go on with the verdict of a guarded call. -/
def branch (j : Judgement Site Exn) (k : Bool → Judgement Site Exn) : Judgement Site Exn :=
  match j.exit with
  | .pass => j.after (k true)
  | .fail => j.after (k false)
  | _ => j

/-- The judgement of a level with elements, seen from the value the level belongs to: a failure
skips the pop. -/
def deepen (j : Judgement Site Exn) : Judgement Site Exn where
  exit := j.exit
  leak :=
    match j.exit with
    | .fail => j.leak + 1
    | _ => j.leak
  peak := j.peak + 1
  reports := j.reports

end Judgement

mutual

/-- The judgement of a program, in the quiet or the loud mode, given those of its calls. -/
def Prog.judge (callee : Bool → Call → Judgement Site Exn) (quiet : Bool) :
    Prog Call Tok Site Exn → Judgement Site Exn
  | .skip => .ended .pass
  | .fail e => if quiet then .ended .fail else ⟨.pass, 0, 0, [(e, 0)]⟩
  | .raise x => .ended (.raised x)
  | .crash => .ended .crashed
  | .seq p q => (p.judge callee quiet).andThen (q.judge callee quiet)
  | .call c => callee quiet c
  | .guarded c k => (callee true c).branch fun b => (k b).judge callee quiet
  | .each xs => if xs.isEmpty then .ended .pass else (Prog.judgeEach callee quiet xs).deepen

/-- The judgement of the elements of a level. -/
def Prog.judgeEach (callee : Bool → Call → Judgement Site Exn) (quiet : Bool) :
    List (Tok × Prog Call Tok Site Exn) → Judgement Site Exn
  | [] => .ended .pass
  | (_, p) :: xs => (p.judge callee quiet).andThen (Prog.judgeEach callee quiet xs)

end

namespace Machine

variable (M : Machine Call Tok Site Exn)

/-- The judgement of a call. -/
def judge : ℕ → Bool → Call → Judgement Site Exn
  | 0, _, _ => .ended .starved
  | n + 1, quiet, c => (M.body c).judge (judge n) quiet

/-- `M.Judged quiet c j`: the judgement of `c` is `j`. -/
def Judged (quiet : Bool) (c : Call) (j : Judgement Site Exn) : Prop :=
  ∃ n, M.judge n quiet c = j ∧ j.exit ≠ .starved

end Machine

/-! ## Judgements do not depend on the fuel -/

namespace Judgement

variable {j j' : Judgement Site Exn}

theorem andThen_of_pass {k : Judgement Site Exn} (h : j.exit = .pass) :
    j.andThen k = j.after k := by
  rw [andThen, h]

theorem andThen_of_ne {k : Judgement Site Exn} (h : j.exit ≠ .pass) : j.andThen k = j := by
  obtain ⟨x, l, p, rs⟩ := j
  cases x <;> simp_all [andThen]

@[simp] theorem ended_pass_andThen (k : Judgement Site Exn) :
    (Judgement.ended .pass : Judgement Site Exn).andThen k = k := by
  obtain ⟨x, l, p, rs⟩ := k
  simp [Judgement.andThen, Judgement.after, Judgement.ended]

theorem andThen_mono {k k' : Judgement Site Exn} (hj : j.exit ≠ .starved → j' = j)
    (hk : k.exit ≠ .starved → k' = k) (h : (j.andThen k).exit ≠ .starved) :
    j'.andThen k' = j.andThen k := by
  obtain ⟨x, l, p, rs⟩ := j
  cases x with
  | starved => exact absurd rfl h
  | pass => rw [hj (by simp), hk h]
  | _ => rw [hj (by simp)]; rfl

theorem branch_mono {k k' : Bool → Judgement Site Exn} (hj : j.exit ≠ .starved → j' = j)
    (hk : ∀ b, (k b).exit ≠ .starved → k' b = k b) (h : (j.branch k).exit ≠ .starved) :
    j'.branch k' = j.branch k := by
  obtain ⟨x, l, p, rs⟩ := j
  cases x with
  | starved => exact absurd rfl h
  | pass => rw [hj (by simp), branch, branch, hk true h]
  | fail => rw [hj (by simp), branch, branch, hk false h]
  | _ => rw [hj (by simp)]; rfl

end Judgement

section Mono

variable {callee callee' : Bool → Call → Judgement Site Exn}
  (hc : ∀ q c, (callee q c).exit ≠ .starved → callee' q c = callee q c)

theorem Prog.judgeEach_mono {quiet : Bool} {xs : List (Tok × Prog Call Tok Site Exn)}
    (hx : ∀ x ∈ xs, (x.2.judge callee quiet).exit ≠ .starved →
      x.2.judge callee' quiet = x.2.judge callee quiet) :
    (Prog.judgeEach callee quiet xs).exit ≠ .starved →
      Prog.judgeEach callee' quiet xs = Prog.judgeEach callee quiet xs := by
  induction xs with
  | nil => exact fun _ => rfl
  | cons x xs ih =>
    obtain ⟨t, p⟩ := x
    exact Judgement.andThen_mono (hx (t, p) (by simp)) (ih fun x hx' => hx x (by simp [hx']))

include hc

theorem Prog.judge_mono (quiet : Bool) (p : Prog Call Tok Site Exn) :
    (p.judge callee quiet).exit ≠ .starved → p.judge callee' quiet = p.judge callee quiet := by
  induction p with
  | skip => exact fun _ => rfl
  | fail e => exact fun _ => rfl
  | raise x => exact fun _ => rfl
  | crash => exact fun _ => rfl
  | seq p q ihp ihq => exact Judgement.andThen_mono ihp ihq
  | call c => exact hc quiet c
  | guarded c k ih => exact Judgement.branch_mono (hc true c) ih
  | each xs ih =>
    intro h
    simp only [Prog.judge] at h ⊢
    split_ifs at h ⊢ with hxs
    · rfl
    · rw [Prog.judgeEach_mono ih h]

end Mono

namespace Machine

variable (M : Machine Call Tok Site Exn)

theorem judge_succ_of_judge (n : ℕ) : ∀ q c, (M.judge n q c).exit ≠ .starved →
    M.judge (n + 1) q c = M.judge n q c := by
  induction n with
  | zero => exact fun _ _ h => absurd rfl h
  | succ n ih => exact fun q c h => Prog.judge_mono ih q _ h

theorem judge_mono {n m : ℕ} (hnm : n ≤ m) (q : Bool) (c : Call)
    (h : (M.judge n q c).exit ≠ .starved) : M.judge m q c = M.judge n q c := by
  induction m, hnm using Nat.le_induction with
  | base => rfl
  | succ m hm ih => rw [M.judge_succ_of_judge m q c (by rwa [ih]), ih]

variable {M} {s : State Tok Site} {r : Result Tok Site Exn} {c : Call}

theorem Judged.unique {q : Bool} {j j' : Judgement Site Exn} (h : M.Judged q c j)
    (h' : M.Judged q c j') : j = j' := by
  obtain ⟨n, hn, hj⟩ := h
  obtain ⟨n', hn', hj'⟩ := h'
  rcases le_total n n' with hle | hle
  · rw [← hn, ← hn', M.judge_mono hle q c (by rwa [hn])]
  · rw [← hn, ← hn', M.judge_mono hle q c (by rwa [hn'])]

/-! ## Runs follow their judgement -/

variable (M) in
/-- The end of a run from `s` follows a judgement: it is the end the judgement says and, when the
run goes on from it, exactly as deep. The ends that the stack alone decides follow any
judgement. -/
def Tracks (s : State Tok Site) : Outcome Exn → State Tok Site → Judgement Site Exn → Prop
  | .done, s', j => j.exit = .pass ∧ s'.depth = s.depth + j.leak
  | .thrown, s', j => j.exit = .fail ∧ s'.depth = s.depth + j.leak
  | .raised x, _, j => j.exit = .raised x
  | .crashed, s', j => M.Safe s' → j.exit = .crashed
  | .starved, _, j => j.exit = .starved
  | .tooDeep, _, _ => True
  | .badPath, _, _ => True

variable (M) in
/-- The result of a run from `s`, if it stores within the stack, follows the judgement `j`. -/
def Follows (s : State Tok Site) (r : Result Tok Site Exn) (j : Judgement Site Exn) : Prop :=
  M.Stored r.2 → M.Tracks s r.1 r.2 j

variable (M) in
theorem tracks_done {s₁ : State Tok Site} (h : s₁.depth = s.depth) (rs : List (Site × ℕ)) :
    M.Tracks s .done s₁ (⟨.pass, 0, 0, rs⟩ : Judgement Site Exn) := ⟨rfl, by simp [h]⟩

theorem Tracks.congr {o : Outcome Exn} {s₁ t t₁ : State Tok Site} {j : Judgement Site Exn}
    (hs : s.depth = t.depth) (hs₁ : s₁.depth = t₁.depth) (hlog : s₁.log = t₁.log)
    (h : M.Tracks s o s₁ j) : M.Tracks t o t₁ j := by
  cases o with
  | done => simpa only [Tracks, hs, hs₁] using h
  | thrown => simpa only [Tracks, hs, hs₁] using h
  | crashed => simpa only [Tracks, Safe, hlog] using h
  | _ => exact h

/-- What follows `k` from the end `s₁` of a run that follows `j` follows both. -/
theorem Tracks.after {o : Outcome Exn} {s₁ s₂ : State Tok Site} {j k : Judgement Site Exn}
    (hd : s₁.depth = s.depth + j.leak) (h : M.Tracks s₁ o s₂ k) :
    M.Tracks s o s₂ (j.after k) := by
  cases o with
  | done => exact ⟨h.1, by rw [h.2, hd]; push_cast [Judgement.after]; omega⟩
  | thrown => exact ⟨h.1, by rw [h.2, hd]; push_cast [Judgement.after]; omega⟩
  | _ => exact h

theorem Follows.andThen {f : State Tok Site → Result Tok Site Exn} {j k : Judgement Site Exn}
    {b : ℤ} (h : M.Follows s r j) (hf : M.Frame b r.2 (f r.2).2)
    (hk : M.Stored r.2 → M.Follows r.2 (f r.2) k) :
    M.Follows s (r.andThen f) (j.andThen k) := by
  intro hs
  obtain ⟨o, s₁⟩ := r
  dsimp only at hf hk
  cases o with
  | done =>
    rw [Result.andThen_of_done rfl] at hs ⊢
    obtain ⟨hj, hd⟩ := h (hs.mono hf.log)
    rw [Judgement.andThen_of_pass hj]
    exact (hk (hs.mono hf.log) hs).after hd
  | thrown =>
    obtain ⟨hj, hd⟩ := h hs
    rw [Judgement.andThen_of_ne (by simp [hj])]
    exact ⟨hj, hd⟩
  | tooDeep => trivial
  | badPath => trivial
  | crashed =>
    intro hsafe
    have hj : j.exit = _ := h hs hsafe
    rw [Judgement.andThen_of_ne (by simp [hj])]
    exact hj
  | _ =>
    have hj : j.exit = _ := h hs
    rw [Judgement.andThen_of_ne (by simp [hj])]
    exact hj

theorem Follows.branch {f : Bool → State Tok Site → Result Tok Site Exn}
    {j : Judgement Site Exn} {k : Bool → Judgement Site Exn} {b : ℤ} (h : M.Follows s r j)
    (hf : ∀ v, M.Frame b r.2 (f v r.2).2)
    (hk : ∀ v, M.Stored r.2 → M.Follows r.2 (f v r.2) (k v)) :
    M.Follows s (r.branch f) (j.branch k) := by
  intro hs
  obtain ⟨o, s₁⟩ := r
  dsimp only at hf hk
  cases o with
  | done =>
    have hs₁ : M.Stored s₁ := Stored.mono hs (hf true).log
    obtain ⟨hj, hd⟩ := h hs₁
    rw [Judgement.branch, hj]
    exact (hk true hs₁ hs).after hd
  | thrown =>
    have hs₁ : M.Stored s₁ := Stored.mono hs (hf false).log
    obtain ⟨hj, hd⟩ := h hs₁
    rw [Judgement.branch, hj]
    exact (hk false hs₁ hs).after hd
  | tooDeep => trivial
  | badPath => trivial
  | crashed =>
    intro hsafe
    have hj : j.exit = _ := h hs hsafe
    rw [Judgement.branch, hj]
    exact hj
  | _ =>
    have hj : j.exit = _ := h hs
    rw [Judgement.branch, hj]
    exact hj

theorem yieldError_follows (e : Site) (s : State Tok Site) :
    M.Follows s (M.yieldError e s)
      (if s.shortCircuit then .ended .fail else ⟨.pass, 0, 0, [(e, 0)]⟩) := by
  unfold yieldError
  cases hq : s.shortCircuit with
  | true => exact fun _ => ⟨rfl, by simp [Judgement.ended]⟩
  | false =>
    simp only [Bool.false_eq_true, if_false]
    split_ifs with hmax
    · exact fun _ hs => absurd (safe_logged.1 hs).2 (by simpa [InRange] using hmax)
    · cases s.readPath with
      | none => exact fun _ => trivial
      | some ts => exact fun _ => M.tracks_done rfl _

theorem write_follows (t : Tok) (s : State Tok Site) :
    M.Follows s (M.write t s) (.ended .pass) := by
  unfold write
  split_ifs with hd
  · exact fun _ => M.tracks_done rfl _
  · cases M.overrun t s.toContext with
    | none => exact fun hs => absurd (hs s.depth (by simp [State.logged])) hd
    | some c => exact fun hs => absurd (hs s.depth (by simp [State.logged])) hd

section Exec

variable {callee : Call → State Tok Site → Result Tok Site Exn}
  {jcallee : Bool → Call → Judgement Site Exn}
  (hc : ∀ c s, M.Frame (s.depth + 1) s (callee c s).2)
  (hj : ∀ c s, M.Follows s (callee c s) (jcallee s.shortCircuit c))

include hc

theorem execEach_follows {xs : List (Tok × Prog Call Tok Site Exn)}
    (hx : ∀ x ∈ xs, ∀ s, M.Follows s (M.exec callee x.2 s) (x.2.judge jcallee s.shortCircuit)) :
    ∀ s, M.Follows s (M.execEach callee xs s) (Prog.judgeEach jcallee s.shortCircuit xs) := by
  induction xs with
  | nil => exact fun s _ => M.tracks_done rfl _
  | cons x xs ih =>
    obtain ⟨t, p⟩ := x
    intro s
    have hw := M.write_frame t s
    have hrest : ∀ s, M.Frame s.depth s (M.execEach callee xs s).2 :=
      execEach_frame fun x _ => exec_frame hc x.2
    rw [← Judgement.ended_pass_andThen (Prog.judgeEach jcallee s.shortCircuit ((t, p) :: xs))]
    refine (write_follows t s).andThen (element_frame hc p xs _) fun hs₁ => ?_
    have hq := hw.mode hs₁
    have hp := hx (t, p) (by simp) (M.write t s).2
    rw [hq] at hp
    refine hp.andThen (hrest _) fun hs₂ => ?_
    have hq₂ := ((exec_frame hc p _).mode hs₂).trans hq
    exact hq₂ ▸ ih (fun x hx' => hx x (by simp [hx'])) _

include hj

omit hc in
theorem protect_follows (c : Call) (s : State Tok Site) :
    M.Follows s (protect callee c s) (jcallee true c) := by
  intro hs
  refine Tracks.congr ?_ ?_ ?_ (hj c (s.mode true) hs) <;> rfl

/-- A program follows its judgement, when its calls do. -/
theorem exec_follows (p : Prog Call Tok Site Exn) :
    ∀ s, M.Follows s (M.exec callee p s) (p.judge jcallee s.shortCircuit) := by
  induction p with
  | skip => exact fun s _ => M.tracks_done rfl _
  | fail e => exact fun s => yieldError_follows e s
  | raise x => exact fun s _ => rfl
  | crash => exact fun s _ _ => rfl
  | seq p q ihp ihq =>
    intro s
    refine (ihp s).andThen (exec_frame hc q _) fun hs => ?_
    exact (exec_frame hc p s).mode hs ▸ ihq _
  | call c => exact fun s => hj c s
  | guarded c k ih =>
    intro s
    exact (protect_follows hj c s).branch (fun b => exec_frame hc (k b) _) fun b _ => ih b _
  | each xs ih =>
    intro s
    have h := execEach_follows hc ih (s.enter !xs.isEmpty)
    simp only [exec, Prog.judge]
    by_cases hmax : (M.max : ℤ) < s.depth + 1
    · rw [if_pos hmax]
      exact fun _ => trivial
    rw [if_neg hmax]
    cases xs with
    | nil =>
      intro _
      rw [Result.leave_of_done _ rfl]
      exact M.tracks_done (by simp [execEach]) _
    | cons x xs =>
      simp only [List.isEmpty_cons, Bool.not_false, Bool.false_eq_true, if_false] at h ⊢
      intro hs
      have h := h (by simpa [Stored] using hs)
      rw [State.shortCircuit_enter] at h
      rw [Result.fst_leave]
      cases ho : (M.execEach callee (x :: xs) (s.enter true)).1 <;> rw [ho] at h
      case done =>
        obtain ⟨hx, hd⟩ := h
        rw [State.depth_enter] at hd
        rw [Result.leave_of_done _ ho]
        exact ⟨hx, by simp only [State.depth_leave, hd, Judgement.deepen, hx]; omega⟩
      case thrown =>
        obtain ⟨hx, hd⟩ := h
        rw [State.depth_enter] at hd
        rw [Result.leave_of_ne _ (by simp [ho])]
        refine ⟨hx, ?_⟩
        simp only [hd, Judgement.deepen, hx]
        push_cast
        omega
      case crashed =>
        intro hsafe
        exact h (by simpa [Safe] using hsafe)
      all_goals exact h

end Exec

variable (M) in
/-- **A run that stores within the stack follows its judgement.** -/
theorem run_follows (n : ℕ) : ∀ c s, M.Follows s (M.run n c s) (M.judge n s.shortCircuit c) := by
  induction n with
  | zero => exact fun c s _ => rfl
  | succ n ih => exact fun c s => exec_follows (run_frame M n) ih _ (s.logged (.read s.depth))

end Machine

end Traversal
