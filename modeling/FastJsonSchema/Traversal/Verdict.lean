import FastJsonSchema.Traversal.Bounds

/-!
# Verdicts

`j.Decides b` says that a judgement in the quiet mode has the verdict `b`, should it pass or fail,
and that it does not run out of fuel. The rules below give the verdict of a program from those of
its calls; a program without calls has the verdict `Prog.passes`.
-/

namespace Traversal

variable {Call Tok Site Exn : Type}

namespace Judgement

/-- The verdict of a judgement is `b`. -/
structure Decides (j : Judgement Site Exn) (b : Bool) : Prop where
  pass : j.exit = .pass → b = true
  fail : j.exit = .fail → b = false
  ne_starved : j.exit ≠ .starved

variable {j k : Judgement Site Exn} {b b' : Bool}

theorem Decides.andThen (h : j.Decides b) (hk : b = true → k.Decides b') :
    (j.andThen k).Decides (b && b') := by
  by_cases hx : j.exit = .pass
  · obtain rfl := h.pass hx
    have hk := hk rfl
    rw [andThen_of_pass hx]
    exact ⟨hk.pass, hk.fail, hk.ne_starved⟩
  · rw [andThen_of_ne hx]
    exact ⟨fun hp => absurd hp hx, fun hf => by rw [h.fail hf, Bool.false_and], h.ne_starved⟩

theorem Decides.branch {k : Bool → Judgement Site Exn} (h : j.Decides b) (hk : (k b).Decides b') :
    (j.branch k).Decides b' := by
  rw [Judgement.branch]
  cases hx : j.exit with
  | pass =>
    obtain rfl := h.pass hx
    exact ⟨hk.pass, hk.fail, hk.ne_starved⟩
  | fail =>
    obtain rfl := h.fail hx
    exact ⟨hk.pass, hk.fail, hk.ne_starved⟩
  | starved => exact absurd hx h.ne_starved
  | _ => exact ⟨by simp [hx], by simp [hx], by simp [hx]⟩

theorem Decides.deepen (h : j.Decides b) : j.deepen.Decides b := ⟨h.pass, h.fail, h.ne_starved⟩

end Judgement

namespace Prog

variable (callee : Bool → Call → Judgement Site Exn)

/-- The verdict of a program in the quiet mode is `b`. -/
def Decides (p : Prog Call Tok Site Exn) (b : Bool) : Prop := (p.judge callee true).Decides b

variable {callee} {p q : Prog Call Tok Site Exn} {b b' : Bool}

theorem Decides.skip : (skip : Prog Call Tok Site Exn).Decides callee true :=
  ⟨fun _ => rfl, nofun, nofun⟩

theorem Decides.fail {e : Site} : (fail e : Prog Call Tok Site Exn).Decides callee false :=
  ⟨nofun, fun _ => rfl, nofun⟩

theorem Decides.raise {x : Exn} : (raise x : Prog Call Tok Site Exn).Decides callee b :=
  ⟨nofun, nofun, nofun⟩

theorem Decides.crash : (crash : Prog Call Tok Site Exn).Decides callee b := ⟨nofun, nofun, nofun⟩

theorem Decides.seq (hp : p.Decides callee b) (hq : b = true → q.Decides callee b') :
    (seq p q).Decides callee (b && b') := Judgement.Decides.andThen hp hq

theorem Decides.guarded {c : Call} {k : Bool → Prog Call Tok Site Exn}
    (h : (callee true c).Decides b) (hk : (k b).Decides callee b') :
    (guarded c k).Decides callee b' := Judgement.Decides.branch h hk

theorem Decides.when {c : Bool} (h : c = true → p.Decides callee b) :
    (when c p).Decides callee (!c || b) := by
  cases c with
  | false => exact .skip
  | true => exact h rfl

/-- A check that fails when a condition holds. -/
theorem Decides.failWhen {c : Bool} {e : Site} (h : b = !c) :
    (Prog.when c (Prog.fail e) : Prog Call Tok Site Exn).Decides callee b := by
  subst h
  cases c with
  | false => exact .skip
  | true => exact .fail

theorem Decides.block {α : Type} {f : α → Prog Call Tok Site Exn} {g : α → Bool} {l : List α}
    (h : ∀ x ∈ l, (f x).Decides callee (g x)) :
    (Prog.block (l.map f)).Decides callee (l.all g) := by
  induction l with
  | nil => exact .skip
  | cons x l ih =>
    have ⟨hx, hl⟩ := List.forall_mem_cons.1 h
    exact hx.seq fun _ => ih hl

theorem Decides.each {α : Type} {f : α → Tok × Prog Call Tok Site Exn} {g : α → Bool} {l : List α}
    (h : ∀ x ∈ l, (f x).2.Decides callee (g x)) : (each (l.map f)).Decides callee (l.all g) := by
  have hall : (Prog.judgeEach callee true (l.map f)).Decides (l.all g) := by
    induction l with
    | nil => exact ⟨fun _ => rfl, nofun, nofun⟩
    | cons x l ih =>
      have ⟨hx, hl⟩ := List.forall_mem_cons.1 h
      exact Judgement.Decides.andThen hx fun _ => ih hl
  cases l with
  | nil => exact ⟨fun _ => rfl, nofun, nofun⟩
  | cons x l => exact hall.deepen

/-! ## Programs without calls -/

/-- Whether a program without calls passes. -/
def passes : Prog Call Tok Site Exn → Bool
  | .skip => true
  | .seq p q => p.passes && q.passes
  | _ => false

theorem passes_failWhen (b : Bool) (e : Site) :
    (Prog.when b (.fail e) : Prog Call Tok Site Exn).passes = !b := by
  cases b <;> rfl

/-- Two programs without calls that differ in their sites only. -/
inductive Like : Prog Call Tok Site Exn → Prog Call Tok Site Exn → Prop
  | skip : Like .skip .skip
  | fail (e e' : Site) : Like (.fail e) (.fail e')
  | raise (x : Exn) : Like (.raise x) (.raise x)
  | crash : Like .crash .crash
  | seq {p p' q q' : Prog Call Tok Site Exn} (h : Like p p') (h' : Like q q') :
      Like (.seq p q) (.seq p' q')

theorem Like.decides (h : Like p q) : p.Decides callee q.passes := by
  induction h with
  | skip => exact .skip
  | fail e e' => exact .fail
  | raise x => exact .raise
  | crash => exact .crash
  | seq _ _ ih ih' => exact ih.seq fun _ => ih'

theorem Like.block {ps qs : List (Prog Call Tok Site Exn)} (h : List.Forall₂ Like ps qs) :
    Like (Prog.block ps) (Prog.block qs) := by
  induction h with
  | nil => exact .skip
  | cons h _ ih => exact .seq h ih

theorem Like.when {c : Bool} (h : Like p q) : Like (Prog.when c p) (Prog.when c q) := by
  cases c with
  | false => exact .skip
  | true => exact h

end Prog

namespace Machine

variable {M : Machine Call Tok Site Exn} {s : State Tok Site}

/-- A quiet run of a program without calls changes nothing when it passes. -/
theorem exec_like {p q : Prog Call Tok Site Exn} (h : Prog.Like p q)
    {callee : Call → State Tok Site → Result Tok Site Exn} (hs : s.shortCircuit = true) :
    (p.passes = true → M.exec callee p s = (.done, s)) ∧
      (p.passes = false → (M.exec callee p s).1 ≠ .done) := by
  induction h with
  | skip => exact ⟨fun _ => rfl, fun h => absurd h (by simp [Prog.passes])⟩
  | fail e e' =>
    exact ⟨fun h => absurd h (by simp [Prog.passes]), fun _ => by simp [exec, yieldError, hs]⟩
  | raise x => exact ⟨fun h => absurd h (by simp [Prog.passes]), fun _ => by simp [exec]⟩
  | crash => exact ⟨fun h => absurd h (by simp [Prog.passes]), fun _ => by simp [exec]⟩
  | @seq p p' q q' _ _ ihp ihq =>
    rw [Prog.passes, Bool.and_eq_true, Bool.and_eq_false_iff, exec]
    constructor
    · rintro ⟨hp, hq⟩
      rw [ihp.1 hp, Result.andThen_of_done rfl]
      exact ihq.1 hq
    · rintro h
      rcases Bool.eq_false_or_eq_true p.passes with hp | hp
      · rw [ihp.1 hp, Result.andThen_of_done rfl]
        exact ihq.2 (h.resolve_left (by simp [hp]))
      · rw [Result.andThen_of_ne (ihp.2 hp)]
        exact ihp.2 hp

/-- **The verdict of a quiet run** that stays within the stack is that of its judgement, unless it
raises or crashes. -/
theorem run_decides {n : ℕ} {c : Call} {b : Bool} (h : M.Within (s.depth + 1) s)
    (hq : s.shortCircuit = true) (hj : (M.judge n true c).Decides b)
    (hs : M.Safe (M.run n c s).2) :
    (M.run n c s).1 ≠ .starved ∧ ((∃ x, (M.run n c s).1 = .raised x) ∨
      (M.run n c s).1 = .crashed ∨ (M.run n c s).verdict = some b) := by
  have hb := run_bounded M n c s h
  have hlt := (run_safe_iff M n c h).1 hs
  have hdeep := hb.ne_tooDeep hlt
  have hpath := hb.ne_badPath hlt
  have ht := run_follows M n c s hs.stored
  rw [hq] at ht
  rw [Result.verdict]
  cases ho : (M.run n c s).1 with
  | done =>
    rw [ho] at ht
    exact ⟨by simp, .inr (.inr (by rw [hj.pass ht.1]))⟩
  | thrown =>
    rw [ho] at ht
    exact ⟨by simp, .inr (.inr (by rw [hj.fail ht.1]))⟩
  | raised x => exact ⟨by simp, .inl ⟨x, rfl⟩⟩
  | crashed => exact ⟨by simp, .inr (.inl rfl)⟩
  | tooDeep => exact absurd ho hdeep
  | badPath => exact absurd ho hpath
  | starved =>
    rw [ho] at ht
    exact absurd ht hj.ne_starved

end Machine

end Traversal
