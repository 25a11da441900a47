import FastJsonSchema.Traversal.Judgement
import FastJsonSchema.Traversal.Calls
import Mathlib.Logic.Relation

/-!
# Where a run stops

A run stops when it raises an exception or dies. `Prog.StopsIn P p` says that `p` by itself stops
in pieces that are in `P` only. When the bodies of all calls do, a run within the stack that stops
has made a call whose body has such a piece, and the piece stops in the same way (`run_stops`).
-/

namespace Traversal

open Relation

variable {Call Tok Site Exn : Type}

/-- An exit that passes every frame. -/
def Exit.Stops : Exit Exn → Prop
  | .raised _ => True
  | .crashed => True
  | _ => False

/-- The exit of a run that stops. -/
def Outcome.stop : Outcome Exn → Option (Exit Exn)
  | .raised x => some (.raised x)
  | .crashed => some .crashed
  | _ => none

theorem Outcome.stops {o : Outcome Exn} {x : Exit Exn} (h : o.stop = some x) : x.Stops := by
  cases o with
  | raised y =>
    obtain rfl := Option.some.inj h
    exact trivial
  | crashed =>
    obtain rfl := Option.some.inj h
    exact trivial
  | _ => cases h

namespace Prog

/-- A program that stops in pieces that are in `P`, and in its calls, only. -/
inductive StopsIn (P : Prog Call Tok Site Exn → Prop) : Prog Call Tok Site Exn → Prop
  | piece {p} (h : P p) : StopsIn P p
  | skip : StopsIn P .skip
  | fail {e} : StopsIn P (.fail e)
  | seq {p q} (hp : StopsIn P p) (hq : StopsIn P q) : StopsIn P (.seq p q)
  | call {c} : StopsIn P (.call c)
  | guarded {c k} (h : ∀ b, StopsIn P (k b)) : StopsIn P (.guarded c k)
  | each {xs} (h : ∀ x ∈ xs, StopsIn P x.2) : StopsIn P (.each xs)

namespace StopsIn

variable {P : Prog Call Tok Site Exn → Prop} {p : Prog Call Tok Site Exn}

theorem block {ps : List (Prog Call Tok Site Exn)} (h : ∀ p ∈ ps, StopsIn P p) :
    StopsIn P (.block ps) := by
  induction ps with
  | nil => exact .skip
  | cons p ps ih =>
    exact .seq (h p List.mem_cons_self) (ih fun q hq => h q (List.mem_cons_of_mem p hq))

theorem when {b : Bool} (h : StopsIn P p) : StopsIn P (.when b p) := by
  cases b with
  | true => exact h
  | false => exact .skip

end StopsIn

end Prog

namespace Judgement

variable {j k : Judgement Site Exn} {x : Exit Exn}

theorem exit_andThen (h : (j.andThen k).exit = x) : j.exit = x ∨ k.exit = x := by
  by_cases hj : j.exit = .pass
  · rw [andThen_of_pass hj] at h
    exact .inr h
  · rw [andThen_of_ne hj] at h
    exact .inl h

theorem exit_branch {k : Bool → Judgement Site Exn} (h : (j.branch k).exit = x) :
    j.exit = x ∨ ∃ b, (k b).exit = x := by
  unfold branch at h
  split at h
  · exact .inr ⟨true, h⟩
  · exact .inr ⟨false, h⟩
  · exact .inl h

end Judgement

/-! ## Programs -/

section Programs

variable {callee : Bool → Call → Judgement Site Exn} {P : Prog Call Tok Site Exn → Prop}
  {q : Bool} {x : Exit Exn}

/-- The elements of a level stop when one of them does. -/
theorem Prog.judgeEach_stops {xs : List (Tok × Prog Call Tok Site Exn)} (hx : x.Stops)
    (h : (Prog.judgeEach callee q xs).exit = x) : ∃ y ∈ xs, (y.2.judge callee q).exit = x := by
  induction xs with
  | nil =>
    subst h
    exact absurd hx id
  | cons y xs ih =>
    obtain ⟨t, p⟩ := y
    rw [Prog.judgeEach] at h
    rcases Judgement.exit_andThen h with h | h
    · exact ⟨(t, p), List.mem_cons_self, h⟩
    · obtain ⟨y, hy, h⟩ := ih h
      exact ⟨y, List.mem_cons_of_mem _ hy, h⟩

/-- A program that stops has a piece or a call that does. -/
theorem Prog.StopsIn.judge {p : Prog Call Tok Site Exn} (hp : p.StopsIn P) (hx : x.Stops)
    (h : (p.judge callee q).exit = x) :
    (∃ p', P p' ∧ (p'.judge callee q).exit = x) ∨ ∃ c ∈ p.calls, ∃ b, (callee b c).exit = x := by
  induction hp with
  | @piece p hp => exact .inl ⟨p, hp, h⟩
  | skip =>
    subst h
    exact absurd hx id
  | fail =>
    subst h
    cases q <;> exact absurd hx id
  | seq _ _ ihp ihq =>
    rw [Prog.judge] at h
    rcases Judgement.exit_andThen h with h | h
    · rcases ihp h with hp | ⟨c, hc, hcallee⟩
      · exact .inl hp
      · exact .inr ⟨c, Prog.mem_calls_seq.2 (.inl hc), hcallee⟩
    · rcases ihq h with hp | ⟨c, hc, hcallee⟩
      · exact .inl hp
      · exact .inr ⟨c, Prog.mem_calls_seq.2 (.inr hc), hcallee⟩
  | @call c => exact .inr ⟨c, List.mem_singleton.2 rfl, q, h⟩
  | @guarded c k _ ih =>
    rw [Prog.judge] at h
    rcases Judgement.exit_branch h with h | ⟨b, h⟩
    · exact .inr ⟨c, Prog.mem_calls_guarded.2 (.inl rfl), true, h⟩
    · rcases ih b h with hp | ⟨c', hc, hcallee⟩
      · exact .inl hp
      · exact .inr ⟨c', Prog.mem_calls_guarded.2 (.inr ⟨b, hc⟩), hcallee⟩
  | @each xs _ ih =>
    rw [Prog.judge] at h
    split_ifs at h
    · subst h
      exact absurd hx id
    · have h : (Prog.judgeEach callee q xs).exit = x := h
      obtain ⟨y, hy, h⟩ := Prog.judgeEach_stops hx h
      rcases ih y hy h with hp | ⟨c, hc, hcallee⟩
      · exact .inl hp
      · exact .inr ⟨c, Prog.mem_calls_each.2 ⟨y, hy, hc⟩, hcallee⟩

end Programs

/-! ## Runs -/

namespace Machine

variable {M : Machine Call Tok Site Exn} {P : Call → Prog Call Tok Site Exn → Prop}
  {I : Call → Prop} {x : Exit Exn} {c : Call}

/-- The bodies of the calls that `c` leads to stop in pieces only. -/
theorem judge_stops (hbody : ∀ c, I c → (M.body c).StopsIn (P c))
    (hcalls : ∀ c, I c → (M.body c).CallsIn I) (hx : x.Stops) (n : ℕ) :
    ∀ q c, I c → (M.judge n q c).exit = x →
      ∃ c', ReflTransGen (fun c c' => c' ∈ (M.body c).calls) c c' ∧
        ∃ p m q', P c' p ∧ (p.judge (M.judge m) q').exit = x := by
  induction n with
  | zero =>
    intro q c _ h
    subst h
    exact absurd hx id
  | succ n ih =>
    intro q c hc h
    rcases (hbody c hc).judge hx h with ⟨p, hp, h⟩ | ⟨c₁, hc₁, b, h⟩
    · exact ⟨c, .refl, p, n, q, hp, h⟩
    · obtain ⟨c', hreach, hstop⟩ := ih b c₁ (hcalls c hc c₁ hc₁) h
      exact ⟨c', .head hc₁ hreach, hstop⟩

/-- **A run within the stack stops in a piece of a call that it leads to**, as the piece does. -/
theorem run_stops (hbody : ∀ c, I c → (M.body c).StopsIn (P c))
    (hcalls : ∀ c, I c → (M.body c).CallsIn I) (hc : I c) {n : ℕ} {s : State Tok Site}
    (hs : M.Safe (M.run n c s).2) (hx : (M.run n c s).1.stop = some x) :
    ∃ c', ReflTransGen (fun c c' => c' ∈ (M.body c).calls) c c' ∧
      ∃ p m q, P c' p ∧ (p.judge (M.judge m) q).exit = x := by
  have htracks := M.run_follows n c s hs.stored
  have hexit : (M.judge n s.shortCircuit c).exit = x := by
    generalize ho : (M.run n c s).1 = o at hx htracks
    cases o with
    | raised y =>
      obtain rfl := Option.some.inj hx
      exact htracks
    | crashed =>
      obtain rfl := Option.some.inj hx
      exact htracks hs
    | _ => cases hx
  exact judge_stops hbody hcalls (Outcome.stops hx) n _ c hc hexit

end Machine

end Traversal
