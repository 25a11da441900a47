import FastJsonSchema.Traversal.Calls
import Mathlib.Data.List.Forall2

/-!
# Programs that make related calls

`p.Mirrors R q` says that `q` is the program `p` but for its calls, which `R` relates to those of
`p`. When the bodies of related calls mirror each other, related calls run in the same way
(`run_mirrors`). The rules below say when a program mirrors another that is put together in the same
way.
-/

namespace Traversal

variable {Call Tok Site Exn : Type}

namespace Prog

mutual

/-- The same program, with calls related by `R`. -/
inductive Mirrors (R : Call → Call → Prop) : Prog Call Tok Site Exn → Prog Call Tok Site Exn → Prop
  | skip : Mirrors R .skip .skip
  | fail (e : Site) : Mirrors R (.fail e) (.fail e)
  | raise (x : Exn) : Mirrors R (.raise x) (.raise x)
  | crash : Mirrors R .crash .crash
  | seq {p p' q q' : Prog Call Tok Site Exn} (hp : Mirrors R p p') (hq : Mirrors R q q') :
    Mirrors R (.seq p q) (.seq p' q')
  | call {c c' : Call} (h : R c c') : Mirrors R (.call c) (.call c')
  | guarded {c c' : Call} {k k' : Bool → Prog Call Tok Site Exn} (h : R c c')
    (hk : ∀ b, Mirrors R (k b) (k' b)) : Mirrors R (.guarded c k) (.guarded c' k')
  | each {xs ys : List (Tok × Prog Call Tok Site Exn)} (h : MirrorsEach R xs ys) :
    Mirrors R (.each xs) (.each ys)

/-- The same elements of a level, with calls related by `R`. -/
inductive MirrorsEach (R : Call → Call → Prop) :
    List (Tok × Prog Call Tok Site Exn) → List (Tok × Prog Call Tok Site Exn) → Prop
  | nil : MirrorsEach R [] []
  | cons {t : Tok} {p q : Prog Call Tok Site Exn} {xs ys : List (Tok × Prog Call Tok Site Exn)}
    (h : Mirrors R p q) (hs : MirrorsEach R xs ys) : MirrorsEach R ((t, p) :: xs) ((t, q) :: ys)

end

namespace Mirrors

variable {R S : Call → Call → Prop} {p q : Prog Call Tok Site Exn}

/-! ## Rules -/

theorem block {ps qs : List (Prog Call Tok Site Exn)} (h : List.Forall₂ (Mirrors R) ps qs) :
    Mirrors R (.block ps) (.block qs) := by
  induction h with
  | nil => exact .skip
  | cons h _ ih => exact .seq h ih

theorem when {b : Bool} (h : b = true → Mirrors R p q) : Mirrors R (.when b p) (.when b q) := by
  cases b with
  | true => exact h rfl
  | false => exact .skip

/-- Two loops over related lists, with the same tokens. -/
theorem each_map {α β : Type*} {T : α → β → Prop} {xs : List α} {ys : List β} {t : α → Tok}
    {t' : β → Tok} {f : α → Prog Call Tok Site Exn} {g : β → Prog Call Tok Site Exn}
    (h : List.Forall₂ T xs ys) (hfg : ∀ x y, T x y → t x = t' y ∧ Mirrors R (f x) (g y)) :
    Mirrors R (.each (xs.map fun x => (t x, f x))) (.each (ys.map fun y => (t' y, g y))) := by
  refine .each ?_
  induction h with
  | nil => exact .nil
  | @cons x y xs ys h _ ih =>
    obtain ⟨ht, hp⟩ := hfg x y h
    rw [List.map_cons, List.map_cons, ht]
    exact .cons hp ih

/-- A program mirrors itself when its calls are related to themselves. -/
theorem refl (h : p.CallsIn fun c => R c c) : Mirrors R p p := by
  induction p with
  | skip => exact .skip
  | fail e => exact .fail e
  | raise x => exact .raise x
  | crash => exact .crash
  | seq p q ihp ihq =>
    exact .seq (ihp fun c hc => h c (mem_calls_seq.2 (.inl hc)))
      (ihq fun c hc => h c (mem_calls_seq.2 (.inr hc)))
  | call c => exact .call (h c (List.mem_singleton_self c))
  | guarded c k ih =>
    exact .guarded (h c (mem_calls_guarded.2 (.inl rfl)))
      fun b => ih b fun c' hc' => h c' (mem_calls_guarded.2 (.inr ⟨b, hc'⟩))
  | each xs ih =>
    have hxs : ∀ x ∈ xs, Mirrors R x.2 x.2 := fun x hx =>
      ih x hx fun c hc => h c (mem_calls_each.2 ⟨x, hx, hc⟩)
    refine .each ?_
    clear ih h
    induction xs with
    | nil => exact .nil
    | cons x xs ih =>
      obtain ⟨hx, hxs⟩ := List.forall_mem_cons.1 hxs
      exact .cons hx (ih hxs)

theorem eachMono {xs ys : List (Tok × Prog Call Tok Site Exn)} (h : MirrorsEach R xs ys)
    (hS : ∀ x ∈ xs, ∀ p, Mirrors R x.2 p → Mirrors S x.2 p) : MirrorsEach S xs ys := by
  induction xs generalizing ys with
  | nil =>
    cases h
    exact .nil
  | cons x xs ih =>
    cases h with
    | cons h hs =>
      obtain ⟨hx, hxs⟩ := List.forall_mem_cons.1 hS
      exact .cons (hx _ h) (ih hs hxs)

/-- A relation that follows for the calls that the program makes. -/
theorem mono (h : Mirrors R p q) (hS : ∀ c ∈ p.calls, ∀ c', R c c' → S c c') : Mirrors S p q := by
  induction p generalizing q with
  | skip =>
    cases h
    exact .skip
  | fail e =>
    cases h
    exact .fail e
  | raise x =>
    cases h
    exact .raise x
  | crash =>
    cases h
    exact .crash
  | seq p p' ihp ihq =>
    cases h with
    | seq hp hq =>
      exact .seq (ihp hp fun c hc => hS c (mem_calls_seq.2 (.inl hc)))
        (ihq hq fun c hc => hS c (mem_calls_seq.2 (.inr hc)))
  | call c =>
    cases h with
    | call h => exact .call (hS c (List.mem_singleton_self c) _ h)
  | guarded c k ih =>
    cases h with
    | guarded h hk =>
      exact .guarded (hS c (mem_calls_guarded.2 (.inl rfl)) _ h)
        fun b => ih b (hk b) fun c' hc' => hS c' (mem_calls_guarded.2 (.inr ⟨b, hc'⟩))
  | each xs ih =>
    cases h with
    | each h =>
      exact .each (eachMono h fun x hx p hp =>
        ih x hx hp fun c hc => hS c (mem_calls_each.2 ⟨x, hx, hc⟩))

end Mirrors

end Prog

/-! ## Runs -/

namespace Machine

variable {M M' : Machine Call Tok Site Exn} {R : Call → Call → Prop}
  {callee callee' : Call → State Tok Site → Result Tok Site Exn}
  (hmax : M'.max = M.max) (hover : M'.overrun = M.overrun)

include hmax hover

theorem execEach_mirrors {xs ys : List (Tok × Prog Call Tok Site Exn)}
    (h : Prog.MirrorsEach R xs ys)
    (hx : ∀ x ∈ xs, ∀ q, x.2.Mirrors R q → ∀ s, M'.exec callee' q s = M.exec callee x.2 s) :
    ∀ s, M'.execEach callee' ys s = M.execEach callee xs s := by
  induction xs generalizing ys with
  | nil =>
    cases h
    exact fun _ => rfl
  | cons x xs ih =>
    cases h with
    | @cons t p q _ ys h hs =>
      obtain ⟨hp, hxs⟩ := List.forall_mem_cons.1 hx
      intro s
      rw [execEach, execEach, write_congr hmax hover]
      congr 1
      funext s'
      rw [hp q h s']
      congr 1
      funext s''
      exact ih hs hxs s''

/-- A program runs as the one that it mirrors when related calls do. -/
theorem exec_mirrors {p q : Prog Call Tok Site Exn} (h : p.Mirrors R q)
    (hc : ∀ c c', R c c' → ∀ s, callee' c' s = callee c s) :
    ∀ s, M'.exec callee' q s = M.exec callee p s := by
  induction p generalizing q with
  | skip =>
    cases h
    exact fun _ => rfl
  | fail e =>
    cases h
    exact yieldError_congr hmax e
  | raise x =>
    cases h
    exact fun _ => rfl
  | crash =>
    cases h
    exact fun _ => rfl
  | seq p p' ihp ihq =>
    cases h with
    | seq hp hq =>
      intro s
      rw [exec, exec, ihp hp]
      congr 1
      funext s'
      exact ihq hq s'
  | call c =>
    cases h with
    | call h => exact hc c _ h
  | guarded c k ih =>
    cases h with
    | guarded h hk =>
      intro s
      rw [exec, exec, protect, protect, hc c _ h]
      congr 1
      funext b s'
      exact ih b (hk b) s'
  | each xs ih =>
    cases h with
    | @each _ ys h =>
      have hempty : ys.isEmpty = xs.isEmpty := by
        cases h <;> rfl
      intro s
      rw [exec, exec, hmax, hempty]
      congr 1
      rw [execEach_mirrors hmax hover h fun x hx q hq => ih x hx hq]

/-- **Related calls run in the same way** when their bodies mirror each other. -/
theorem run_mirrors (hbody : ∀ c c', R c c' → (M.body c).Mirrors R (M'.body c')) (n : ℕ) :
    ∀ c c', R c c' → ∀ s, M'.run n c' s = M.run n c s := by
  induction n with
  | zero => exact fun _ _ _ _ => rfl
  | succ n ih =>
    intro c c' hc s
    rw [run, run]
    exact exec_mirrors hmax hover (hbody c c' hc) ih _

end Machine

end Traversal
