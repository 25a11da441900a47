import FastJsonSchema.Traversal.Calls
import FastJsonSchema.Traversal.Verdict

/-!
# Recursive checkers and their equations

A checker may call itself about the same value, through a reference. What its verdicts mean is then
said by equations: one for each call, over the verdicts of the calls it leads to. When the calls
lead down a well-founded relation, the equations have one solution (`existsUnique_solution`), and
the judgements of the calls decide it (`exists_judge_decides`).
-/

namespace Traversal

/-- **Recursion with equations.** When each equation only reads the values below its own, along a
well-founded relation, there is exactly one solution. -/
theorem existsUnique_solution {α β : Type} [Inhabited β] {r : α → α → Prop} (hr : WellFounded r)
    {F : (α → β) → α → β} (hF : ∀ f g a, (∀ b, r b a → f b = g b) → F f a = F g a) :
    ∃! f : α → β, ∀ a, f a = F f a := by
  classical
  apply existsUnique_of_exists_of_unique
  · -- below `a` the recursive values, anything elsewhere
    let step : ∀ a, (∀ b, r b a → β) → β := fun a rec =>
      F (fun b => if h : r b a then rec b h else default) a
    refine ⟨hr.fix step, fun a => ?_⟩
    rw [hr.fix_eq]
    apply hF
    intro b hb
    rw [dif_pos hb]
  · intro f g hf hg
    funext a
    induction a using hr.induction with
    | _ a ih => rw [hf a, hg a, hF f g a ih]

/-- Equations for the elements of a set only, each over elements of the set: there is a solution,
and any two agree on the set. -/
theorem exists_solution_on {α β : Type} [Inhabited β] {P : α → Prop} {r : α → α → Prop}
    (hr : WellFounded fun b a : {a // P a} => r b.1 a.1) {F : (α → β) → α → β}
    (hF : ∀ f g a, P a → (∀ b, P b → r b a → f b = g b) → F f a = F g a) :
    (∃ f, ∀ a, P a → f a = F f a) ∧ ∀ f g, (∀ a, P a → f a = F f a) → (∀ a, P a → g a = F g a) →
      ∀ a, P a → f a = g a := by
  classical
  -- a family on the set, as one on everything
  let extend : ({a // P a} → β) → α → β := fun f a => if ha : P a then f ⟨a, ha⟩ else default
  have hextend : ∀ f (a : {a // P a}), extend f a = f a := fun f a => dif_pos a.2
  obtain ⟨f, hf, hunique⟩ := existsUnique_solution hr (F := fun f a => F (extend f) a.1)
    fun f g a h => hF _ _ a.1 a.2 fun b hb hba => by
      rw [hextend f ⟨b, hb⟩, hextend g ⟨b, hb⟩, h ⟨b, hb⟩ hba]
  have hsolves : ∀ g, (∀ a, P a → g a = F g a) → (fun a : {a // P a} => g a.1) = f := by
    intro g hg
    refine hunique _ fun a => (hg a.1 a.2).trans (hF _ _ a.1 a.2 fun b hb _ => ?_)
    exact (hextend (fun a => g a.1) ⟨b, hb⟩).symm
  constructor
  · exact ⟨extend f, fun a ha => (hextend f ⟨a, ha⟩).trans (hf ⟨a, ha⟩)⟩
  · intro g g' hg hg' a ha
    exact congrFun ((hsolves g hg).trans (hsolves g' hg').symm) ⟨a, ha⟩

variable {Call Tok Site Exn : Type}

section Congr

variable {callee callee' : Bool → Call → Judgement Site Exn}

theorem Prog.judgeEach_congr {quiet : Bool} {xs : List (Tok × Prog Call Tok Site Exn)}
    (hx : ∀ x ∈ xs, x.2.judge callee' quiet = x.2.judge callee quiet) :
    Prog.judgeEach callee' quiet xs = Prog.judgeEach callee quiet xs := by
  induction xs with
  | nil => rfl
  | cons x xs ih =>
    obtain ⟨t, p⟩ := x
    have ⟨hp, hxs⟩ := List.forall_mem_cons.1 hx
    rw [Prog.judgeEach, Prog.judgeEach, hp, ih hxs]

/-- The judgement of a program depends on those of its calls only. -/
theorem Prog.judge_congr (quiet : Bool) (p : Prog Call Tok Site Exn)
    (hc : p.CallsIn fun c => ∀ q, callee' q c = callee q c) :
    p.judge callee' quiet = p.judge callee quiet := by
  induction p with
  | skip => rfl
  | fail e => rfl
  | raise x => rfl
  | crash => rfl
  | seq p q ihp ihq =>
    rw [Prog.judge, Prog.judge, ihp fun c h => hc c (Prog.mem_calls_seq.2 (.inl h)),
      ihq fun c h => hc c (Prog.mem_calls_seq.2 (.inr h))]
  | call c => exact hc c (List.mem_singleton.2 rfl) quiet
  | guarded c k ih =>
    rw [Prog.judge, Prog.judge, hc c (Prog.mem_calls_guarded.2 (.inl rfl))]
    congr 1
    funext b
    exact ih b fun c' h => hc c' (Prog.mem_calls_guarded.2 (.inr ⟨b, h⟩))
  | each xs ih =>
    rw [Prog.judge, Prog.judge, Prog.judgeEach_congr]
    intro x hx
    exact ih x hx fun c h => hc c (Prog.mem_calls_each.2 ⟨x, hx, h⟩)

end Congr

namespace Machine

variable {M : Machine Call Tok Site Exn}

/-- The calls of a list are judged with one fuel. -/
theorem exists_judge_of_forall {P : Call → Judgement Site Exn → Prop} {q : Bool} {l : List Call}
    (hP : ∀ c j, P c j → j.exit ≠ .starved) (h : ∀ c ∈ l, ∃ n, P c (M.judge n q c)) :
    ∃ n, ∀ c ∈ l, P c (M.judge n q c) := by
  have hmono : ∀ {n m : ℕ} {c : Call}, n ≤ m → P c (M.judge n q c) → P c (M.judge m q c) := by
    intro n m c hnm hc
    rwa [M.judge_mono hnm q c (hP _ _ hc)]
  induction l with
  | nil => exact ⟨0, fun c hc => absurd hc List.not_mem_nil⟩
  | cons c l ih =>
    have ⟨⟨n, hn⟩, hl⟩ := List.forall_mem_cons.1 h
    obtain ⟨m, hm⟩ := ih hl
    exact ⟨n + m, List.forall_mem_cons.2 ⟨hmono (Nat.le_add_right n m) hn,
      fun c hc => hmono (Nat.le_add_left m n) (hm c hc)⟩⟩

/-- **The judgements decide the solution.** Where no chain of calls goes on forever and each body
decides its verdict as soon as its calls decide theirs, every call of a set closed under calls
decides its verdict. -/
theorem exists_judge_decides {P : Call → Prop} {f : Call → Bool}
    (hP : ∀ c, P c → (M.body c).CallsIn P)
    (hf : ∀ c, P c → ∀ callee : Bool → Call → Judgement Site Exn,
      (∀ c' ∈ (M.body c).calls, (callee true c').Decides (f c')) →
        (M.body c).Decides callee (f c))
    {c : Call} (h : Acc (fun c' c => c' ∈ (M.body c).calls) c) (hc : P c) :
    ∃ n, (M.judge n true c).Decides (f c) := by
  induction h with
  | intro c _ ih =>
    obtain ⟨n, hn⟩ := exists_judge_of_forall (M := M) (P := fun c j => j.Decides (f c)) (q := true)
      (l := (M.body c).calls) (fun _ _ hj => hj.ne_starved)
      fun c' hc' => ih c' hc' (hP c hc c' hc')
    exact ⟨n + 1, hf c hc (M.judge n) hn⟩

end Machine

end Traversal
