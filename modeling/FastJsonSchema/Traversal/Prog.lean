import Mathlib.Data.Int.Basic
import Mathlib.Data.Int.Order.Basic
import Mathlib.Data.List.Basic
import Mathlib.Order.Basic
import Mathlib.Tactic.Common

/-!
# Short-circuiting traversals

A language for recursive checkers that walk a tree, report failures and keep the way from the
root in a bounded stack. A program is run in one of two modes, told apart by the flag
`Context.shortCircuit`:

* in the loud mode a failure is reported, with the path on the stack, and the run goes on;
* in the quiet mode a failure is a non-local exit to the nearest `guarded` frame, which turns
  it into a Boolean and restores the flag it found.

The stack has `Machine.max` slots. `each` pushes a level behind a guard, writes one token for
each element and pops the level, unless the elements leave by an exit. What a store past the
last slot does is not part of the language: it is the parameter `Machine.overrun`. Every
entered level and every access of the stack is logged, so that a run can be asked which slots
it touched.

Calls are open: `exec` takes the meaning of a call as a parameter, and `Machine.run` ties the
knot with a fuel.
-/

namespace Traversal

/-- Programs over call targets, path tokens, failure sites and exceptions. -/
inductive Prog (Call Tok Site Exn : Type) : Type
  /-- Do nothing. -/
  | skip
  /-- Report a failure. -/
  | fail (e : Site)
  /-- Raise an exception. -/
  | raise (x : Exn)
  /-- Undefined behaviour other than a store past the stack: the process dies. -/
  | crash
  /-- Run `p`, then `q`. -/
  | seq (p q : Prog Call Tok Site Exn)
  /-- Run the body of a call target. -/
  | call (c : Call)
  /-- Run the body of `c` in the quiet mode and go on with its verdict. -/
  | guarded (c : Call) (k : Bool → Prog Call Tok Site Exn)
  /-- Push a level, run the elements, each with its token on top of the stack, pop the level. -/
  | each (xs : List (Tok × Prog Call Tok Site Exn))

/-- The stack of path tokens and the mode. -/
structure Context (Tok : Type) where
  path : ℕ → Option Tok
  depth : ℤ
  shortCircuit : Bool

/-- What a run does to the stack: it enters a level, with or without elements, it stores a
token into a slot, or it reads all slots up to one. -/
inductive Access
  | enter (depth : ℤ) (nonempty : Bool)
  | write (index : ℤ)
  | read (index : ℤ)
  deriving DecidableEq

/-- The state of a run: its context, the failures reported so far, each with the path read off
the stack, and the log of its accesses. -/
structure State (Tok Site : Type) extends Context Tok where
  errors : List (Site × List Tok)
  log : List Access

/-- How a run ends. -/
inductive Outcome (Exn : Type)
  | done
  /-- By the non-local exit of a failure in the quiet mode. -/
  | thrown
  | raised (x : Exn)
  /-- By the guard of `each`. -/
  | tooDeep
  /-- By a slot without a token in the path of a report. -/
  | badPath
  | crashed
  /-- The fuel ran out; no run of the modelled program ends so. -/
  | starved
  deriving DecidableEq

variable {Call Tok Site Exn : Type}

/-- The bound of the stack, what a store past it does (`none`: the process dies), and the body
of every call target. -/
structure Machine (Call Tok Site Exn : Type) where
  max : ℕ
  overrun : Tok → Context Tok → Option (Context Tok)
  body : Call → Prog Call Tok Site Exn

/-- The result of a run. -/
abbrev Result (Tok Site Exn : Type) := Outcome Exn × State Tok Site

namespace State

/-- The state with an access logged. -/
def logged (s : State Tok Site) (a : Access) : State Tok Site := { s with log := s.log ++ [a] }

/-- The state in the given mode. -/
def mode (s : State Tok Site) (b : Bool) : State Tok Site := { s with shortCircuit := b }

/-- The state with a level pushed. -/
def enter (s : State Tok Site) (nonempty : Bool) : State Tok Site :=
  { s.logged (.enter s.depth nonempty) with depth := s.depth + 1 }

/-- The state with a level popped. -/
def leave (s : State Tok Site) : State Tok Site := { s with depth := s.depth - 1 }

/-- The tokens of the slots up to the current depth. -/
def readPath (s : State Tok Site) : Option (List Tok) :=
  (List.range (s.depth + 1).toNat).mapM s.path

section Fields

variable (s : State Tok Site) (a : Access) (b : Bool)

@[simp] theorem log_logged : (s.logged a).log = s.log ++ [a] := rfl
@[simp] theorem depth_logged : (s.logged a).depth = s.depth := rfl
@[simp] theorem path_logged : (s.logged a).path = s.path := rfl
@[simp] theorem errors_logged : (s.logged a).errors = s.errors := rfl
@[simp] theorem shortCircuit_logged : (s.logged a).shortCircuit = s.shortCircuit := rfl

@[simp] theorem log_mode : (s.mode b).log = s.log := rfl
@[simp] theorem depth_mode : (s.mode b).depth = s.depth := rfl
@[simp] theorem path_mode : (s.mode b).path = s.path := rfl
@[simp] theorem errors_mode : (s.mode b).errors = s.errors := rfl
@[simp] theorem shortCircuit_mode : (s.mode b).shortCircuit = b := rfl

@[simp] theorem log_enter : (s.enter b).log = s.log ++ [.enter s.depth b] := rfl
@[simp] theorem depth_enter : (s.enter b).depth = s.depth + 1 := rfl
@[simp] theorem path_enter : (s.enter b).path = s.path := rfl
@[simp] theorem errors_enter : (s.enter b).errors = s.errors := rfl
@[simp] theorem shortCircuit_enter : (s.enter b).shortCircuit = s.shortCircuit := rfl

@[simp] theorem log_leave : s.leave.log = s.log := rfl
@[simp] theorem depth_leave : s.leave.depth = s.depth - 1 := rfl
@[simp] theorem path_leave : s.leave.path = s.path := rfl
@[simp] theorem errors_leave : s.leave.errors = s.errors := rfl
@[simp] theorem shortCircuit_leave : s.leave.shortCircuit = s.shortCircuit := rfl

end Fields

end State

namespace Result

/-- Go on with `f` from the state of a finished run; any other end is passed on. -/
def andThen (r : Result Tok Site Exn) (f : State Tok Site → Result Tok Site Exn) :
    Result Tok Site Exn :=
  match r.1 with
  | .done => f r.2
  | _ => r

/-- Go on with the verdict of a guarded run. -/
def branch (r : Result Tok Site Exn) (f : Bool → State Tok Site → Result Tok Site Exn) :
    Result Tok Site Exn :=
  match r.1 with
  | .done => f true r.2
  | .thrown => f false r.2
  | _ => r

/-- Pop the level when its elements are done; any other end skips the pop. -/
def leave (r : Result Tok Site Exn) : Result Tok Site Exn := r.andThen fun s => (.done, s.leave)

/-- The verdict of a guarded run that returns. -/
def verdict (r : Result Tok Site Exn) : Option Bool :=
  match r.1 with
  | .done => some true
  | .thrown => some false
  | _ => none

end Result

namespace Machine

variable (M : Machine Call Tok Site Exn)

/-- Report a failure: an exit in the quiet mode, a report with the path in the loud one. -/
def yieldError (e : Site) (s : State Tok Site) : Result Tok Site Exn :=
  if s.shortCircuit then (.thrown, s)
  else if (M.max : ℤ) ≤ s.depth then (.crashed, s.logged (.read s.depth))
  else
    match s.readPath with
    | none => (.badPath, s.logged (.read s.depth))
    | some ts =>
      (.done, { s.logged (.read s.depth) with errors := s.errors ++ [(e, ts)] })

/-- Store a token into the slot at the current depth. -/
def write (t : Tok) (s : State Tok Site) : Result Tok Site Exn :=
  if 0 ≤ s.depth ∧ s.depth < M.max then
    (.done, { s.logged (.write s.depth) with
      path := Function.update s.path s.depth.toNat (some t) })
  else
    match M.overrun t s.toContext with
    | none => (.crashed, s.logged (.write s.depth))
    | some c => (.done, { s.logged (.write s.depth) with toContext := c })

/-- Run a call in the quiet mode and restore the mode, however the call ends. -/
def protect (callee : Call → State Tok Site → Result Tok Site Exn) (c : Call)
    (s : State Tok Site) : Result Tok Site Exn :=
  ((callee c (s.mode true)).1, (callee c (s.mode true)).2.mode s.shortCircuit)

mutual

/-- Run a program, given the meaning of calls. -/
def exec (callee : Call → State Tok Site → Result Tok Site Exn) :
    Prog Call Tok Site Exn → State Tok Site → Result Tok Site Exn
  | .skip, s => (.done, s)
  | .fail e, s => M.yieldError e s
  | .raise x, s => (.raised x, s)
  | .crash, s => (.crashed, s)
  | .seq p q, s => (exec callee p s).andThen (exec callee q)
  | .call c, s => callee c s
  | .guarded c k, s => (protect callee c s).branch fun b => exec callee (k b)
  | .each xs, s =>
    if (M.max : ℤ) < s.depth + 1 then (.tooDeep, s.enter !xs.isEmpty)
    else (execEach callee xs (s.enter !xs.isEmpty)).leave

/-- Run the elements of a level. -/
def execEach (callee : Call → State Tok Site → Result Tok Site Exn) :
    List (Tok × Prog Call Tok Site Exn) → State Tok Site → Result Tok Site Exn
  | [], s => (.done, s)
  | (t, p) :: xs, s =>
    (M.write t s).andThen fun s' => (exec callee p s').andThen (execEach callee xs)

end

/-- Run the body of a call. A collection of the host may start in any call and read the stack. -/
def run : ℕ → Call → State Tok Site → Result Tok Site Exn
  | 0, _, s => (.starved, s)
  | n + 1, c, s => M.exec (run n) (M.body c) (s.logged (.read s.depth))

/-- `M.Runs c s r`: the body of `c` run from `s` ends in `r`. -/
def Runs (c : Call) (s : State Tok Site) (r : Result Tok Site Exn) : Prop :=
  ∃ n, M.run n c s = r ∧ r.1 ≠ .starved

/-- `M.Guards c s r`: a guarded call of `c` from `s` ends in `r`. -/
def Guards (c : Call) (s : State Tok Site) (r : Result Tok Site Exn) : Prop :=
  ∃ n, protect (M.run n) c s = r ∧ r.1 ≠ .starved

/-- An access that stays within the stack. -/
def InRange : Access → Prop
  | .enter _ _ => True
  | .write i => 0 ≤ i ∧ i < M.max
  | .read i => i < M.max

instance : DecidablePred M.InRange
  | .enter _ _ => inferInstanceAs (Decidable True)
  | .write i => inferInstanceAs (Decidable (0 ≤ i ∧ i < M.max))
  | .read i => inferInstanceAs (Decidable (i < M.max))

/-- Every access in the log of the state stays within the stack. -/
def Safe (s : State Tok Site) : Prop := ∀ a ∈ s.log, M.InRange a

instance : DecidablePred M.Safe := fun s => inferInstanceAs (Decidable (∀ a ∈ s.log, M.InRange a))

/-- Every store in the log of the state stays within the stack. -/
def Stored (s : State Tok Site) : Prop :=
  ∀ i : ℤ, .write i ∈ s.log → 0 ≤ i ∧ i < M.max

variable {M} in
theorem Safe.stored {s : State Tok Site} (h : M.Safe s) : M.Stored s := fun i hi => h (.write i) hi

end Machine

namespace Prog

/-- A block of statements. -/
def block : List (Prog Call Tok Site Exn) → Prog Call Tok Site Exn
  | [] => .skip
  | p :: ps => .seq p (block ps)

/-- Run `p` when the condition holds. -/
def when (b : Bool) (p : Prog Call Tok Site Exn) : Prog Call Tok Site Exn := if b then p else .skip

mutual

/-- Induction over programs, with the elements of a level as one family of hypotheses. -/
theorem induct {P : Prog Call Tok Site Exn → Prop} (skip : P .skip) (fail : ∀ e, P (.fail e))
    (raise : ∀ x, P (.raise x)) (crash : P .crash) (seq : ∀ p q, P p → P q → P (.seq p q))
    (call : ∀ c, P (.call c)) (guarded : ∀ c k, (∀ b, P (k b)) → P (.guarded c k))
    (each : ∀ xs, (∀ x ∈ xs, P x.2) → P (.each xs)) : ∀ p, P p
  | .skip => skip
  | .fail e => fail e
  | .raise x => raise x
  | .crash => crash
  | .seq p q => seq p q (induct skip fail raise crash seq call guarded each p)
      (induct skip fail raise crash seq call guarded each q)
  | .call c => call c
  | .guarded c k => guarded c k fun b => induct skip fail raise crash seq call guarded each (k b)
  | .each xs => each xs (inductEach skip fail raise crash seq call guarded each xs)

theorem inductEach {P : Prog Call Tok Site Exn → Prop} (skip : P .skip) (fail : ∀ e, P (.fail e))
    (raise : ∀ x, P (.raise x)) (crash : P .crash) (seq : ∀ p q, P p → P q → P (.seq p q))
    (call : ∀ c, P (.call c)) (guarded : ∀ c k, (∀ b, P (k b)) → P (.guarded c k))
    (each : ∀ xs, (∀ x ∈ xs, P x.2) → P (.each xs)) :
    ∀ xs : List (Tok × Prog Call Tok Site Exn), ∀ x ∈ xs, P x.2
  | [], _, hx => nomatch hx
  | (t, p) :: xs, x, hx => by
    rcases List.mem_cons.1 hx with rfl | hx
    · exact induct skip fail raise crash seq call guarded each p
    · exact inductEach skip fail raise crash seq call guarded each xs x hx

end

attribute [elab_as_elim, induction_eliminator] induct

end Prog

end Traversal
