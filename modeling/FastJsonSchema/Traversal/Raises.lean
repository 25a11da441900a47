import Mathlib.Control.Monad.Basic
import Mathlib.Data.List.Basic
import Mathlib.Tactic.Common

/-!
# The first error of a traversal

A traversal that stops at the first error is described by the list of all errors that there are, in
the order in which it would meet them: it raises the first one, and ends when there is none
(`First`, and `Raises` for a traversal with a state). The errors of a sequence of traversals are
those of its parts, one after the other.
-/

namespace Traversal

variable {ε σ α β : Type} {e : ε} {es fs : List ε}

/-- The outcome of a computation whose errors, in order, are a list. -/
inductive First : Except ε α → List ε → Prop
  | ok (a : α) : First (.ok a) []
  | error (e : ε) (es : List ε) : First (.error e) (e :: es)

/-- The error of a single step. -/
def errorOf : Except ε α → List ε
  | .ok _ => []
  | .error e => [e]

theorem mem_errorOf {x : Except ε α} : e ∈ errorOf x ↔ x = .error e := by
  cases x with
  | ok a => exact iff_of_false List.not_mem_nil nofun
  | error e' => rw [errorOf, List.mem_singleton, Except.error.injEq, eq_comm]

theorem exists_ok_iff_forall_ne {x : Except ε α} : (∃ a, x = .ok a) ↔ ∀ e, x ≠ .error e := by
  cases x with
  | ok a => exact iff_of_true ⟨a, rfl⟩ nofun
  | error e => exact iff_of_false nofun fun h => h e rfl

namespace First

variable {x : Except ε α}

theorem of_errorOf (x : Except ε α) : First x (errorOf x) := by
  cases x with
  | ok a => exact .ok a
  | error e => exact .error e []

theorem bind {f : α → Except ε β} (h : First x es) (hf : ∀ a, x = .ok a → First (f a) fs) :
    First (x >>= f) (es ++ fs) := by
  cases h with
  | ok a => exact hf a rfl
  | error e es => exact .error e (es ++ fs)

theorem bind_pure {f : α → β} (h : First x es) : First (x >>= fun a => Pure.pure (f a)) es := by
  rw [← List.append_nil es]
  exact h.bind fun a _ => .ok (f a)

theorem map {f : α → β} (h : First x es) : First (x.map f) es := by
  cases h with
  | ok a => exact .ok (f a)
  | error e es => exact .error e es

theorem exists_ok_iff (h : First x es) : (∃ a, x = .ok a) ↔ es = [] := by
  cases h with
  | ok a => exact iff_of_true ⟨a, rfl⟩ rfl
  | error e es => exact iff_of_false (fun ⟨_, h⟩ => nomatch h) (List.cons_ne_nil e es)

theorem eq_error_iff (h : First x es) : x = .error e ↔ es.head? = some e := by
  cases h with
  | ok a => exact iff_of_false nofun nofun
  | error e' es => rw [Except.error.injEq, List.head?_cons, Option.some_inj]

end First

/-- The outcome of a traversal with a state whose errors, in order, are `es`. -/
def Raises (m : StateT σ (Except ε) α) (es : List ε) : Prop := ∀ s, First (m s) es

namespace Raises

variable {m : StateT σ (Except ε) α} {f : α → StateT σ (Except ε) β}

theorem pure (a : α) : Raises (Pure.pure a : StateT σ (Except ε) α) [] := fun s => .ok (a, s)

theorem throw (e : ε) (es : List ε) :
    Raises (MonadExcept.throw e : StateT σ (Except ε) α) (e :: es) := fun _ => .error e es

theorem bind (h : Raises m es) (hf : ∀ a, Raises (f a) fs) : Raises (m >>= f) (es ++ fs) :=
  fun s => (h s).bind fun x _ => hf x.1 x.2

theorem bind_pure {g : α → β} (h : Raises m es) : Raises (m >>= fun a => Pure.pure (g a)) es := by
  rw [← List.append_nil es]
  exact h.bind fun a => .pure (g a)

theorem map {g : α → β} (h : Raises m es) : Raises (g <$> m) es := by
  rw [map_eq_pure_bind]
  exact h.bind_pure

theorem lift (x : Except ε α) : Raises (MonadLift.monadLift x : StateT σ (Except ε) α)
    (errorOf x) := by
  intro s
  cases x with
  | ok a => exact .ok (a, s)
  | error e => exact .error e []

end Raises

end Traversal
