import Mathlib.Data.List.Basic
import Mathlib.Tactic.Common

/-!
# Arrays that are filled from the front

A `Buffer` is an array of a fixed length with the index of its next store. A store outside the array
is a fault, so a list of stores that ends has stayed inside (`storeAll_alloc`).
-/

namespace Table

/-- An allocated array, with the number of its stores. -/
structure Buffer (α : Type*) where
  slots : List (Option α)
  count : ℕ

namespace Buffer

variable {α : Type*} {b b' : Buffer α} {x : α} {xs ys : List α} {n : ℕ}

/-- An array of `n` slots, none of them set. -/
def alloc (n : ℕ) : Buffer α := ⟨List.replicate n none, 0⟩

/-- Set the next slot; `none` when it is not a slot of the array. -/
def store (b : Buffer α) (x : α) : Option (Buffer α) :=
  if b.count < b.slots.length then some ⟨b.slots.set b.count (some x), b.count + 1⟩ else none

/-- Stores one after the other. -/
def storeAll (b : Buffer α) (xs : List α) : Option (Buffer α) := xs.foldlM store b

theorem storeAll_nil : b.storeAll [] = some b := List.foldlM_nil

theorem storeAll_singleton : b.storeAll [x] = b.store x := by
  rw [storeAll, List.foldlM_cons]
  exact Option.bind_fun_some (b.store x)

theorem storeAll_append_eq_some :
    b.storeAll (xs ++ ys) = some b' ↔ ∃ c, b.storeAll xs = some c ∧ c.storeAll ys = some b' := by
  rw [storeAll, List.foldlM_append]
  exact Option.bind_eq_some_iff

/-- The first slots hold `xs`, and `n` slots are left. -/
structure Holds (b : Buffer α) (xs : List α) (n : ℕ) : Prop where
  slots : b.slots = xs.map some ++ List.replicate n none
  count : b.count = xs.length

theorem holds_alloc (n : ℕ) : (alloc n : Buffer α).Holds [] n := ⟨rfl, rfl⟩

theorem Holds.store (h : b.Holds xs (n + 1)) :
    ∃ b', b.store x = some b' ∧ b'.Holds (xs ++ [x]) n := by
  have room : b.count < b.slots.length := by
    rw [h.slots, h.count, List.length_append, List.length_map, List.length_replicate]
    omega
  refine ⟨_, if_pos room, ?_, ?_⟩
  · rw [h.slots, h.count, List.set_append_right _ _ (Nat.le_of_eq (List.length_map _)),
      List.length_map, Nat.sub_self, List.replicate_succ, List.set_cons_zero, List.map_append,
      List.append_assoc]
    rfl
  · rw [h.count, List.length_append, List.length_singleton]

theorem Holds.storeAll (h : b.Holds xs (ys.length + n)) :
    ∃ b', b.storeAll ys = some b' ∧ b'.Holds (xs ++ ys) n := by
  induction ys generalizing b xs with
  | nil =>
    rw [List.length_nil, Nat.zero_add] at h
    rw [List.append_nil]
    exact ⟨b, storeAll_nil, h⟩
  | cons y ys ih =>
    rw [List.length_cons, Nat.add_right_comm] at h
    obtain ⟨c, hc, h⟩ := h.store (x := y)
    obtain ⟨b', hb', h⟩ := ih h
    rw [List.append_assoc, List.singleton_append] at h
    have hstore : b.storeAll [y] = some c := storeAll_singleton.trans hc
    exact ⟨b', storeAll_append_eq_some.2 ⟨c, hstore, hb'⟩, h⟩

/-- An array with a slot for each store ends full. -/
theorem storeAll_alloc (xs : List α) :
    (alloc xs.length).storeAll xs = some ⟨xs.map some, xs.length⟩ := by
  have start : (alloc xs.length : Buffer α).Holds [] (xs.length + 0) := holds_alloc xs.length
  obtain ⟨b, hb, h⟩ := start.storeAll
  rw [List.nil_append] at h
  have hslots : b.slots = xs.map some := by
    rw [h.slots, List.replicate_zero, List.append_nil]
  rw [hb, ← hslots, ← h.count]

end Buffer

end Table
