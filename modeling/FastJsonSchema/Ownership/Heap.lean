import Mathlib.Data.Finset.Union
import Mathlib.Logic.Relation
import Mathlib.Tactic.Common

/-!
# Destructors and a collector that calls them

A heap is a finite set of allocated blocks. A trace reads and frees blocks, and an access to a block
that is not allocated is a fault. `Frees t U R` says what a destructor does: from every heap with
the blocks `U` and `R`, the trace `t` runs without a fault and frees exactly `R`.

An `Arena` is a set of objects of a garbage-collected host. Each object owns a region of the heap
and has a destructor that frees it. The host may destroy, in any order and at any time, an object
that cannot be reached from a root that the program holds. Whatever it does, no access is a fault
(`Arena.Reachable.step_isSome`), everything stays allocated as long as the program holds the root
(`Arena.Reachable.blocks_of_held`), and nothing is left when all objects are destroyed
(`Arena.Reachable.blocks_eq_empty`).
-/

namespace Ownership

open Relation

/-! ## Traces -/

/-- An access to a block. -/
inductive Event (Block : Type)
  | read (b : Block)
  | free (b : Block)
  deriving DecidableEq

section Traces

variable {Block : Type} [DecidableEq Block]

/-- The heap after an access; none when the access is a fault. -/
def Event.run (h : Finset Block) : Event Block → Option (Finset Block)
  | .read b => if b ∈ h then some h else none
  | .free b => if b ∈ h then some (h.erase b) else none

/-- The heap after a trace. -/
def runTrace : List (Event Block) → Finset Block → Option (Finset Block)
  | [], h => some h
  | e :: t, h => (e.run h).bind (runTrace t)

theorem runTrace_append (t t' : List (Event Block)) (h : Finset Block) :
    runTrace (t ++ t') h = (runTrace t h).bind (runTrace t') := by
  induction t generalizing h with
  | nil => rfl
  | cons e t ih =>
    rw [List.cons_append, runTrace, runTrace, Option.bind_assoc]
    congr 1
    funext h'
    exact ih h'

/-- From every heap with the blocks `U` and `R`, the trace frees exactly `R`. -/
def Frees (t : List (Event Block)) (U R : List Block) : Prop :=
  ∀ h : Finset Block, (∀ b ∈ U, b ∈ h) → (∀ b ∈ R, b ∈ h) → runTrace t h = some (h \ R.toFinset)

variable {t t' : List (Event Block)} {U R R' : List Block} {b : Block}

theorem Frees.nil : Frees [] U [] := by
  intro h _ _
  rw [runTrace, List.toFinset_nil, Finset.sdiff_empty]

theorem Frees.free : Frees [.free b] U [b] := by
  intro h _ hR
  rw [runTrace, Event.run, if_pos (hR b (List.mem_singleton.2 rfl)), Option.bind_some, runTrace,
    List.toFinset_cons, List.toFinset_nil, Finset.sdiff_insert, Finset.sdiff_empty]

/-- Two traces one after the other. The second may free what the first reads. -/
theorem Frees.append {V : List Block} (ht : Frees t V R) (ht' : Frees t' U R')
    (hV : ∀ b ∈ V, b ∈ U ∨ b ∈ R') (hU : U.Disjoint R) (hd : R.Disjoint R') :
    Frees (t ++ t') U (R ++ R') := by
  intro h hUh hR
  have hR' : ∀ b ∈ R', b ∈ h := fun b hb => hR b (List.mem_append_right _ hb)
  have hV' : ∀ b ∈ V, b ∈ h := fun b hb => (hV b hb).elim (hUh b) (hR' b)
  rw [runTrace_append, ht h hV' fun b hb => hR b (List.mem_append_left _ hb), Option.bind_some,
    ht', List.toFinset_append, Finset.sdiff_union_distrib, Finset.sdiff_sdiff_left']
  · intro b hb
    rw [Finset.mem_sdiff, List.mem_toFinset]
    exact ⟨hUh b hb, fun hbR => hU hb hbR⟩
  · intro b hb
    rw [Finset.mem_sdiff, List.mem_toFinset]
    exact ⟨hR' b hb, fun hbR => hd hbR hb⟩

/-- A trace may be given more blocks than it reads. -/
theorem Frees.weaken {U' : List Block} (ht : Frees t U R) (hU : ∀ b ∈ U, b ∈ U') :
    Frees t U' R :=
  fun h hUh hR => ht h (fun b hb => hUh b (hU b hb)) hR

theorem Frees.perm (ht : Frees t U R) (hR : R.Perm R') : Frees t U R' := by
  intro h hUh hR'
  rw [ht h hUh fun b hb => hR' b (hR.mem_iff.1 hb), List.toFinset_eq_of_perm _ _ hR]

/-- A read before a trace. -/
theorem Frees.read (hb : b ∈ U) (ht : Frees t U R) : Frees (.read b :: t) U R := by
  intro h hUh hR
  rw [runTrace, Event.run, if_pos (hUh b hb), Option.bind_some, ht h hUh hR]

/-- Traces one after the other. -/
theorem Frees.flatMap {α : Type} {f : α → List (Event Block)} {g : α → List Block} :
    ∀ {l : List α}, (∀ x ∈ l, Frees (f x) U (g x)) → U.Disjoint (l.flatMap g) →
      (l.flatMap g).Nodup → Frees (l.flatMap f) U (l.flatMap g)
  | [], _, _, _ => .nil
  | x :: l, h, hU, hd => by
    rw [List.flatMap_cons] at hU hd ⊢
    have ⟨hx, hl⟩ := List.forall_mem_cons.1 h
    have ⟨hUx, hUl⟩ := List.disjoint_append_right.1 hU
    have ⟨_, hdl, hdisj⟩ := List.nodup_append'.1 hd
    rw [List.flatMap_cons]
    exact hx.append (Frees.flatMap hl hUl hdl) (fun _ => .inl) hUx hdisj

end Traces

/-! ## Arenas -/

/-- The objects of a host and what each of them owns. -/
structure Arena (Object Block : Type) [DecidableEq Object] [DecidableEq Block] where
  root : Object
  objects : Finset Object
  /-- The blocks that an object owns. -/
  region : Object → List Block
  /-- What the destructor of an object does. -/
  destroy : Object → List (Event Block)
  /-- The objects that the collector marks when it visits an object. -/
  marks : Object → List Object
  root_mem : root ∈ objects
  frees : ∀ w ∈ objects, Frees (destroy w) [] (region w)
  disjoint : ∀ w ∈ objects, ∀ w' ∈ objects, w ≠ w' → (region w).Disjoint (region w')
  marked : ∀ w ∈ objects, ReflTransGen (fun w w' => w' ∈ marks w) root w

namespace Arena

variable {Object Block : Type} [DecidableEq Object] [DecidableEq Block] (A : Arena Object Block)

/-- The state of the host: whether the program holds the root, the objects that are not destroyed
yet, and the heap. -/
structure State (Object Block : Type) where
  held : Bool
  objects : Finset Object
  blocks : Finset Block

/-- What happens in the host. -/
inductive Action (Object Block : Type)
  /-- The program drops the root. -/
  | drop
  /-- The collector destroys an object. -/
  | destroy (w : Object)
  /-- The program reads a block. -/
  | read (b : Block)

/-- The state when the program has just built the objects. -/
def start : State Object Block :=
  ⟨true, A.objects, A.objects.biUnion fun w => (A.region w).toFinset⟩

/-- The collector reaches an object from the root. -/
def Marked (w : Object) : Prop := ReflTransGen (fun w w' => w' ∈ A.marks w) A.root w

/-- What may happen: the collector destroys what it cannot reach, and the program reads what it can
reach. -/
def Allowed (s : State Object Block) : Action Object Block → Prop
  | .drop => True
  | .destroy w => w ∈ s.objects ∧ (s.held = true → ¬ A.Marked w)
  | .read b => s.held = true ∧ ∃ w ∈ A.objects, A.Marked w ∧ b ∈ A.region w

/-- The state after an action; none when it accesses a block that is not allocated. -/
def step (s : State Object Block) : Action Object Block → Option (State Object Block)
  | .drop => some { s with held := false }
  | .destroy w => (runTrace (A.destroy w) s.blocks).map fun h =>
      { s with objects := s.objects.erase w, blocks := h }
  | .read b => ((Event.read b).run s.blocks).map fun h => { s with blocks := h }

/-- The states that the host gets into. -/
inductive Reachable : State Object Block → Prop
  | start : Reachable A.start
  | step {s s' : State Object Block} {a : Action Object Block} (h : Reachable s)
    (ha : A.Allowed s a) (hs : A.step s a = some s') : Reachable s'

/-- The heap has the regions of the objects that are left, which are all as long as the program
holds the root. -/
structure Inv (s : State Object Block) : Prop where
  subset : s.objects ⊆ A.objects
  blocks : s.blocks = s.objects.biUnion fun w => (A.region w).toFinset
  held : s.held = true → s.objects = A.objects

variable {A} {s s' : State Object Block} {a : Action Object Block}

theorem inv_start : A.Inv A.start := ⟨Finset.Subset.refl _, rfl, fun _ => rfl⟩

theorem Inv.mem_blocks (h : A.Inv s) {w : Object} (hw : w ∈ s.objects) {b : Block}
    (hb : b ∈ A.region w) : b ∈ s.blocks := by
  rw [h.blocks, Finset.mem_biUnion]
  exact ⟨w, hw, List.mem_toFinset.2 hb⟩

/-- The destructor of an object leaves the regions of the others. -/
theorem Inv.run_destroy (h : A.Inv s) {w : Object} (hw : w ∈ s.objects) :
    runTrace (A.destroy w) s.blocks
      = some ((s.objects.erase w).biUnion fun w => (A.region w).toFinset) := by
  have hrun := A.frees w (h.subset hw) s.blocks (fun b hb => absurd hb List.not_mem_nil)
    fun b hb => h.mem_blocks hw hb
  rw [hrun]
  congr 1
  ext b
  simp only [h.blocks, Finset.mem_sdiff, Finset.mem_biUnion, Finset.mem_erase, List.mem_toFinset]
  constructor
  · rintro ⟨⟨w', hw', hb⟩, hnot⟩
    exact ⟨w', ⟨fun he => hnot (he ▸ hb), hw'⟩, hb⟩
  · rintro ⟨w', ⟨hne, hw'⟩, hb⟩
    exact ⟨⟨w', hw', hb⟩, fun hbw =>
      A.disjoint w' (h.subset hw') w (h.subset hw) hne hb hbw⟩

/-- What the program reads is there. -/
theorem Inv.run_read (h : A.Inv s) {b : Block} (ha : A.Allowed s (.read b)) :
    (Event.read b).run s.blocks = some s.blocks := by
  obtain ⟨hheld, w, hw, -, hb⟩ := ha
  exact if_pos (h.mem_blocks (h.held hheld ▸ hw) hb)

/-- **No action is a fault**, and it keeps the invariant. -/
theorem Inv.step (h : A.Inv s) (ha : A.Allowed s a) : ∃ s', A.step s a = some s' ∧ A.Inv s' := by
  cases a with
  | drop => exact ⟨_, rfl, h.subset, h.blocks, fun hf => absurd hf Bool.false_ne_true⟩
  | destroy w =>
    obtain ⟨hw, hheld⟩ := ha
    rw [Arena.step, h.run_destroy hw]
    refine ⟨_, rfl, (Finset.erase_subset _ _).trans h.subset, rfl, fun hf => ?_⟩
    -- every object is reached from the root, so the program has dropped it
    exact absurd (A.marked w (h.subset hw)) (hheld hf)
  | read b =>
    rw [Arena.step, h.run_read ha]
    exact ⟨_, rfl, h⟩

theorem Reachable.inv (h : A.Reachable s) : A.Inv s := by
  induction h with
  | start => exact inv_start
  | step _ ha hs ih =>
    obtain ⟨s₁, hs₁, hinv⟩ := ih.step ha
    obtain rfl := Option.some.inj (hs.symm.trans hs₁)
    exact hinv

/-- **No fault in any run.** -/
theorem Reachable.step_isSome (h : A.Reachable s) (ha : A.Allowed s a) :
    ∃ s', A.step s a = some s' ∧ A.Reachable s' := by
  obtain ⟨s', hs', -⟩ := h.inv.step ha
  exact ⟨s', hs', h.step ha hs'⟩

/-- **Nothing is freed as long as the program holds the root.** -/
theorem Reachable.blocks_of_held (h : A.Reachable s) (hheld : s.held = true) :
    s.blocks = A.start.blocks := by
  rw [h.inv.blocks, h.inv.held hheld]
  rfl

/-- **Nothing is left** when all objects are destroyed. -/
theorem Reachable.blocks_eq_empty (h : A.Reachable s) (hs : s.objects = ∅) : s.blocks = ∅ := by
  rw [h.inv.blocks, hs, Finset.biUnion_empty]

/-- **The collector may destroy the objects in any order.** -/
theorem Reachable.sweep (h : A.Reachable s) (hheld : s.held = false) :
    ∀ {l : List Object}, l.Nodup → l.toFinset = s.objects →
      l.foldlM (fun s w => A.step s (.destroy w)) s = some ⟨false, ∅, ∅⟩ := by
  intro l
  induction l generalizing s with
  | nil =>
    intro _ hl
    have hempty : s.objects = ∅ := hl.symm
    obtain ⟨held, objects, blocks⟩ := s
    have hblocks : blocks = ∅ := h.blocks_eq_empty hempty
    subst hempty hblocks hheld
    rfl
  | cons w l ih =>
    intro hnodup hl
    obtain ⟨hw, hnodup⟩ := List.nodup_cons.1 hnodup
    have hmem : w ∈ s.objects := by
      rw [← hl, List.mem_toFinset]
      exact List.mem_cons_self
    have ha : A.Allowed s (.destroy w) := ⟨hmem, fun hf => absurd (hheld ▸ hf) Bool.false_ne_true⟩
    have hs' : A.step s (.destroy w) = some ⟨s.held, s.objects.erase w,
        (s.objects.erase w).biUnion fun w => (A.region w).toFinset⟩ := by
      rw [Arena.step, h.inv.run_destroy hmem]
      rfl
    have hrest : l.toFinset = s.objects.erase w := by
      rw [← hl, List.toFinset_cons, Finset.erase_insert]
      rwa [List.mem_toFinset]
    rw [List.foldlM_cons, hs']
    exact ih (h.step ha hs') hheld hnodup hrest

end Arena

end Ownership
