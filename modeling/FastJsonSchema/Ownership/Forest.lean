import FastJsonSchema.Ownership.Heap
import Mathlib.Data.List.Nodup
import Mathlib.Data.Multiset.AddSub
import Mathlib.Data.Multiset.Bind

/-!
# Trees with wrapped nodes

The nodes of a tree own blocks. A child is exposed, and then an object of the host wraps it, or
internal, and then whatever owns its parent owns it as well: `Forest.cells` collects what a wrapped
node owns. The wrapped nodes share out the blocks of the tree (`Forest.cells_wrappers_perm`). So
when the blocks of all nodes are distinct, a destructor that frees the cells of a node and a marker
that visits the wrapped nodes below it make an `Arena` of the tree.
-/

namespace Ownership

open Relation

/-- Nodes with their children and what each of them owns by itself. -/
structure Forest (Node Block : Type) where
  internal : Node → List Node
  exposed : Node → List Node
  own : Node → List Block
  size : Node → ℕ
  size_internal : ∀ {a c}, c ∈ internal a → size c < size a
  size_exposed : ∀ {a c}, c ∈ exposed a → size c < size a

namespace Forest

variable {Node Object Block : Type} (F : Forest Node Block)

/-- The blocks that the wrapper of a node owns. -/
def cells (a : Node) : List Block :=
  (F.internal a).attach.flatMap (fun c => cells c.1) ++ F.own a
termination_by F.size a
decreasing_by exact F.size_internal c.2

/-- The wrapped nodes below a node. -/
def wrappers (a : Node) : List Node :=
  (F.internal a).attach.flatMap (fun c => wrappers c.1)
    ++ (F.exposed a).attach.flatMap fun c => c.1 :: wrappers c.1
termination_by F.size a
decreasing_by
  · exact F.size_internal c.2
  · exact F.size_exposed c.2

/-- The nodes at and below a node. -/
def nodes (a : Node) : List Node :=
  a :: ((F.internal a).attach.flatMap (fun c => nodes c.1)
    ++ (F.exposed a).attach.flatMap fun c => nodes c.1)
termination_by F.size a
decreasing_by
  · exact F.size_internal c.2
  · exact F.size_exposed c.2

theorem flatMap_attach {α β : Type} (l : List α) (f : α → List β) :
    (l.attach.flatMap fun c => f c.1) = l.flatMap f := by
  rw [← List.flatMap_map, List.attach_map_subtype_val]

theorem cells_eq (a : Node) : F.cells a = (F.internal a).flatMap F.cells ++ F.own a := by
  rw [cells, flatMap_attach]

theorem wrappers_eq (a : Node) : F.wrappers a
    = (F.internal a).flatMap F.wrappers
      ++ (F.exposed a).flatMap fun c => c :: F.wrappers c := by
  rw [wrappers, flatMap_attach, flatMap_attach _ fun c => c :: F.wrappers c]

theorem nodes_eq (a : Node) : F.nodes a
    = a :: ((F.internal a).flatMap F.nodes ++ (F.exposed a).flatMap F.nodes) := by
  rw [nodes, flatMap_attach, flatMap_attach]

theorem flatMap_sublist {α β : Type} {l : List α} {f g : α → List β}
    (h : ∀ x ∈ l, (f x).Sublist (g x)) : (l.flatMap f).Sublist (l.flatMap g) := by
  induction l with
  | nil => exact .slnil
  | cons x l ih =>
    have ⟨hx, hl⟩ := List.forall_mem_cons.1 h
    rw [List.flatMap_cons, List.flatMap_cons]
    exact hx.append (ih hl)

/-- Induction over a tree. -/
theorem induct {P : Node → Prop}
    (h : ∀ a, (∀ c ∈ F.internal a, P c) → (∀ c ∈ F.exposed a, P c) → P a) (a : Node) : P a := by
  induction hn : F.size a using Nat.strong_induction_on generalizing a with
  | _ n ih =>
    subst hn
    exact h a (fun c hc => ih _ (F.size_internal hc) c rfl)
      fun c hc => ih _ (F.size_exposed hc) c rfl

theorem mem_nodes {a b : Node} : b ∈ F.nodes a ↔
    b = a ∨ ∃ c, (c ∈ F.internal a ∨ c ∈ F.exposed a) ∧ b ∈ F.nodes c := by
  rw [nodes_eq, List.mem_cons, List.mem_append, List.mem_flatMap, List.mem_flatMap]
  simp only [or_and_right, exists_or]

/-- The wrapped nodes are nodes. -/
theorem cons_wrappers_sublist (a : Node) : (a :: F.wrappers a).Sublist (F.nodes a) := by
  induction a using F.induct with
  | h a hint hexp =>
    rw [wrappers_eq, nodes_eq]
    refine .cons_cons a (.append (flatMap_sublist fun c hc => ?_) (flatMap_sublist hexp))
    exact (List.sublist_cons_self c _).trans (hint c hc)

/-- **The wrapped nodes share out the blocks** of a tree. -/
theorem cells_wrappers_perm (a : Node) :
    (F.cells a ++ (F.wrappers a).flatMap F.cells).Perm ((F.nodes a).flatMap F.own) := by
  induction a using F.induct with
  | h a hint hexp =>
    have hinternal : ((F.internal a).flatMap F.cells
        ++ (F.internal a).flatMap fun c => (F.wrappers c).flatMap F.cells).Perm
          ((F.internal a).flatMap fun c => (F.nodes c).flatMap F.own) :=
      (List.flatMap_append_perm _ _ _).trans (List.Perm.flatMap_left _ hint)
    have hexposed : ((F.exposed a).flatMap fun c =>
        F.cells c ++ (F.wrappers c).flatMap F.cells).Perm
          ((F.exposed a).flatMap fun c => (F.nodes c).flatMap F.own) :=
      List.Perm.flatMap_left _ hexp
    rw [cells_eq, wrappers_eq, nodes_eq, List.flatMap_cons, List.flatMap_append,
      List.flatMap_append, List.flatMap_assoc, List.flatMap_assoc, List.flatMap_assoc,
      List.flatMap_assoc]
    simp only [List.flatMap_cons]
    rw [← Multiset.coe_eq_coe] at hinternal hexposed ⊢
    simp only [← Multiset.coe_add] at hinternal hexposed ⊢
    rw [← hinternal, ← hexposed]
    ac_rfl

/-! ## The arena of a tree -/

/-- The wrapped nodes of a tree. -/
def wrapped (root : Node) : List Node := root :: F.wrappers root

section Keys

variable [DecidableEq Object] (key : Node → Object) (root : Node)

/-- The wrapped node of an object. -/
def ofKey (o : Object) : Option Node := (F.wrapped root).find? fun a => key a = o

variable {F key root}

theorem ofKey_key (hk : ((F.wrapped root).map key).Nodup) {a : Node} (ha : a ∈ F.wrapped root) :
    F.ofKey key root (key a) = some a := by
  have hsome : (F.ofKey key root (key a)).isSome := by
    rw [ofKey, List.find?_isSome]
    exact ⟨a, ha, decide_eq_true rfl⟩
  obtain ⟨b, hb⟩ := Option.isSome_iff_exists.1 hsome
  have hkey := List.find?_some hb
  rw [decide_eq_true_iff] at hkey
  rw [hb, List.inj_on_of_nodup_map hk (List.mem_of_find?_eq_some hb) ha hkey]

theorem mem_wrapped_of_exposed {a c : Node} (ha : ∀ c ∈ F.wrappers a, c ∈ F.wrapped root)
    (hc : c ∈ F.exposed a) :
    c ∈ F.wrapped root ∧ ∀ d ∈ F.wrappers c, d ∈ F.wrapped root := by
  rw [wrappers_eq] at ha
  have hmem : ∀ d ∈ c :: F.wrappers c, d ∈ F.wrapped root := fun d hd =>
    ha d (List.mem_append_right _ (List.mem_flatMap.2 ⟨c, hc, hd⟩))
  exact List.forall_mem_cons.1 hmem

theorem mem_wrapped_of_internal {a c : Node} (ha : ∀ c ∈ F.wrappers a, c ∈ F.wrapped root)
    (hc : c ∈ F.internal a) : ∀ d ∈ F.wrappers c, d ∈ F.wrapped root := by
  rw [wrappers_eq] at ha
  exact fun d hd => ha d (List.mem_append_left _ (List.mem_flatMap.2 ⟨c, hc, hd⟩))

end Keys

section Managed

variable [DecidableEq Object] [DecidableEq Block]

/-- The wrappers of a tree have keys of their own, the blocks of the nodes are distinct, the
destructor frees the cells of a node, and the marker visits the wrapped nodes that are reached
through internal ones. -/
structure Managed (key : Node → Object) (destroy : Node → List (Event Block))
    (marks : Node → List Object) (root : Node) : Prop where
  keys : ((F.wrapped root).map key).Nodup
  blocks : ((F.nodes root).flatMap F.own).Nodup
  frees : ∀ a, (F.cells a).Nodup → Frees (destroy a) [] (F.cells a)
  marks : ∀ a o, o ∈ marks a ↔
    (∃ c ∈ F.exposed a, key c = o) ∨ ∃ c ∈ F.internal a, o ∈ marks c

variable {F} {key : Node → Object} {destroy : Node → List (Event Block)}
  {marks : Node → List Object} {root : Node}

omit [DecidableEq Object] in
theorem Managed.cells_nodup (h : F.Managed key destroy marks root) :
    ((F.wrapped root).flatMap F.cells).Nodup := by
  rw [wrapped, List.flatMap_cons]
  exact (F.cells_wrappers_perm root).nodup_iff.2 h.blocks

/-- The marks of an object. -/
def objectMarks (F : Forest Node Block) (key : Node → Object) (marks : Node → List Object)
    (root : Node) (o : Object) : List Object :=
  (F.ofKey key root o).elim [] marks

/-- Marking reaches every wrapped node below a node from what marks the node. -/
theorem Managed.reaches (h : F.Managed key destroy marks root) (a : Node) :
    (∀ c ∈ F.wrappers a, c ∈ F.wrapped root) →
      ∀ o, (∀ x ∈ marks a, x ∈ F.objectMarks key marks root o) → ∀ c ∈ F.wrappers a,
        ReflTransGen (fun o x => x ∈ F.objectMarks key marks root o) o (key c) := by
  induction a using F.induct with
  | h a hint hexp =>
    intro ha o ho c hc
    rw [wrappers_eq, List.mem_append, List.mem_flatMap, List.mem_flatMap] at hc
    rcases hc with ⟨d, hd, hc⟩ | ⟨d, hd, hc⟩
    · refine hint d hd (mem_wrapped_of_internal ha hd) o (fun x hx => ho x ?_) c hc
      exact (h.marks a x).2 (.inr ⟨d, hd, hx⟩)
    · have ⟨hmem, hsub⟩ := mem_wrapped_of_exposed ha hd
      have hfirst : ReflTransGen (fun o x => x ∈ F.objectMarks key marks root o) o (key d) :=
        .single (ho _ ((h.marks a _).2 (.inl ⟨d, hd, rfl⟩)))
      rcases List.mem_cons.1 hc with rfl | hc
      · exact hfirst
      · refine hfirst.trans (hexp d hd hsub (key d) (fun x hx => ?_) c hc)
        rw [objectMarks, ofKey_key h.keys hmem]
        exact hx

/-- **The arena of a tree.** -/
def Managed.arena (h : F.Managed key destroy marks root) : Arena Object Block where
  root := key root
  objects := ((F.wrapped root).map key).toFinset
  region o := (F.ofKey key root o).elim [] F.cells
  destroy o := (F.ofKey key root o).elim [] destroy
  marks := F.objectMarks key marks root
  root_mem := by
    rw [List.mem_toFinset, wrapped]
    exact List.mem_cons_self
  frees := by
    intro o ho
    obtain ⟨a, ha, rfl⟩ := List.mem_map.1 (List.mem_toFinset.1 ho)
    rw [ofKey_key h.keys ha]
    exact h.frees a ((List.nodup_flatMap.1 h.cells_nodup).1 a ha)
  disjoint := by
    intro o ho o' ho' hne
    obtain ⟨a, ha, rfl⟩ := List.mem_map.1 (List.mem_toFinset.1 ho)
    obtain ⟨a', ha', rfl⟩ := List.mem_map.1 (List.mem_toFinset.1 ho')
    rw [ofKey_key h.keys ha, ofKey_key h.keys ha']
    have : Std.Symm (Function.onFun List.Disjoint F.cells) := ⟨fun _ _ hd => hd.symm⟩
    exact (List.nodup_flatMap.1 h.cells_nodup).2.forall ha ha' fun he => hne (congrArg key he)
  marked := by
    intro o ho
    obtain ⟨a, ha, rfl⟩ := List.mem_map.1 (List.mem_toFinset.1 ho)
    rcases List.mem_cons.1 ha with rfl | ha
    · exact .refl
    · refine h.reaches root (fun c hc => List.mem_cons_of_mem _ hc) (key root) (fun x hx => ?_) a ha
      rw [objectMarks, ofKey_key h.keys List.mem_cons_self]
      exact hx

theorem Managed.arena_region (h : F.Managed key destroy marks root) {a : Node}
    (ha : a ∈ F.wrapped root) : h.arena.region (key a) = F.cells a := by
  have hkey := ofKey_key h.keys ha
  change (F.ofKey key root (key a)).elim [] F.cells = F.cells a
  rw [hkey]
  rfl

/-- At the start the blocks of all nodes are allocated. -/
theorem Managed.mem_start_blocks (h : F.Managed key destroy marks root) {b : Block} :
    b ∈ h.arena.start.blocks ↔ b ∈ (F.nodes root).flatMap F.own := by
  rw [← (F.cells_wrappers_perm root).mem_iff, ← List.flatMap_cons, Arena.start, Finset.mem_biUnion,
    List.mem_flatMap]
  constructor
  · rintro ⟨o, ho, hb⟩
    obtain ⟨a, ha, rfl⟩ := List.mem_map.1 (List.mem_toFinset.1 ho)
    rw [List.mem_toFinset, h.arena_region ha] at hb
    exact ⟨a, ha, hb⟩
  · rintro ⟨a, ha, hb⟩
    refine ⟨key a, List.mem_toFinset.2 (List.mem_map_of_mem ha), ?_⟩
    rw [List.mem_toFinset, h.arena_region ha]
    exact hb

end Managed

end Forest

end Ownership
