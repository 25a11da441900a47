import FastJsonSchema.Validate.Correctness
import FastJsonSchema.Validate.Undisturbed

/-!
# What a document with references means

The meanings of the positions of a document satisfy one equation each: a position with a `$ref`
means what the position of its target means, any other what its keywords say over the meanings of
the positions below. The equations of the positions are those of the nodes
(`positionMeaning_eq`), so they have one solution, and it is the verdict
(`compileSchema_solves`).
-/

namespace FastJsonSchema

open Ruby Value Traversal Relation CompiledSchema

section Equations

variable (rt : Runtime) (customFormats : Option (List (RString × ℕ))) (doc : Value)

/-- The position at the end of the `$ref` of a position. -/
def targetOf (p : Position) : Option Position :=
  match p.target rt (keysOf rt customFormats doc).reverse with
  | .ok (some a) => (positionsOf rt customFormats doc).find? (·.addr == a)
  | _ => none

/-- The meaning of a position, given those of the other positions. -/
def positionMeaning (F : Position → Value → Bool) (p : Position) (v : Value) : Bool :=
  if p.refVal.isSome then (targetOf rt customFormats doc p).any (F · v)
  else schemaMeaning rt customFormats ((p.applicators rt).map F) p.value v

/-- What the nodes at the addresses of the positions mean, given what the nodes mean. -/
def meaningOfNodes (root : CompiledSchema) (f : CompiledSchema → Value → Bool) (p : Position)
    (v : Value) : Bool :=
  (root.deref p.addr).any (f · v)

/-- What the positions with the addresses of the nodes mean, given what the positions mean. -/
def meaningOfPositions (F : Position → Value → Bool) (c : CompiledSchema) (v : Value) : Bool :=
  ((positionsOf rt customFormats doc).find? (·.addr == c.addr)).any (F · v)

/-- The equations of the positions of a document. -/
def Solves (F : Position → Value → Bool) : Prop :=
  ∀ p ∈ positionsOf rt customFormats doc, ∀ v,
    F p v = positionMeaning rt customFormats doc F p v

end Equations

section Documents

variable {rt : Runtime} {customFormats : Option (List (RString × ℕ))} {doc : Value}
  {root : CompiledSchema} {F : Position → Value → Bool} {f : CompiledSchema → Value → Bool}
  (hd : Distinct doc) (hc : compileSchema rt customFormats doc = .ok root)

include hd hc

/-- The address of a position leads to its node. -/
theorem deref_addr {n : ℕ} {p : Position} {c : CompiledSchema}
    (hp : p ∈ positionsOf rt customFormats doc) (hb : NodeOf rt customFormats doc n p c) :
    root.deref p.addr = some c := by
  obtain ⟨c', hc'⟩ := deref_of_position hc hp
  obtain ⟨q, hq, hqp, m, hb'⟩ := position_of_deref hc hc'
  obtain rfl := positionsOf_injective hd hq hp hqp
  rw [hc', Position.Built.unique (fun _ _ _ h h' => Except.ok.inj (h.symm.trans h')) hb hb']

omit hc in
/-- The position with the address of a node is its own. -/
theorem find_addr {n : ℕ} {p : Position} {c : CompiledSchema}
    (hp : p ∈ positionsOf rt customFormats doc) (hb : NodeOf rt customFormats doc n p c) :
    (positionsOf rt customFormats doc).find? (·.addr == c.addr) = some p := by
  have haddr : c.addr = p.addr := (Position.Built.matches hb).addr
  have hsome : ((positionsOf rt customFormats doc).find? (·.addr == c.addr)).isSome := by
    rw [List.find?_isSome]
    exact ⟨p, hp, by rw [haddr, beq_self_eq_true]⟩
  obtain ⟨q, hq⟩ := Option.isSome_iff_exists.1 hsome
  have hqaddr := List.find?_some hq
  rw [beq_iff_eq] at hqaddr
  rw [hq, positionsOf_injective hd (List.mem_of_find?_eq_some hq) hp (hqaddr.trans haddr)]

theorem meaningOfNodes_eq {n : ℕ} {p : Position} {c : CompiledSchema}
    (hp : p ∈ positionsOf rt customFormats doc) (hb : NodeOf rt customFormats doc n p c) :
    meaningOfNodes root f p = f c := by
  funext v
  rw [meaningOfNodes, deref_addr hd hc hp hb, Option.any_some]

omit hc in
theorem meaningOfPositions_eq {n : ℕ} {p : Position} {c : CompiledSchema}
    (hp : p ∈ positionsOf rt customFormats doc) (hb : NodeOf rt customFormats doc n p c) :
    meaningOfPositions rt customFormats doc F c = F p := by
  funext v
  rw [meaningOfPositions, find_addr hd hp hb, Option.any_some]

/-- The target of a position is the position of the target of its node. -/
theorem target_node {n : ℕ} {p : Position} {c : CompiledSchema} (hreach : root.Reach c)
    (hb : NodeOf rt customFormats doc n p c) :
    (targetOf rt customFormats doc p = none ∧ c.refSchema.bind root.deref = none) ∨
      ∃ m q t, targetOf rt customFormats doc p = some q ∧ c.refSchema.bind root.deref = some t ∧
        q ∈ positionsOf rt customFormats doc ∧ root.Reach t ∧
          NodeOf rt customFormats doc m q t := by
  rw [targetOf, Position.Built.prop hb]
  cases ha : c.refSchema with
  | none => exact .inl ⟨rfl, rfl⟩
  | some a =>
    obtain ⟨q, hq, rfl⟩ := position_of_target hc hreach ha
    obtain ⟨t, ht⟩ := deref_of_position hc hq
    obtain ⟨q', hq', hqq, m, hb'⟩ := position_of_deref hc ht
    obtain rfl := positionsOf_injective hd hq' hq hqq
    have haddr : t.addr = q'.addr := (Position.Built.matches hb').addr
    exact .inr ⟨m, q', t, haddr ▸ find_addr hd hq hb', ht, hq, (reach_of_deref ht).1, hb'⟩

/-- **The equation of a position is that of its node**, when the positions have the meanings of
their nodes. -/
theorem positionMeaning_eq
    (hF : ∀ n q c, q ∈ positionsOf rt customFormats doc → root.Reach c →
      NodeOf rt customFormats doc n q c → F q = f c)
    {n : ℕ} {p : Position} {c : CompiledSchema} (hp : p ∈ positionsOf rt customFormats doc)
    (hreach : root.Reach c) (hb : NodeOf rt customFormats doc n p c) (v : Value) :
    positionMeaning rt customFormats doc F p v = meaningIn rt root.deref f c v := by
  rw [positionMeaning, Position.Built.meaningIn_eq hb hp]
  by_cases href : p.refVal.isSome
  · rw [if_pos href, if_pos href]
    rcases target_node hd hc hreach hb with ⟨hq, ht⟩ | ⟨m, q, t, hq, ht, hmem, hreach', hb'⟩
    · rw [hq, ht]
      rfl
    · rw [hq, ht, Option.any_some, Option.any_some, hF m q t hmem hreach' hb']
  · rw [if_neg href, if_neg href]
    cases n with
    | zero => exact hb.elim
    | succ n =>
      rw [hb.2.map_eq fun q hq c' hc' hb' => ?_]
      obtain ⟨s, w, hs, rfl⟩ := Position.mem_children.1 hq
      exact hF n _ c' (positionsOf_child hp hs) (hreach.child hc') hb'

/-- **Compilation keeps the meaning of a document with references.** When a document compiles and no
cycle of its references stays at one instance, the equations of its positions have one solution on
the positions; and on what the document compiles to, from a context within `context->path` and as
long as the run stays within it, `is_valid` ends and, unless a check of a single value raises an
exception or traps, returns the meaning that the solution gives the document. -/
theorem compileSchema_solves
    (hroot : ∀ c, root.Reach c → ¬ TransGen (SameInstance root.deref) c c) :
    ∃ F, Solves rt customFormats doc F ∧
      (∀ G, Solves rt customFormats doc G → ∀ p ∈ positionsOf rt customFormats doc, G p = F p) ∧
        ∀ (overrun : Overrun) (context : Context Token) (d : Datum),
          (machine rt root.deref overrun).Within (context.depth + 1) (start context) →
          (∀ n, (machine rt root.deref overrun).Safe
            ((machine rt root.deref overrun).run n (root, d) ((start context).mode true)).2) →
              ∃ r, IsValid rt root.deref overrun (root, d) context r ∧
                ((∃ x, r.1 = .raised x) ∨ r.1 = .crashed ∨
                  r.verdict = some (F (rootPosition doc customFormats) d.value)) := by
  have hbuilt := compileSchema_built hc
  obtain ⟨f, hf⟩ := (@existsUnique_interprets rt root hroot).1
  refine ⟨meaningOfNodes root f, fun p hp v => ?_, fun G hG p hp => ?_,
    fun overrun context d hw hs => ?_⟩
  · obtain ⟨m, c, hreach, hb⟩ := hbuilt.of_mem hp
    have heq := positionMeaning_eq (f := f) hd hc
      (fun _ _ _ hq _ => meaningOfNodes_eq hd hc hq) hp hreach hb v
    rw [heq, ← hf c hreach v, meaningOfNodes_eq hd hc hp hb]
  · have hinterprets : Interprets rt (meaningOfPositions rt customFormats doc G) root := by
      intro c hreach v
      obtain ⟨m, q, hq, hb⟩ := hbuilt.of_reach hreach
      have heq := positionMeaning_eq (F := G) hd hc
        (fun _ _ _ hq _ hb => (meaningOfPositions_eq hd hq hb).symm) hq hreach hb v
      rw [← heq, ← hG q hq v, meaningOfPositions_eq hd hq hb]
    obtain ⟨m, c, hreach, hb⟩ := hbuilt.of_mem hp
    rw [meaningOfNodes_eq hd hc hp hb, ← meaningOfPositions_eq (F := G) hd hp hb]
    funext v
    exact (existsUnique_interprets hroot).2 _ f hinterprets hf c hreach v
  · obtain ⟨r, hr, hverdict⟩ := isValid_interprets (d := d) hroot hf .root hw hs
    rw [meaningOfNodes_eq hd hc positionsOf_root hbuilt]
    exact ⟨r, hr, hverdict⟩

end Documents

/-- An array in an array stays within the path. -/
theorem safe_itemsOfRoot (n : ℕ) : (machine .bare itemsOfRootSchema.deref noOverrun).Safe
    ((machine .bare itemsOfRootSchema.deref noOverrun).run n (itemsOfRootSchema,
      .root (nestedArrays 1)) ((start createContext).mode true)).2 := by
  refine safe_evaluate_iff.2 ?_
  rcases le_or_gt 4 n with hn | hn
  · rw [Machine.judge_mono _ hn _ _ (by decide)]
    decide
  · obtain rfl | rfl | rfl | rfl : n = 0 ∨ n = 1 ∨ n = 2 ∨ n = 3 := by omega
    all_goals decide

theorem compileSchema_solves_itemsOfRoot :
    ∃ F, Solves .bare none itemsOfRoot F ∧
      (∀ G, Solves .bare none itemsOfRoot G → ∀ p ∈ positionsOf .bare none itemsOfRoot,
        G p = F p) ∧
          ∃ r, IsValid .bare itemsOfRootSchema.deref noOverrun
            (itemsOfRootSchema, .root (nestedArrays 1)) createContext r ∧
              ((∃ x, r.1 = .raised x) ∨ r.1 = .crashed ∨
                r.verdict = some (F (rootPosition itemsOfRoot none) (nestedArrays 1))) := by
  obtain ⟨F, hF, hunique, hverdict⟩ := compileSchema_solves
    (by decide : Distinct itemsOfRoot) (rfl : compileSchema .bare none itemsOfRoot = _)
    acyclic_itemsOfRoot
  exact ⟨F, hF, hunique,
    hverdict noOverrun createContext _ (within_createContext false) safe_itemsOfRoot⟩

end FastJsonSchema
