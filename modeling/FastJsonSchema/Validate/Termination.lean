import FastJsonSchema.Validate.Calls
import FastJsonSchema.Validate.Context
import Mathlib.Data.Fintype.Card
import Mathlib.Data.Set.Finite.Lattice

/-!
# Termination

A call about a value leads to calls about smaller values and, by the edges of `SameInstance`, to
calls about the same value. The nodes of a schema are finitely many, so when no cycle consists of
these edges only, every run ends (`exists_fuel_of_acyclic`), whatever cycles `$ref` closes through
the children that are about parts of the value.
-/

namespace FastJsonSchema

open Ruby Traversal Relation

namespace CompiledSchema

/-- A schema has finitely many nodes. -/
theorem finite_reach (cs : CompiledSchema) : {c | cs.Reach c}.Finite := by
  induction cs using CompiledSchema.induct with
  | h cs ih =>
    have hunion : {c | cs.Reach c} = {cs} ∪ ⋃ c' ∈ {c' | c' ∈ cs.children}, {c | c'.Reach c} := by
      ext c
      simp [@reach_iff cs]
    rw [hunion]
    exact (Set.finite_singleton cs).union (Set.Finite.biUnion (List.finite_toSet _) ih)

end CompiledSchema

section

variable {root cs : CompiledSchema} {d : Datum}
  (hroot : ∀ c, root.Reach c → ¬ TransGen (SameInstance root.deref) c c)

include hroot

/-- Without a cycle, the edges to schemas about the same instance cannot be followed forever. -/
theorem wellFounded_sameInstance :
    WellFounded fun c c' : {c // root.Reach c} => SameInstance root.deref c'.1 c.1 := by
  set R : {c // root.Reach c} → {c // root.Reach c} → Prop :=
    fun c c' => SameInstance root.deref c'.1 c.1
  have : Finite {c // root.Reach c} := root.finite_reach.to_subtype
  have hirrefl : Std.Irrefl (TransGen R) := by
    refine ⟨fun c hc => hroot c.1 c.2 ?_⟩
    have hswap := transGen_swap.1 hc
    exact hswap.lift Subtype.val fun _ _ h => h
  have htrans : IsTrans _ (TransGen R) := ⟨fun _ _ _ => TransGen.trans⟩
  exact Subrelation.wf TransGen.single (Finite.wellFounded_of_trans_of_irrefl (TransGen R))

/-- No chain of calls goes on forever: by induction on the nesting of the value, and for one value
on the edges to schemas about the same instance. -/
theorem acc_body (rt : Runtime) : ∀ n : ℕ, ∀ c : {c // root.Reach c}, ∀ d : Datum,
    d.value.nesting = n → Acc (fun c' c => c' ∈ (body rt root.deref c).calls) (c.1, d) := by
  intro n
  induction n using Nat.strong_induction_on with
  | _ n ihn =>
    intro c
    induction c using (wellFounded_sameInstance hroot).induction with
    | _ c ihc =>
      intro d hd
      refine ⟨_, fun c' hc' => ?_⟩
      have hnext := body_calls rt root.deref (c.1, d) c' hc'
      have hreach := hnext.linked.reach c.2
      cases hnext with
      | same hsame => exact ihc ⟨_, hreach⟩ hsame d hd
      | smaller hchild hlt => exact ihn _ (hd ▸ hlt) ⟨_, hreach⟩ _ rfl

/-- Every call of a node ends, from every state. -/
theorem exists_fuel_of_acyclic (rt : Runtime) (overrun : Overrun) (hcs : root.Reach cs)
    (d : Datum) :
    ∃ n, ∀ s, ((machine rt root.deref overrun).run n (cs, d) s).1 ≠ .starved :=
  Machine.exists_fuel_of_acc (M := machine rt root.deref overrun)
    (acc_body hroot rt _ ⟨cs, hcs⟩ d rfl)

/-- **Termination.** When no cycle consists of edges to schemas about the same instance only, the
evaluation of every node ends on every value, by `validate` and by `valid?`. -/
theorem validates_and_valids (rt : Runtime) (overrun : Overrun) (hcs : root.Reach cs) (v : Value) :
    (∃ r, Validates rt root.deref overrun cs v r) ∧ ∃ r, Valids rt root.deref overrun cs v r := by
  obtain ⟨n, hn⟩ := exists_fuel_of_acyclic hroot rt overrun hcs (.root v)
  exact ⟨⟨_, n, rfl, hn _⟩, _, n, rfl, hn _⟩

end

theorem reach_itemsOfRoot {c : CompiledSchema} (h : itemsOfRootSchema.Reach c) :
    c = itemsOfRootSchema ∨ c = itemsOfRootItems := by
  rcases CompiledSchema.reach_iff.1 h with rfl | ⟨c₁, hc₁, hr⟩
  · exact .inl rfl
  obtain rfl : c₁ = itemsOfRootItems := List.mem_singleton.1 hc₁
  rcases CompiledSchema.reach_iff.1 hr with rfl | ⟨c₂, hc₂, -⟩
  · exact .inr rfl
  · exact absurd hc₂ List.not_mem_nil

/-- The `$ref` of `itemsOfRoot` closes a cycle through `items` only. -/
theorem acyclic_itemsOfRoot (c : CompiledSchema) (hc : itemsOfRootSchema.Reach c) :
    ¬ TransGen (SameInstance itemsOfRootSchema.deref) c c := by
  have hleaf : ∀ c, ¬ TransGen (SameInstance itemsOfRootSchema.deref) itemsOfRootSchema c := by
    intro c h
    obtain ⟨c', hc', -⟩ := TransGen.head'_iff.1 h
    simp [SameInstance, itemsOfRootSchema, CompiledSchema.plain, CompiledSchema.create,
      CompiledSchema.members, CompiledSchema.entries] at hc'
  have hitems : ∀ c, SameInstance itemsOfRootSchema.deref itemsOfRootItems c →
      itemsOfRootSchema = c := by
    have hderef : itemsOfRootSchema.deref [] = some itemsOfRootSchema := rfl
    simp [SameInstance, itemsOfRootItems, CompiledSchema.plain, CompiledSchema.create,
      CompiledSchema.members, CompiledSchema.entries, hderef]
  rcases reach_itemsOfRoot hc with rfl | rfl
  · exact hleaf _
  · intro h
    obtain ⟨c', hc', hrest⟩ := TransGen.head'_iff.1 h
    obtain rfl := hitems c' hc'
    rcases reflTransGen_iff_eq_or_transGen.1 hrest with heq | hrest
    · exact absurd (congrArg CompiledSchema.addr heq) (by decide)
    · exact hleaf _ hrest

theorem validates_and_valids_itemsOfRoot :
    (∃ r, Validates .bare itemsOfRootSchema.deref noOverrun itemsOfRootSchema (nestedArrays 3) r) ∧
      ∃ r, Valids .bare itemsOfRootSchema.deref noOverrun itemsOfRootSchema (nestedArrays 3) r :=
  validates_and_valids acyclic_itemsOfRoot .bare noOverrun .root (nestedArrays 3)

end FastJsonSchema
