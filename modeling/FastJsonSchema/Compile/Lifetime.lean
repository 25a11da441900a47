import FastJsonSchema.Compile.Addresses
import FastJsonSchema.Compile.Initialised
import FastJsonSchema.Schema.Lifetime

/-!
# The lifetime of a compiled document

The structs of a compiled document have the addresses of its positions
(`Position.Built.addrs_perm`), so they are an arena. Whatever the collector does and when, no access
of the extension or of the collector is to freed memory, and the target of each `$ref` is allocated
as long as the program holds the schema (`compileSchema_lifetime`). When all wrappers are
destroyed, in whatever order, nothing is left (`compileSchema_swept`).
-/

namespace FastJsonSchema

open Ruby Value Ownership CompiledSchema

namespace Position

variable {rt : Runtime} {T : Position → CompiledSchema → Prop}

/-- The structs of a tree have the addresses of its positions. -/
theorem Built.addrs_perm {n : ℕ} : ∀ {p : Position} {c : CompiledSchema}, p.Built rt T n c →
    ((forest.nodes c).map (·.addr)).Perm ((p.positions rt n).map (·.addr)) := by
  induction n with
  | zero => exact fun h => h.elim
  | succ n ih =>
    intro p c h
    have hlist : ∀ {ps : List Position} {cs : List CompiledSchema},
        List.Forall₂ (Built rt T n) ps cs → ((cs.flatMap forest.nodes).map (·.addr)).Perm
          ((ps.flatMap (positions rt n)).map (·.addr)) := by
      intro ps cs hrel
      induction hrel with
      | nil => exact .nil
      | cons hb _ ihl =>
        rw [List.flatMap_cons, List.flatMap_cons, List.map_append, List.map_append]
        exact (ih hb).append ihl
    have hsides : (forest.internal c).flatMap forest.nodes
        ++ (forest.exposed c).flatMap forest.nodes
          = (c.internalChildren ++ c.exposedChildren).flatMap forest.nodes :=
      List.flatMap_append.symm
    rw [Forest.nodes_eq, positions, List.map_cons, List.map_cons, hsides, h.2.matches.addr]
    refine .cons _ (.trans (.map _ ?_) (hlist h.2.children))
    exact (children_perm c).symm.flatMap_right _

end Position

section Documents

variable {rt : Runtime} {customFormats : Option (List (RString × ℕ))} {doc : Value}
  {root : CompiledSchema}

/-- The structs of a compiled document are managed by their wrappers. -/
theorem compileSchema_managed (hd : Distinct doc)
    (hc : compileSchema rt customFormats doc = .ok root) :
    forest.Managed (·.addr) freeCompiledSchema markCompiledSchema root := by
  apply managed
  rw [(Position.Built.addrs_perm (compileSchema_built hc)).nodup_iff]
  exact positionsOf_nodup hd

/-- The wrappers of a compiled document. -/
noncomputable def arenaOf (hd : Distinct doc)
    (hc : compileSchema rt customFormats doc = .ok root) : Arena Addr Block :=
  (compileSchema_managed hd hc).arena

variable (hd : Distinct doc) (hc : compileSchema rt customFormats doc = .ok root)
  {s : Arena.State Addr Block}

include hd hc in
theorem mem_blocks_of_reach (h : (arenaOf hd hc).Reachable s) (hheld : s.held = true)
    {c : CompiledSchema} (hreach : root.Reach c) : .schema c.addr ∈ s.blocks := by
  rw [h.blocks_of_held hheld, arenaOf, Forest.Managed.mem_start_blocks, List.mem_flatMap]
  exact ⟨c, mem_forest_nodes hreach, List.mem_append_right _ (List.mem_singleton.2 rfl)⟩

/-- **No struct is used after it is freed or freed twice.** In every run of the program and the
collector, whatever either may do next touches allocated memory only; and as long as the program
holds the schema, each of its structs is allocated, and so is the target of each `$ref`. -/
theorem compileSchema_lifetime (h : (arenaOf hd hc).Reachable s) :
    (∀ a, (arenaOf hd hc).Allowed s a → ∃ s', (arenaOf hd hc).step s a = some s') ∧
      (s.held = true → ∀ c, root.Reach c → .schema c.addr ∈ s.blocks ∧
        ∀ a, c.refSchema = some a → .schema a ∈ s.blocks) := by
  refine ⟨fun a ha => ?_, fun hheld c hreach => ⟨mem_blocks_of_reach hd hc h hheld hreach, ?_⟩⟩
  · obtain ⟨s', hs', -⟩ := h.step_isSome ha
    exact ⟨s', hs'⟩
  · intro a ha
    have hbuilt := compileSchema_built hc
    obtain ⟨m, p, -, hb⟩ := hbuilt.of_reach hreach
    have htarget := Position.Built.prop hb
    rw [ha] at htarget
    have href : p.refVal ≠ none := by
      intro hnone
      rw [Position.target, Position.resolved_refVal] at htarget
      rw [show stringKeyword p.members refStr = none from hnone] at htarget
      cases htarget
    obtain ⟨q, hq, hqa⟩ := target_position href htarget
    obtain ⟨_, d, hreach', hb'⟩ := hbuilt.of_mem hq
    obtain rfl := Option.some.inj hqa
    rw [← (Position.Built.matches hb').addr]
    exact mem_blocks_of_reach hd hc h hheld hreach'

theorem compileSchema_lifetime_itemsOfRoot : ∃ (root : CompiledSchema)
    (hc : compileSchema .bare none itemsOfRoot = .ok root),
      (∀ a, (arenaOf (by decide) hc).Allowed (arenaOf (by decide) hc).start a →
        ∃ s', (arenaOf (by decide) hc).step (arenaOf (by decide) hc).start a = some s') ∧
        (true = true → ∀ c, root.Reach c →
          .schema c.addr ∈ (arenaOf (by decide) hc).start.blocks ∧
            ∀ a, c.refSchema = some a → .schema a ∈ (arenaOf (by decide) hc).start.blocks) := by
  obtain ⟨root, hc⟩ : ∃ root, compileSchema .bare none itemsOfRoot = .ok root := ⟨_, rfl⟩
  exact ⟨root, hc, compileSchema_lifetime (by decide) hc .start⟩

/-- **Nothing leaks.** When the program has dropped the schema, the collector may destroy its
wrappers in any order; whenever it has destroyed all of them, no memory of the schema is left. -/
theorem compileSchema_swept (h : (arenaOf hd hc).Reachable s) :
    (s.objects = ∅ → s.blocks = ∅) ∧
      (s.held = false → ∀ l : List Addr, l.Nodup → l.toFinset = s.objects →
        l.foldlM (fun s w => (arenaOf hd hc).step s (.destroy w)) s = some ⟨false, ∅, ∅⟩) :=
  ⟨h.blocks_eq_empty, fun hheld _ hnodup hl => h.sweep hheld hnodup hl⟩

theorem compileSchema_swept_noA : ∃ (root : CompiledSchema) (hc : compileSchema .bare none noA
    = .ok root), ∀ l : List Addr, l.Nodup → l.toFinset = (arenaOf (by decide) hc).objects →
      l.foldlM (fun s w => (arenaOf (by decide) hc).step s (.destroy w))
        ⟨false, (arenaOf (by decide) hc).objects, (arenaOf (by decide) hc).start.blocks⟩
          = some ⟨false, ∅, ∅⟩ := by
  obtain ⟨root, hc⟩ : ∃ root, compileSchema .bare none noA = .ok root := ⟨_, rfl⟩
  have hdropped : (arenaOf (by decide) hc).Reachable
      ⟨false, (arenaOf (by decide) hc).objects, (arenaOf (by decide) hc).start.blocks⟩ :=
    .step .start (a := .drop) trivial rfl
  exact ⟨root, hc, (compileSchema_swept (by decide) hc hdropped).2 rfl⟩

end Documents

end FastJsonSchema
