import FastJsonSchema.Ownership.Forest
import FastJsonSchema.Schema.CompiledSchema
import Mathlib.Tactic.Abel

/-!
# The lifetime of compiled schemas

Ruby's collector marks and destroys the structs of `compiled_schema.c` through their wrappers. The
root and the schemas in Ruby arrays and hashes are created with `EXPOSE_TO_RUBY` and have a wrapper
of their own; the other schemas are created with `NO_FLAG`, and their parents mark and free them.
`free_compiled_schema` frees exactly what a wrapper owns (`frees_freeCompiledSchema`), so a tree
whose structs have distinct addresses is an arena (`managed`).
-/

namespace FastJsonSchema

open Ruby Ownership

/-- What is allocated for a compiled schema: the struct, and the array of its `nested_schemas`. -/
inductive Block
  | schema (a : Addr)
  | nestedSchemas (a : Addr)
  deriving DecidableEq

/-- The address of the struct that a block belongs to. -/
def Block.addr : Block → Addr
  | schema a => a
  | nestedSchemas a => a

namespace CompiledSchema

/-! ## Freeing and marking -/

mutual

/-- `free_compiled_schema` -/
def freeCompiledSchema : CompiledSchema → List (Event Block)
  | { addr, ifSchema, thenSchema, elseSchema, notSchema, itemsSchema, containsSchema,
      additionalItemsSchema, propertyNamesSchema, additionalPropertiesSchema, nestedSchemas, .. } =>
    freeNested addr nestedSchemas
      ++ (.read (.schema addr) ::
        if nestedSchemas.isEmpty then [] else [.free (.nestedSchemas addr)])
      ++ freeChild addr ifSchema
      ++ freeChild addr thenSchema
      ++ freeChild addr elseSchema
      ++ freeChild addr notSchema
      ++ freeChild addr itemsSchema
      ++ freeChild addr containsSchema
      ++ freeChild addr additionalItemsSchema
      ++ freeChild addr propertyNamesSchema
      ++ freeChild addr additionalPropertiesSchema
      ++ [.free (.schema addr)]

/-- `FREE_CHILD_SCHEMA` -/
def freeChild (addr : Addr) : Option CompiledSchema → List (Event Block)
  | none => [.read (.schema addr)]
  | some cs => .read (.schema addr) :: freeCompiledSchema cs

/-- The loop over `nested_schemas`. -/
def freeNested (addr : Addr) : List CompiledSchema → List (Event Block)
  | [] => []
  | cs :: rest =>
    .read (.schema addr) :: .read (.nestedSchemas addr) :: freeCompiledSchema cs
      ++ freeNested addr rest

end

mutual

/-- `mark_compiled_schema`: the wrappers that the collector marks, in the arrays and hashes of the
struct and of the structs below that have no wrapper. -/
def markCompiledSchema : CompiledSchema → List Addr
  | { itemsVal, propertiesVal, patternPropertiesVal, dependenciesVal, ifSchema, thenSchema,
      elseSchema, allOfVal, anyOfVal, oneOfVal, notSchema, itemsSchema, containsSchema,
      additionalItemsSchema, propertyNamesSchema, additionalPropertiesSchema, nestedSchemas, .. } =>
    (members itemsVal).map (·.addr)
      ++ (entries propertiesVal).map (·.addr)
      ++ (entries patternPropertiesVal).map (·.addr)
      ++ (entries dependenciesVal).map (·.addr)
      ++ markChild ifSchema
      ++ markChild thenSchema
      ++ markChild elseSchema
      ++ (members allOfVal).map (·.addr)
      ++ (members anyOfVal).map (·.addr)
      ++ (members oneOfVal).map (·.addr)
      ++ markChild notSchema
      ++ markChild itemsSchema
      ++ markChild containsSchema
      ++ markChild additionalItemsSchema
      ++ markChild propertyNamesSchema
      ++ markChild additionalPropertiesSchema
      ++ markNested nestedSchemas

/-- `MARK_CHILD_SCHEMA` -/
def markChild : Option CompiledSchema → List Addr
  | none => []
  | some cs => markCompiledSchema cs

/-- The loop over `nested_schemas`. -/
def markNested : List CompiledSchema → List Addr
  | [] => []
  | cs :: rest => markCompiledSchema cs ++ markNested rest

end

/-! ## Children with and without a wrapper -/

section Children

variable (cs : CompiledSchema)

/-- The fields with one child, in the order of `free_compiled_schema`. -/
def schemaFields : List (Option CompiledSchema) :=
  [cs.ifSchema, cs.thenSchema, cs.elseSchema, cs.notSchema, cs.itemsSchema, cs.containsSchema,
   cs.additionalItemsSchema, cs.propertyNamesSchema, cs.additionalPropertiesSchema]

/-- The children that are created with `NO_FLAG`. -/
def internalChildren : List CompiledSchema :=
  cs.nestedSchemas ++ cs.schemaFields.flatMap Option.toList

/-- The children that are created with `EXPOSE_TO_RUBY`. -/
def exposedChildren : List CompiledSchema :=
  members cs.itemsVal ++ entries cs.propertiesVal ++ entries cs.patternPropertiesVal
    ++ entries cs.dependenciesVal ++ members cs.allOfVal ++ members cs.anyOfVal
    ++ members cs.oneOfVal

/-- The array of `nested_schemas`, if it is allocated. -/
def nestedArray : List Block :=
  if cs.nestedSchemas.isEmpty then [] else [.nestedSchemas cs.addr]

/-- What is allocated for a compiled schema alone. -/
def ownBlocks : List Block := cs.nestedArray ++ [.schema cs.addr]

theorem children_perm : cs.children.Perm (cs.internalChildren ++ cs.exposedChildren) := by
  simp only [children, internalChildren, exposedChildren, schemaFields, List.flatMap_cons,
    List.flatMap_nil, List.append_nil, ← Multiset.coe_eq_coe, ← Multiset.coe_add]
  abel

end Children

variable {cs c : CompiledSchema}

theorem mem_children_of_internal (hc : c ∈ cs.internalChildren) : c ∈ cs.children :=
  (children_perm cs).mem_iff.2 (List.mem_append_left _ hc)

theorem mem_children_of_exposed (hc : c ∈ cs.exposedChildren) : c ∈ cs.children :=
  (children_perm cs).mem_iff.2 (List.mem_append_right _ hc)

/-- The children of a compiled schema are smaller. -/
theorem sizeOf_child (hc : c ∈ cs.children) : sizeOf c < sizeOf cs := by
  have hone : ∀ {o : Option CompiledSchema}, o = some c → sizeOf c < sizeOf o := by
    rintro _ rfl
    simp
  have hlist : ∀ {l : List CompiledSchema}, c ∈ l → sizeOf c < sizeOf l := List.sizeOf_lt_of_mem
  have hmany : ∀ {o : Option (List CompiledSchema)}, c ∈ members o → sizeOf c < sizeOf o := by
    rintro (_ | l) h
    · exact absurd h List.not_mem_nil
    · have hl : sizeOf c < sizeOf l := hlist h
      rw [Option.some.sizeOf_spec]
      omega
  have hmap : ∀ {o : Option (List (RString × CompiledSchema))}, c ∈ entries o →
      sizeOf c < sizeOf o := by
    rintro (_ | m) h
    · exact absurd h List.not_mem_nil
    · obtain ⟨⟨k, d⟩, he, rfl⟩ := List.mem_map.1 h
      have hm := List.sizeOf_lt_of_mem he
      rw [Prod.mk.sizeOf_spec] at hm
      rw [Option.some.sizeOf_spec]
      dsimp only
      omega
  rcases mem_children.1 hc with h | h | h | h | h | h | h | h | h | h | h | h | h | h | h | h | h
  all_goals
    first
      | replace h := hone h
      | replace h := hmany h
      | replace h := hmap h
      | replace h := hlist h
    cases cs
    rw [mk.sizeOf_spec]
    dsimp only at h
    omega

/-- The tree of compiled schemas, with what is allocated for each. -/
noncomputable def forest : Forest CompiledSchema Block where
  internal := internalChildren
  exposed := exposedChildren
  own := ownBlocks
  size := sizeOf
  size_internal hc := sizeOf_child (mem_children_of_internal hc)
  size_exposed hc := sizeOf_child (mem_children_of_exposed hc)

/-! ## The lists of the traces -/

theorem freeCompiledSchema_eq (cs : CompiledSchema) : freeCompiledSchema cs =
    freeNested cs.addr cs.nestedSchemas
      ++ ((.read (.schema cs.addr) ::
          if cs.nestedSchemas.isEmpty then [] else [.free (.nestedSchemas cs.addr)])
        ++ (cs.schemaFields.flatMap (freeChild cs.addr) ++ [.free (.schema cs.addr)])) := by
  cases cs
  simp only [freeCompiledSchema, schemaFields, List.flatMap_cons, List.flatMap_nil,
    List.append_assoc, List.cons_append, List.nil_append]

theorem markChild_eq (o : Option CompiledSchema) :
    markChild o = o.toList.flatMap markCompiledSchema := by
  cases o with
  | none => rfl
  | some cs => rw [markChild, Option.toList_some, List.flatMap_singleton]

theorem markNested_eq (l : List CompiledSchema) : markNested l = l.flatMap markCompiledSchema := by
  induction l with
  | nil => rfl
  | cons cs l ih => rw [markNested, ih, List.flatMap_cons]

theorem mem_markCompiledSchema {a : Addr} : a ∈ markCompiledSchema cs ↔
    (∃ c ∈ cs.exposedChildren, c.addr = a) ∨
      ∃ c ∈ cs.internalChildren, a ∈ markCompiledSchema c := by
  have hperm : (markCompiledSchema cs).Perm
      (cs.exposedChildren.map (·.addr) ++ cs.internalChildren.flatMap markCompiledSchema) := by
    cases cs
    simp only [markCompiledSchema, markChild_eq, markNested_eq, exposedChildren, internalChildren,
      schemaFields, List.map_append, List.flatMap_append, List.flatMap_cons, List.flatMap_nil,
      List.append_nil, ← Multiset.coe_eq_coe, ← Multiset.coe_add]
    abel
  rw [hperm.mem_iff, List.mem_append, List.mem_map, List.mem_flatMap]

/-! ## What is freed -/

/-- The cells of a compiled schema, in the order in which they are freed. -/
theorem cells_perm (cs : CompiledSchema) : (forest.cells cs).Perm
    (cs.nestedSchemas.flatMap forest.cells
      ++ (cs.nestedArray
        ++ ((cs.schemaFields.flatMap fun o => o.toList.flatMap forest.cells)
          ++ [.schema cs.addr]))) := by
  have hcells : forest.cells cs
      = cs.internalChildren.flatMap forest.cells ++ cs.ownBlocks := forest.cells_eq cs
  rw [hcells, internalChildren, ownBlocks, List.flatMap_append, List.flatMap_assoc,
    ← Multiset.coe_eq_coe]
  simp only [← Multiset.coe_add]
  abel

section Free

variable (addr : Addr)
  (ih : ∀ c ∈ cs.internalChildren, Frees (freeCompiledSchema c) [] (forest.cells c))

include ih

/-- The loop over `nested_schemas` reads the struct and the array. -/
theorem frees_freeNested
    (hU : [Block.schema addr, .nestedSchemas addr].Disjoint
      (cs.nestedSchemas.flatMap forest.cells))
    (hd : (cs.nestedSchemas.flatMap forest.cells).Nodup) :
    Frees (freeNested addr cs.nestedSchemas) [.schema addr, .nestedSchemas addr]
      (cs.nestedSchemas.flatMap forest.cells) := by
  have heq : ∀ l, freeNested addr l = l.flatMap fun c =>
      .read (.schema addr) :: .read (.nestedSchemas addr) :: freeCompiledSchema c := by
    intro l
    induction l with
    | nil => rfl
    | cons c l ih => rw [freeNested, ih, List.flatMap_cons]
  rw [heq]
  refine Frees.flatMap (fun c hc => ?_) hU hd
  have hc' : c ∈ cs.internalChildren := List.mem_append_left _ hc
  exact .read (by simp) (.read (by simp) ((ih c hc').weaken nofun))

/-- A `FREE_CHILD_SCHEMA` reads the struct. -/
theorem frees_freeChild {o : Option CompiledSchema} (ho : o ∈ cs.schemaFields) :
    Frees (freeChild addr o) [.schema addr] (o.toList.flatMap forest.cells) := by
  cases o with
  | none => exact .read (List.mem_singleton.2 rfl) .nil
  | some c =>
    have hc : c ∈ cs.internalChildren :=
      List.mem_append_right _ (List.mem_flatMap.2 ⟨_, ho, by simp⟩)
    rw [freeChild, Option.toList_some, List.flatMap_singleton]
    exact .read (List.mem_singleton.2 rfl) ((ih c hc).weaken nofun)

end Free

/-- **`free_compiled_schema` frees exactly what a wrapper owns**, each block once, and it touches
nothing else. -/
theorem frees_freeCompiledSchema (cs : CompiledSchema) :
    (forest.cells cs).Nodup → Frees (freeCompiledSchema cs) [] (forest.cells cs) := by
  induction cs using induct with
  | h cs ih =>
    intro hnodup
    have hchild : ∀ c ∈ cs.internalChildren,
        Frees (freeCompiledSchema c) [] (forest.cells c) := by
      intro c hc
      refine ih c (mem_children_of_internal hc) ?_
      have hcells : forest.cells cs
          = cs.internalChildren.flatMap forest.cells ++ cs.ownBlocks := forest.cells_eq cs
      rw [hcells] at hnodup
      exact (List.nodup_flatMap.1 (List.nodup_append'.1 hnodup).1).1 c hc
    rw [(cells_perm cs).nodup_iff] at hnodup
    refine Frees.perm ?_ (cells_perm cs).symm
    obtain ⟨hnested, hrest, hdisj⟩ := List.nodup_append'.1 hnodup
    obtain ⟨-, hrest, hdisj'⟩ := List.nodup_append'.1 hrest
    obtain ⟨hfields, -, hdisj''⟩ := List.nodup_append'.1 hrest
    have harray : Frees (.read (Block.schema cs.addr) ::
        if cs.nestedSchemas.isEmpty then [] else [.free (Block.nestedSchemas cs.addr)])
          [Block.schema cs.addr] cs.nestedArray := by
      refine .read (List.mem_singleton.2 rfl) ?_
      unfold nestedArray
      split_ifs
      · exact .nil
      · exact .free
    have hchildren := Frees.flatMap (fun o ho => frees_freeChild cs.addr hchild ho)
      hdisj''.symm hfields
    have hlast := hchildren.append (U := []) .free (fun b hb => .inr hb) (List.disjoint_nil_left _)
      hdisj''
    have hmiddle := harray.append hlast (fun b hb => .inr (List.mem_append_right _ hb))
      (List.disjoint_nil_left _) hdisj'
    rw [freeCompiledSchema_eq]
    cases hnil : cs.nestedSchemas with
    | nil =>
      rw [hnil] at hmiddle
      exact hmiddle
    | cons c l =>
      have harray : Block.nestedSchemas cs.addr ∈ cs.nestedArray := by simp [nestedArray, hnil]
      have hblocks : ∀ b ∈ [Block.schema cs.addr, .nestedSchemas cs.addr],
          b ∈ cs.nestedArray ++ ((cs.schemaFields.flatMap fun o => o.toList.flatMap forest.cells)
            ++ [Block.schema cs.addr]) := by
        intro b hb
        rcases List.mem_cons.1 hb with rfl | hb
        · exact List.mem_append_right _ (List.mem_append_right _ (List.mem_singleton.2 rfl))
        · exact List.mem_append_left _ (List.mem_singleton.1 hb ▸ harray)
      have hloop := frees_freeNested cs.addr hchild
        (fun b hb hb' => hdisj hb' (hblocks b hb)) hnested
      rw [hnil] at hloop hmiddle hdisj
      exact hloop.append hmiddle (fun b hb => .inr (hblocks b hb)) (List.disjoint_nil_left _) hdisj

/-! ## Trees as arenas -/

theorem mem_forest_nodes (h : cs.Reach c) : c ∈ forest.nodes cs := by
  induction cs using induct with
  | h cs ih =>
    rw [Forest.mem_nodes]
    rcases reach_iff.1 h with rfl | ⟨d, hd, hc⟩
    · exact .inl rfl
    · have hsides := (children_perm cs).mem_iff.1 hd
      exact .inr ⟨d, List.mem_append.1 hsides, ih d hd hc⟩

theorem ownBlocks_nodup (cs : CompiledSchema) : cs.ownBlocks.Nodup := by
  unfold ownBlocks nestedArray
  split_ifs <;> simp

theorem addr_of_mem_ownBlocks {b : Block} (hb : b ∈ cs.ownBlocks) : b.addr = cs.addr := by
  unfold ownBlocks nestedArray at hb
  split_ifs at hb
  · obtain rfl := List.mem_singleton.1 hb
    rfl
  · rcases List.mem_cons.1 hb with rfl | hb
    · rfl
    · obtain rfl := List.mem_singleton.1 hb
      rfl

/-- **A tree whose structs have distinct addresses** is managed by its wrappers. -/
theorem managed (h : ((forest.nodes cs).map (·.addr)).Nodup) :
    forest.Managed (·.addr) freeCompiledSchema markCompiledSchema cs where
  keys := h.sublist ((forest.cons_wrappers_sublist cs).map _)
  blocks := by
    rw [List.nodup_flatMap]
    refine ⟨fun c _ => ownBlocks_nodup c, (List.pairwise_map.1 h).imp ?_⟩
    intro c d hne b hb hb'
    exact hne ((addr_of_mem_ownBlocks hb).symm.trans (addr_of_mem_ownBlocks hb'))
  frees := frees_freeCompiledSchema
  marks _ _ := mem_markCompiledSchema

end CompiledSchema

end FastJsonSchema
