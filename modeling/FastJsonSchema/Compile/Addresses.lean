import FastJsonSchema.Compile.Places
import Mathlib.Data.List.Nodup

/-!
# The addresses of the structs of a document

`compile` allocates one struct for each position of a document. The addresses of the positions
right below a position are pairwise distinct (`Position.children_nodup`), and so are those of all
positions (`positionsOf_nodup`). An address tells a struct from the others, as a pointer does.
-/

namespace FastJsonSchema

open Ruby Value

namespace Position

variable {rt : Runtime}

/-! ## Right below a position -/

section Blocks

variable {parent : CompiledSchema} {kvs : List (Value × Value)} {ctx : CompileContext}
  {k : RString}

/-- The addresses of a list of positions are pairwise distinct and start with a token below the
parent. -/
structure Under (parent : CompiledSchema) (k : RString) (ps : List Position) : Prop where
  nodup : (ps.map (·.addr)).Nodup
  head : ∀ p ∈ ps, ∃ ts, p.addr = parent.addr ++ k :: ts

theorem Under.nil : Under parent k [] := ⟨List.nodup_nil, fun _ hp => absurd hp List.not_mem_nil⟩

theorem single_under : Under parent k (single parent kvs ctx k) := by
  unfold single
  dsimp only
  split_ifs
  · exact ⟨List.nodup_singleton _, fun p hp => ⟨[], by rw [List.mem_singleton.1 hp]⟩⟩
  · exact .nil

theorem elements_under (xs : List Value) :
    ∀ i : ℕ, Under parent k (elements parent ctx k i xs) := by
  intro i
  constructor
  · induction xs generalizing i with
    | nil => exact List.nodup_nil
    | cons x xs ih =>
      rw [elements, List.map_cons, List.nodup_cons]
      refine ⟨fun h => ?_, ih (i + 1)⟩
      obtain ⟨q, hq, he⟩ := List.mem_map.1 h
      obtain ⟨j, v, -, rfl⟩ := mem_elements_iff.1 hq
      have hdec : decimal (i + 1 + j) = decimal i := by simpa [stepBelow, Step.tokens] using he
      have := decimal_injective hdec
      omega
  · intro p hp
    obtain ⟨j, v, -, rfl⟩ := mem_elements_iff.1 hp
    exact ⟨[decimal (i + j)], rfl⟩

theorem collection_under : Under parent k (collection parent kvs ctx k) := by
  unfold collection
  split
  · exact elements_under _ 0
  · exact .nil

theorem properties_under (hd : Distinct (.hash kvs)) (value : Value → Value) :
    Under parent k (properties parent kvs ctx k value) := by
  unfold properties
  split
  next ms hm =>
    have hms : Distinct (.hash ms) := hm ▸ distinct_of_aref hd (by rw [hm]; simp)
    constructor
    · have haddr : ((stringEntries ms).map (member parent ctx k value)).map (·.addr)
          = (Value.keys ms).map fun key => parent.addr ++ [k, key] := by
        simp only [Value.keys, List.map_map]
        rfl
      rw [haddr]
      refine hms.keys.map fun key key' he => ?_
      simpa using he
    · intro p hp
      obtain ⟨kv, -, rfl⟩ := List.mem_map.1 hp
      exact ⟨[kv.1], rfl⟩
  next => exact .nil

/-- The two ways to take `items` exclude each other. -/
theorem items_under : Under parent k (single parent kvs ctx k ++ collection parent kvs ctx k) := by
  by_cases h : isSchemaShaped (aref kvs k) = true
  · have hnil : collection parent kvs ctx k = [] := by
      unfold collection
      split
      next xs hx => exact absurd h (by simp [hx, isSchemaShaped])
      next => rfl
    rw [hnil, List.append_nil]
    exact single_under
  · have hnil : single parent kvs ctx k = [] := by
      unfold single
      exact if_neg h
    rw [hnil, List.nil_append]
    exact collection_under

mutual

theorem entry_nodup (v : Value) (path : RString) (tokens : List RString) :
    ((entry parent ctx v path tokens).map (·.addr)).Nodup := by
  cases v with
  | arr xs =>
    rw [entry]
    exact arrayEntries_nodup xs 0 path tokens
  | hash kvs => exact List.nodup_singleton _
  | bool b => exact List.nodup_singleton _
  | _ => exact List.nodup_nil

theorem arrayEntries_nodup : ∀ (xs : List Value) (i : ℕ) (path : RString) (tokens : List RString),
    ((arrayEntries parent ctx xs i path tokens).map (·.addr)).Nodup
  | [], _, _, _ => List.nodup_nil
  | v :: vs, i, path, tokens => by
    rw [arrayEntries, List.map_append, List.nodup_append]
    refine ⟨entry_nodup v _ _, arrayEntries_nodup vs (i + 1) path tokens, ?_⟩
    intro a ha b hb
    obtain ⟨p, hp, rfl⟩ := List.mem_map.1 ha
    obtain ⟨q, hq, rfl⟩ := List.mem_map.1 hb
    obtain ⟨is, w, -, -, rfl⟩ := mem_entry.1 hp
    obtain ⟨j, v', -, hq⟩ := mem_arrayEntries.1 hq
    obtain ⟨is', w', -, -, rfl⟩ := mem_entry.1 hq
    intro he
    have hdec : decimal i = decimal (i + 1 + j) ∧ is.map decimal = is'.map decimal := by
      simpa [entryAt] using he
    have := decimal_injective hdec.1
    omega

end

theorem entry_under (v : Value) : Under parent k (entry parent ctx v k [k]) := by
  refine ⟨entry_nodup v _ _, fun p hp => ?_⟩
  obtain ⟨is, w, -, -, rfl⟩ := mem_entry.1 hp
  exact ⟨is.map decimal, rfl⟩

/-- Blocks of positions under distinct keywords. -/
theorem nodup_of_under {blocks : List (RString × List Position)}
    (hk : (blocks.map (·.1)).Nodup) (h : ∀ b ∈ blocks, Under parent b.1 b.2) :
    ((blocks.flatMap (·.2)).map (·.addr)).Nodup := by
  rw [List.map_flatMap, List.nodup_flatMap]
  refine ⟨fun b hb => (h b hb).nodup, (List.pairwise_map.1 hk).imp_of_mem ?_⟩
  intro b b' hb hb' hne
  rw [Function.onFun_apply, List.disjoint_left]
  intro a ha ha'
  obtain ⟨p, hp, rfl⟩ := List.mem_map.1 ha
  obtain ⟨p', hp', he⟩ := List.mem_map.1 ha'
  obtain ⟨ts, hts⟩ := (h b hb).head p hp
  obtain ⟨ts', hts'⟩ := (h b' hb').head p' hp'
  rw [hts, hts', List.append_cancel_left_eq, List.cons.injEq] at he
  exact hne he.1.symm

variable (parent kvs ctx) in
/-- The positions under the known keywords, by keyword. -/
def knownBlocks : List (RString × List Position) :=
  [(ifStr, single parent kvs ctx ifStr), (thenStr, single parent kvs ctx thenStr),
   (elseStr, single parent kvs ctx elseStr), (allOfStr, collection parent kvs ctx allOfStr),
   (anyOfStr, collection parent kvs ctx anyOfStr), (oneOfStr, collection parent kvs ctx oneOfStr),
   (notStr, single parent kvs ctx notStr),
   (itemsStr, single parent kvs ctx itemsStr ++ collection parent kvs ctx itemsStr),
   (additionalItemsStr, single parent kvs ctx additionalItemsStr),
   (containsStr, single parent kvs ctx containsStr),
   (propertyNamesStr, single parent kvs ctx propertyNamesStr),
   (additionalPropertiesStr, single parent kvs ctx additionalPropertiesStr),
   (propertiesStr, properties parent kvs ctx propertiesStr id),
   (patternPropertiesStr, properties parent kvs ctx patternPropertiesStr id),
   (dependenciesStr, properties parent kvs ctx dependenciesStr dependencySchema)]

variable (parent kvs ctx) in
/-- The positions under the unknown keywords, by keyword. -/
def unknownBlocks : List (RString × List Position) :=
  (unknownMembers kvs).map fun kv => (kv.1, entry parent ctx kv.2 kv.1 [kv.1])

/-- The keywords of `knownBlocks`. -/
def blockKeywords : List RString :=
  [ifStr, thenStr, elseStr, allOfStr, anyOfStr, oneOfStr, notStr, itemsStr, additionalItemsStr,
   containsStr, propertyNamesStr, additionalPropertiesStr, propertiesStr, patternPropertiesStr,
   dependenciesStr]

theorem map_knownBlocks : (knownBlocks parent kvs ctx).map (·.1) = blockKeywords := rfl

theorem map_unknownBlocks :
    (unknownBlocks parent kvs ctx).map (·.1) = (unknownMembers kvs).map (·.1) := by
  rw [unknownBlocks, List.map_map]
  rfl

theorem childrenOf_eq_blocks : childrenOf parent kvs ctx
    = (knownBlocks parent kvs ctx ++ unknownBlocks parent kvs ctx).flatMap (·.2) := by
  rw [List.flatMap_append, unknownBlocks, List.flatMap_map]
  simp only [knownBlocks, List.flatMap_cons, List.flatMap_nil, List.append_nil, childrenOf, nested,
    List.append_assoc]

theorem childrenOf_nodup (hd : Distinct (.hash kvs)) :
    ((childrenOf parent kvs ctx).map (·.addr)).Nodup := by
  rw [childrenOf_eq_blocks]
  apply nodup_of_under
  · rw [List.map_append, map_knownBlocks, map_unknownBlocks, List.nodup_append]
    refine ⟨by decide, hd.keys.sublist (List.filter_sublist.map _), ?_⟩
    rintro k hk _ hk' rfl
    obtain ⟨kv, hkv, rfl⟩ := List.mem_map.1 hk'
    have hknown : ∀ k ∈ blockKeywords, isKnownKeyword k = true := by decide
    have hunknown : (!isKnownKeyword kv.1) = true := (List.mem_filter.1 hkv).2
    rw [hknown _ hk] at hunknown
    exact absurd hunknown Bool.false_ne_true
  · intro b hb
    rcases List.mem_append.1 hb with hb | hb
    · simp only [knownBlocks, List.mem_cons, List.not_mem_nil, or_false] at hb
      rcases hb with rfl | rfl | rfl | rfl | rfl | rfl | rfl | rfl | rfl | rfl | rfl | rfl | rfl
        | rfl | rfl
      · exact single_under
      · exact single_under
      · exact single_under
      · exact collection_under
      · exact collection_under
      · exact collection_under
      · exact single_under
      · exact items_under
      · exact single_under
      · exact single_under
      · exact single_under
      · exact single_under
      · exact properties_under hd id
      · exact properties_under hd id
      · exact properties_under hd dependencySchema
    · obtain ⟨kv, -, rfl⟩ := List.mem_map.1 hb
      exact entry_under kv.2

end Blocks

/-- **The positions right below a position have distinct addresses.** -/
theorem children_nodup {p : Position} (hd : Distinct p.value) :
    ((p.children rt).map (·.addr)).Nodup := by
  unfold children
  split_ifs with hm
  · exact List.nodup_nil
  · refine childrenOf_nodup ?_
    unfold members at hm ⊢
    split at hm
    next kvs hv => rwa [hv] at hd
    next => exact absurd rfl hm

/-! ## At and below a position -/

/-- The positions at and below a position have distinct addresses. -/
theorem positions_nodup {n : ℕ} : ∀ {p : Position}, Distinct p.value →
    ((p.positions rt n).map (·.addr)).Nodup := by
  induction n with
  | zero => exact fun _ => List.nodup_nil
  | succ n ih =>
    intro p hd
    rw [positions, List.map_cons, List.nodup_cons, List.map_flatMap, List.nodup_flatMap]
    refine ⟨fun h => ?_, fun c hc => ?_, ?_⟩
    · obtain ⟨q, hq, he⟩ := List.mem_map.1 (List.map_flatMap ▸ h)
      obtain ⟨c, hc, hq⟩ := List.mem_flatMap.1 hq
      obtain ⟨s, v, -, rfl⟩ := mem_children.1 hc
      exact addr_below_ne hq he
    · obtain ⟨s, v, h, rfl⟩ := mem_children.1 hc
      rw [value_eq_of_leads h] at hd
      exact ih (Leads.distinct hd h)
    · refine (List.pairwise_map.1 (children_nodup hd)).imp_of_mem ?_
      intro c c' hc hc' hne
      rw [Function.onFun_apply, List.disjoint_left]
      intro a ha ha'
      obtain ⟨q, hq, rfl⟩ := List.mem_map.1 ha
      obtain ⟨q', hq', he⟩ := List.mem_map.1 ha'
      obtain ⟨s, v, h, rfl⟩ := mem_children.1 hc
      obtain ⟨s', v', h', rfl⟩ := mem_children.1 hc'
      obtain ⟨ts, hts⟩ := addr_of_mem hq
      obtain ⟨ts', hts'⟩ := addr_of_mem hq'
      rw [hts, hts', below_addr, below_addr, List.append_assoc, List.append_assoc,
        List.append_cancel_left_eq] at he
      rw [value_eq_of_leads h] at hd
      obtain ⟨rfl, -, -⟩ := Leads.unique hd h h' he.symm
      exact hne rfl

end Position

/-- **The structs of a document have distinct addresses.** -/
theorem positionsOf_nodup {rt : Runtime} {customFormats : Option (List (RString × ℕ))}
    {doc : Value} (hd : Distinct doc) :
    ((positionsOf rt customFormats doc).map (·.addr)).Nodup :=
  Position.positions_nodup (p := rootPosition doc customFormats) hd

end FastJsonSchema
