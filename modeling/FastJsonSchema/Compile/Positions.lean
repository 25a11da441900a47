import FastJsonSchema.Compile.Compile

/-!
# The positions of a schema document

A `Position` is a value that `compile` is called on, with the address and the path of its compiled
schema and the context of the call. `positions` lists the positions of a document in the order of
the calls, without compiling anything. Its fuel is bounded by the nesting of the value
(`Position.nesting_children`).
-/

namespace FastJsonSchema

open Ruby

/-- A call of `compile`. -/
structure Position where
  addr : Addr
  path : RString
  value : Value
  ctx : CompileContext

namespace Position

variable (rt : Runtime) (p : Position)

/-- The members of the value of a position; none when `compile` returns before it reads them. -/
def members : List (Value × Value) :=
  match p.value with
  | .hash kvs => kvs
  | _ => []

/-- The compiled schema of a position when its own keys are registered. -/
def resolved : CompiledSchema × CompileContext :=
  readScope rt (.create p.addr p.path) p.members p.ctx

/-- The entries that a position writes to the reference table, the oldest first. -/
def keys : RefData :=
  (p.path, p.addr) ::
    if p.members.isEmpty then [] else idKeys (p.resolved rt).1 p.ctx.currentBase

/-! ## The positions below -/

section Children

variable (parent : CompiledSchema) (kvs : List (Value × Value)) (ctx : CompileContext)
  (keyword : RString)

/-- The position of `assignSchema`. -/
def single : List Position :=
  let val := Value.aref kvs keyword
  if isSchemaShaped val then
    [⟨parent.addr ++ [keyword], newPath parent.path keyword, val, ctx⟩]
  else []

/-- The positions of `compileElements`. -/
def elements : ℕ → List Value → List Position
  | _, [] => []
  | i, v :: vs =>
    let path := appendLongToPath keyword i
    ⟨parent.addr ++ [keyword, decimal i], newPath parent.path path, v, ctx.descend path⟩
      :: elements (i + 1) vs

/-- The positions of `assignSchemaCollection`. -/
def collection : List Position :=
  match Value.aref kvs keyword with
  | .arr xs => elements parent ctx keyword 0 xs
  | _ => []

/-- The position of a member in `compileMembers`. -/
def member (value : Value → Value) (kv : RString × Value) : Position :=
  let path := newPath keyword kv.1
  ⟨parent.addr ++ [keyword, kv.1], newPath parent.path path, value kv.2, ctx.descend path⟩

/-- The positions of `compileProperties`. -/
def properties (value : Value → Value) : List Position :=
  match Value.aref kvs keyword with
  | .hash members => (Value.stringEntries members).map (member parent ctx keyword value)
  | _ => []

end Children

section Nested

variable (parent : CompiledSchema) (ctx : CompileContext)

mutual

/-- The positions of `compileEntry`. -/
def entry : Value → RString → List RString → List Position
  | .arr xs, path, tokens => arrayEntries xs 0 path tokens
  | .hash kvs, path, tokens =>
    [⟨parent.addr ++ tokens, newPath parent.path path, .hash kvs, ctx.descend path⟩]
  | .bool b, path, tokens =>
    [⟨parent.addr ++ tokens, newPath parent.path path, .bool b, ctx.descend path⟩]
  | _, _, _ => []

/-- The positions of `compileArrayEntries`. -/
def arrayEntries : List Value → ℕ → RString → List RString → List Position
  | [], _, _, _ => []
  | v :: vs, i, path, tokens =>
    entry v (appendLongToPath path i) (tokens ++ [decimal i]) ++ arrayEntries vs (i + 1) path tokens

end

/-- The positions of `compileNested`. -/
def nested (kvs : List (Value × Value)) : List Position :=
  (unknownMembers kvs).flatMap fun kv => entry parent ctx kv.2 kv.1 [kv.1]

end Nested

/-- The positions right below, for a compiled schema, the members of its value and the context of
its children. -/
def childrenOf (cs : CompiledSchema) (kvs : List (Value × Value)) (child : CompileContext) :
    List Position :=
  single cs kvs child ifStr ++ single cs kvs child thenStr ++ single cs kvs child elseStr
    ++ collection cs kvs child allOfStr ++ collection cs kvs child anyOfStr
    ++ collection cs kvs child oneOfStr ++ single cs kvs child notStr
    ++ single cs kvs child itemsStr ++ collection cs kvs child itemsStr
    ++ single cs kvs child additionalItemsStr ++ single cs kvs child containsStr
    ++ single cs kvs child propertyNamesStr ++ single cs kvs child additionalPropertiesStr
    ++ properties cs kvs child propertiesStr id
    ++ properties cs kvs child patternPropertiesStr id
    ++ properties cs kvs child dependenciesStr dependencySchema
    ++ nested cs child kvs

/-- The positions right below, in the order in which they are compiled. -/
def children : List Position :=
  if p.members.isEmpty then [] else childrenOf (p.resolved rt).1 p.members (p.resolved rt).2

/-- The positions at and below a position, in the order in which they are compiled. -/
def positions : ℕ → Position → List Position
  | 0, _ => []
  | n + 1, p => p :: (p.children rt).flatMap (positions n)

/-- `p` is the position of the node `cs`. -/
structure Matches (p : Position) (cs : CompiledSchema) : Prop where
  addr : cs.addr = p.addr
  path : cs.path = p.path
  refVal : cs.refVal = (p.resolved rt).1.refVal
  resolvedRefVal : cs.resolvedRefVal = (p.resolved rt).1.resolvedRefVal

/-- The nodes of the tree of `cs` are those of a list of positions. -/
def Covers (ps : List Position) (cs : CompiledSchema) : Prop :=
  (∀ c, cs.Reach c → ∃ p ∈ ps, p.Matches rt c) ∧ ∀ p ∈ ps, ∃ c, cs.Reach c ∧ p.Matches rt c

end Position

/-! ## Nesting -/

theorem Value.nesting_get {kvs : List (Value × Value)} {k : RString} {v : Value}
    (h : Value.get kvs k = some v) : v.nesting ≤ Value.nestingEntries kvs := by
  obtain ⟨kv, hkv, rfl⟩ := Option.map_eq_some_iff.1 h
  exact Value.nesting_le_entries (List.mem_of_find?_eq_some hkv)

theorem Value.nesting_aref (kvs : List (Value × Value)) (k : RString) :
    (Value.aref kvs k).nesting ≤ Value.nestingEntries kvs := by
  rw [Value.aref]
  cases h : Value.get kvs k with
  | none => exact Nat.zero_le _
  | some v => exact Value.nesting_get h

namespace Position

variable {parent : CompiledSchema} {kvs : List (Value × Value)} {ctx : CompileContext}
  {keyword : RString} {q : Position}

theorem nesting_single (h : q ∈ single parent kvs ctx keyword) :
    q.value.nesting ≤ Value.nestingEntries kvs := by
  unfold single at h
  dsimp only at h
  split_ifs at h
  · obtain rfl := List.mem_singleton.1 h
    exact Value.nesting_aref kvs keyword
  · exact absurd h (by simp)

theorem mem_elements {xs : List Value} {i : ℕ} (h : q ∈ elements parent ctx keyword i xs) :
    q.value ∈ xs := by
  induction xs generalizing i with
  | nil => exact absurd h (by simp [elements])
  | cons v vs ih =>
    rw [elements] at h
    rcases List.mem_cons.1 h with rfl | h
    · exact List.mem_cons_self
    · exact List.mem_cons_of_mem _ (ih h)

theorem nesting_collection (h : q ∈ collection parent kvs ctx keyword) :
    q.value.nesting ≤ Value.nestingEntries kvs := by
  have hle := Value.nesting_aref kvs keyword
  unfold collection at h
  split at h
  next xs hxs =>
    rw [hxs, Value.nesting] at hle
    have := Value.nesting_le_list (mem_elements h)
    omega
  next => exact absurd h (by simp)

theorem nesting_dependencySchema (v : Value) : (dependencySchema v).nesting ≤ v.nesting + 1 := by
  unfold dependencySchema
  split
  · simp [Value.nesting, Value.nestingEntries]
  · exact Nat.le_succ _

theorem nesting_properties {value : Value → Value} (hv : ∀ v, (value v).nesting ≤ v.nesting + 1)
    (h : q ∈ properties parent kvs ctx keyword value) :
    q.value.nesting ≤ Value.nestingEntries kvs := by
  have hle := Value.nesting_aref kvs keyword
  unfold properties at h
  split at h
  next members hm =>
    rw [hm, Value.nesting] at hle
    obtain ⟨⟨k, v⟩, hkv, rfl⟩ := List.mem_map.1 h
    have h₁ := Value.nesting_le_entries (Value.mem_stringEntries.1 hkv)
    have h₂ := hv v
    simp only [member]
    omega
  next => exact absurd h (by simp)

mutual

theorem nesting_entry : ∀ (v : Value) (path : RString) (tokens : List RString) (q : Position),
    q ∈ entry parent ctx v path tokens → q.value.nesting ≤ v.nesting
  | .arr xs, path, tokens, q, h => by
    rw [entry] at h
    exact (nesting_arrayEntries xs 0 path tokens q h).trans (Nat.le_succ _)
  | .hash kvs, path, tokens, q, h => by
    obtain rfl := List.mem_singleton.1 h
    exact le_rfl
  | .bool b, path, tokens, q, h => by
    obtain rfl := List.mem_singleton.1 h
    exact le_rfl
  | .nil, _, _, _, h | .int _, _, _, _, h | .float _, _, _, _, h | .str _, _, _, _, h
  | .other _, _, _, _, h => absurd h (by simp [entry])

theorem nesting_arrayEntries : ∀ (xs : List Value) (i : ℕ) (path : RString)
    (tokens : List RString) (q : Position), q ∈ arrayEntries parent ctx xs i path tokens →
      q.value.nesting ≤ Value.nestingList xs
  | [], _, _, _, _, h => absurd h (by simp [arrayEntries])
  | v :: vs, i, path, tokens, q, h => by
    rw [arrayEntries] at h
    rw [Value.nestingList]
    rcases List.mem_append.1 h with h | h
    · exact (nesting_entry v _ _ q h).trans (le_max_left _ _)
    · exact (nesting_arrayEntries vs _ path tokens q h).trans (le_max_right _ _)

end

theorem nesting_nested (h : q ∈ nested parent ctx kvs) :
    q.value.nesting ≤ Value.nestingEntries kvs := by
  obtain ⟨⟨k, v⟩, hkv, hq⟩ := List.mem_flatMap.1 h
  have hmem := Value.mem_stringEntries.1 (List.mem_of_mem_filter hkv)
  exact (nesting_entry v k [k] q hq).trans (Value.nesting_le_entries hmem)

/-- A position is nested more deeply than those below it. -/
theorem nesting_children {rt : Runtime} {p : Position} (h : q ∈ p.children rt) :
    q.value.nesting < p.value.nesting := by
  have hle : q.value.nesting ≤ Value.nestingEntries p.members := by
    unfold children at h
    split_ifs at h
    · exact absurd h (by simp)
    simp only [childrenOf, List.mem_append] at h
    rcases h with (((((((((((((((h | h) | h) | h) | h) | h) | h) | h) | h) | h) | h) | h) | h) | h)
      | h) | h) | h <;>
      first
      | exact nesting_single h
      | exact nesting_collection h
      | exact nesting_properties (fun v => Nat.le_succ _) h
      | exact nesting_properties nesting_dependencySchema h
      | exact nesting_nested h
  unfold children members at h
  unfold members at hle
  split at hle
  next kvs hv =>
    rw [hv, Value.nesting]
    exact Nat.lt_succ_of_le hle
  next hv =>
    split at h
    next kvs hv' => exact absurd hv' (hv kvs)
    next => simp at h

end Position

end FastJsonSchema
