import FastJsonSchema.Compile.Positions
import FastJsonSchema.Table.Buffer

/-!
# The array of the nested schemas

`compile_nested_schemas` of `nested_schemas.c` with the array that `compileNested` leaves out. One
pass over the members counts the schemas of the unknown containers and sizes the array; the next
one compiles them, and stores the pointer of each before its compilation. A store outside the array
is a fault here, and the two passes agree so that there is none
(`compileNestedSchemas_fills`).
-/

namespace FastJsonSchema

open Ruby Table

/-! ## The counting pass -/

mutual

/-- The body of `count_schema_entries_in_array`, and that of `count_nested`. -/
def countEntry : Value → ℕ
  | .arr xs => countSchemaEntriesInArray xs
  | v => if isSchemaShaped v then 1 else 0

/-- `count_schema_entries_in_array` -/
def countSchemaEntriesInArray : List Value → ℕ
  | [] => 0
  | v :: vs => countEntry v + countSchemaEntriesInArray vs

end

/-- `count_nested` -/
def countNested (count : ℕ) (kv : Value × Value) : ℕ :=
  match kv.1 with
  | .str key => if isKnownKeyword key then count else count + countEntry kv.2
  | _ => count

/-! ## The compiling pass -/

/-- Compilation with the array of the parent; `none` is a store outside the array. -/
abbrev FillM := StateT (Buffer Addr) (OptionT CompileM)

/-- `nested_schemas[nested_schemas_count++] = child` -/
def storeChild (child : Addr) : FillM Unit := fun b =>
  match b.store child with
  | some b' => pure ((), b')
  | none => failure

section Fill

variable (rec : CompileCall) (parent : CompiledSchema) (ctx : CompileContext)

/-- The branch of `compile_entry` for a schema: the pointer is stored before `compile` is called. -/
def fillSchema (v : Value) (path : RString) (tokens : List RString) :
    FillM (List CompiledSchema) := do
  let child := CompiledSchema.create (parent.addr ++ tokens) (newPath parent.path path)
  storeChild child.addr
  let c ← rec child v (ctx.descend path)
  pure [c]

mutual

/-- `compile_entry` -/
def fillEntry : Value → RString → List RString → FillM (List CompiledSchema)
  | .arr xs, path, tokens => fillArrayEntries xs 0 path tokens
  | .hash kvs, path, tokens => fillSchema rec parent ctx (.hash kvs) path tokens
  | .bool b, path, tokens => fillSchema rec parent ctx (.bool b) path tokens
  | _, _, _ => pure []

/-- `compile_array_entries`, from an index on -/
def fillArrayEntries : List Value → ℕ → RString → List RString → FillM (List CompiledSchema)
  | [], _, _, _ => pure []
  | v :: vs, i, path, tokens => do
    let entry ← fillEntry v (appendLongToPath path i) (tokens ++ [decimal i])
    let rest ← fillArrayEntries vs (i + 1) path tokens
    pure (entry ++ rest)

end

/-- `compile_nested` -/
def fillNested (kv : Value × Value) : FillM (List CompiledSchema) :=
  match kv.1 with
  | .str key => if isKnownKeyword key then pure [] else fillEntry rec parent ctx kv.2 key [key]
  | _ => pure []

/-- The loop over `compile_nested` -/
def fillMembers : List (Value × Value) → FillM (List CompiledSchema)
  | [] => pure []
  | kv :: kvs => do
    let entry ← fillNested rec parent ctx kv
    let rest ← fillMembers kvs
    pure (entry ++ rest)

/-- `compile_nested_schemas`, with the array of the parent when it has been allocated -/
def compileNestedSchemas (v : Value) :
    OptionT CompileM (List CompiledSchema × Option (Buffer Addr)) :=
  match v with
  | .hash kvs =>
    let total := kvs.foldl countNested 0
    if total = 0 then pure ([], none)
    else do
      let (children, buffer) ← (fillMembers rec parent ctx kvs).run (.alloc total)
      pure (children, some buffer)
  | _ => pure ([], none)

end Fill

/-! ## What a pass stores -/

/-- `m` does what `c` does and stores `addrs`, when the array has room for them. -/
def Stores {α : Type} (m : FillM α) (c : CompileM α) (addrs : List Addr) : Prop :=
  ∀ b b' rd, b.storeAll addrs = some b' →
    (m.run b).run.run rd = (fun r => (some (r.1, b'), r.2)) <$> c.run rd

namespace Stores

variable {α β : Type} {m : FillM α} {c : CompileM α} {k : α → FillM β} {d : α → CompileM β}
  {as bs : List Addr}

theorem pure (a : α) : Stores (Pure.pure a) (Pure.pure a) [] := by
  intro b b' rd h
  obtain rfl : b = b' := Option.some.inj (Buffer.storeAll_nil.symm.trans h)
  rfl

theorem bind (hm : Stores m c as) (hk : ∀ a, Stores (k a) (d a) bs) :
    Stores (m >>= k) (c >>= d) (as ++ bs) := by
  intro b b' rd h
  obtain ⟨b₁, h₁, h₂⟩ := Buffer.storeAll_append_eq_some.1 h
  have run : (m.run b).run.run rd = _ := hm b b₁ rd h₁
  rw [StateT.run_bind, OptionT.run_bind, Option.elimM, StateT.run_bind, run, StateT.run_bind]
  cases c.run rd with
  | error e => rfl
  | ok r => exact hk r.1 b₁ b' r.2 h₂

/-- A step without a store comes last. -/
theorem bind_pure (hm : Stores m c as) (f : α → β) :
    Stores (m >>= fun a => Pure.pure (f a)) (c >>= fun a => Pure.pure (f a)) as := by
  rw [← List.append_nil as]
  exact hm.bind fun a => .pure (f a)

theorem storeChild (a : Addr) : Stores (FastJsonSchema.storeChild a) (Pure.pure ()) [a] := by
  intro b b' rd h
  rw [Buffer.storeAll_singleton] at h
  have run : (FastJsonSchema.storeChild a).run b = Pure.pure ((), b') := by
    show FastJsonSchema.storeChild a b = _
    rw [FastJsonSchema.storeChild, h]
  rw [run]
  rfl

theorem lift (c : CompileM α) : Stores (liftM c) c [] := by
  intro b b' rd h
  obtain rfl : b = b' := Option.some.inj (Buffer.storeAll_nil.symm.trans h)
  simp

end Stores

section Fill

variable (rec : CompileCall) (parent : CompiledSchema) (ctx : CompileContext)

theorem fillSchema_stores (v : Value) (path : RString) (tokens : List RString) :
    Stores (fillSchema rec parent ctx v path tokens)
      ((fun c => [c]) <$> rec (.create (parent.addr ++ tokens) (newPath parent.path path)) v
        (ctx.descend path))
      [parent.addr ++ tokens] := by
  rw [← bind_pure_comp]
  show Stores _ _ ([parent.addr ++ tokens] ++ [])
  exact (Stores.storeChild _).bind fun _ => (Stores.lift _).bind_pure _

mutual

theorem fillEntry_stores (v : Value) (path : RString) (tokens : List RString) :
    Stores (fillEntry rec parent ctx v path tokens) (compileEntry rec parent ctx v path tokens)
      ((Position.entry parent ctx v path tokens).map (·.addr)) := by
  cases v with
  | arr xs =>
    rw [fillEntry, compileEntry, Position.entry]
    exact fillArrayEntries_stores xs 0 path tokens
  | hash kvs =>
    rw [fillEntry, compileEntry, Position.entry]
    exact fillSchema_stores rec parent ctx _ path tokens
  | bool b =>
    rw [fillEntry, compileEntry, Position.entry]
    exact fillSchema_stores rec parent ctx _ path tokens
  | _ => exact .pure []

theorem fillArrayEntries_stores :
    ∀ (xs : List Value) (i : ℕ) (path : RString) (tokens : List RString),
      Stores (fillArrayEntries rec parent ctx xs i path tokens)
        (compileArrayEntries rec parent ctx xs i path tokens)
        ((Position.arrayEntries parent ctx xs i path tokens).map (·.addr))
  | [], _, _, _ => by
    rw [fillArrayEntries, compileArrayEntries, Position.arrayEntries]
    exact .pure []
  | v :: vs, i, path, tokens => by
    rw [fillArrayEntries, compileArrayEntries, Position.arrayEntries, List.map_append]
    exact (fillEntry_stores v _ _).bind fun entry =>
      (fillArrayEntries_stores vs (i + 1) path tokens).bind_pure _

end

/-- The three loops over the members skip the same ones. -/
theorem member_cases (kv : Value × Value) :
    ((∀ kvs, unknownMembers (kv :: kvs) = unknownMembers kvs)
      ∧ (∀ rec, fillNested rec parent ctx kv = pure []) ∧ ∀ n, countNested n kv = n)
    ∨ ∃ key, (∀ kvs, unknownMembers (kv :: kvs) = (key, kv.2) :: unknownMembers kvs)
      ∧ (∀ rec, fillNested rec parent ctx kv = fillEntry rec parent ctx kv.2 key [key])
      ∧ ∀ n, countNested n kv = n + countEntry kv.2 := by
  obtain ⟨k, v⟩ := kv
  cases k with
  | str key =>
    cases hkey : isKnownKeyword key with
    | true =>
      refine .inl ⟨fun kvs => ?_, fun _ => if_pos hkey, fun _ => if_pos hkey⟩
      exact List.filter_cons_of_neg (by simp [hkey])
    | false =>
      have unknown : ¬ isKnownKeyword key = true := by simp [hkey]
      refine .inr ⟨key, fun kvs => ?_, fun _ => if_neg unknown, fun _ => if_neg unknown⟩
      exact List.filter_cons_of_pos (by simp [hkey])
  | _ => exact .inl ⟨fun _ => rfl, fun _ => rfl, fun _ => rfl⟩

theorem fillMembers_stores : ∀ kvs : List (Value × Value),
    Stores (fillMembers rec parent ctx kvs) (compileNested rec parent ctx (unknownMembers kvs))
      ((Position.nested parent ctx kvs).map (·.addr))
  | [] => .pure []
  | kv :: kvs => by
    have ih := fillMembers_stores kvs
    rw [fillMembers, Position.nested]
    rw [Position.nested] at ih
    obtain ⟨hmembers, hfill, -⟩ | ⟨key, hmembers, hfill, -⟩ := member_cases parent ctx kv
    · rw [hmembers, hfill, pure_bind]
      simpa only [List.nil_append, bind_pure] using ih
    · rw [hmembers, hfill, compileNested, List.flatMap_cons, List.map_append]
      exact (fillEntry_stores rec parent ctx kv.2 key [key]).bind fun entry => ih.bind_pure _

/-! ## The counts -/

mutual

theorem length_entry (v : Value) (path : RString) (tokens : List RString) :
    (Position.entry parent ctx v path tokens).length = countEntry v := by
  cases v with
  | arr xs =>
    rw [Position.entry, countEntry]
    exact length_arrayEntries xs 0 path tokens
  | _ => rfl

theorem length_arrayEntries :
    ∀ (xs : List Value) (i : ℕ) (path : RString) (tokens : List RString),
      (Position.arrayEntries parent ctx xs i path tokens).length = countSchemaEntriesInArray xs
  | [], _, _, _ => rfl
  | v :: vs, i, path, tokens => by
    rw [Position.arrayEntries, countSchemaEntriesInArray, List.length_append, length_entry v,
      length_arrayEntries vs]

end

example : countSchemaEntriesInArray
    [.hash [], .arr [.bool true, .int 1, .arr [.hash [], .nil]], .arr []] = 3 := rfl

theorem foldl_countNested : ∀ (kvs : List (Value × Value)) (n : ℕ),
    kvs.foldl countNested n = n + (Position.nested parent ctx kvs).length
  | [], n => rfl
  | kv :: kvs, n => by
    have ih := foldl_countNested kvs
    rw [List.foldl_cons, ih, Position.nested, Position.nested]
    obtain ⟨hmembers, -, hcount⟩ | ⟨key, hmembers, -, hcount⟩ := member_cases parent ctx kv
    · rw [hmembers, hcount]
    · rw [hmembers, hcount, List.flatMap_cons, List.length_append, length_entry, Nat.add_assoc]

/-! ## The two passes together -/

/-- The addresses of the nested schemas, in the order of their stores. -/
def nestedAddrs (kvs : List (Value × Value)) : List Addr :=
  (Position.nested parent ctx kvs).map (·.addr)

theorem total_eq_length (kvs : List (Value × Value)) :
    kvs.foldl countNested 0 = (nestedAddrs parent ctx kvs).length := by
  rw [foldl_countNested parent ctx kvs 0, Nat.zero_add, nestedAddrs, List.length_map]

/-- The array of the parent after the pass. -/
def nestedBuffer (kvs : List (Value × Value)) : Buffer Addr :=
  ⟨(nestedAddrs parent ctx kvs).map some, (nestedAddrs parent ctx kvs).length⟩

theorem fillMembers_run (kvs : List (Value × Value)) (rd : RefData) :
    ((fillMembers rec parent ctx kvs).run (.alloc (kvs.foldl countNested 0))).run.run rd
      = (fun r => (some (r.1, nestedBuffer parent ctx kvs), r.2))
        <$> (compileNested rec parent ctx (unknownMembers kvs)).run rd := by
  rw [total_eq_length parent ctx kvs]
  exact fillMembers_stores rec parent ctx kvs _ _ rd (Buffer.storeAll_alloc _)

mutual

theorem compileEntry_of_countEntry_eq_zero (v : Value) (path : RString) (tokens : List RString)
    (h : countEntry v = 0) : compileEntry rec parent ctx v path tokens = pure [] := by
  cases v with
  | arr xs =>
    rw [compileEntry]
    rw [countEntry] at h
    exact compileArrayEntries_of_count_eq_zero xs 0 path tokens h
  | hash kvs => exact absurd h Nat.one_ne_zero
  | bool b => exact absurd h Nat.one_ne_zero
  | _ => rfl

theorem compileArrayEntries_of_count_eq_zero :
    ∀ (xs : List Value) (i : ℕ) (path : RString) (tokens : List RString),
      countSchemaEntriesInArray xs = 0 →
        compileArrayEntries rec parent ctx xs i path tokens = pure []
  | [], _, _, _, _ => rfl
  | v :: vs, i, path, tokens, h => by
    rw [countSchemaEntriesInArray] at h
    obtain ⟨hv, hvs⟩ := Nat.add_eq_zero_iff.1 h
    rw [compileArrayEntries, compileEntry_of_countEntry_eq_zero v _ _ hv, pure_bind,
      compileArrayEntries_of_count_eq_zero vs _ _ _ hvs, pure_bind, List.nil_append]

end

theorem compileNested_of_forall_countEntry : ∀ members : List (RString × Value),
    (∀ kv ∈ members, countEntry kv.2 = 0) → compileNested rec parent ctx members = pure []
  | [], _ => rfl
  | (key, v) :: members, h => by
    obtain ⟨hv, hmembers⟩ := List.forall_mem_cons.1 h
    rw [compileNested, compileEntry_of_countEntry_eq_zero rec parent ctx v _ _ hv, pure_bind,
      compileNested_of_forall_countEntry members hmembers, pure_bind, List.nil_append]

/-- Without entries there is nothing to compile. -/
theorem compileNested_of_total_eq_zero {kvs : List (Value × Value)}
    (h : kvs.foldl countNested 0 = 0) :
    compileNested rec parent ctx (unknownMembers kvs) = pure [] := by
  have hnil : Position.nested parent ctx kvs = [] := by
    rw [total_eq_length parent ctx kvs, nestedAddrs, List.length_map] at h
    exact List.length_eq_zero_iff.1 h
  refine compileNested_of_forall_countEntry rec parent ctx _ fun kv hkv => ?_
  rw [← length_entry parent ctx kv.2 kv.1 [kv.1], List.flatMap_eq_nil_iff.1 hnil kv hkv]
  rfl

/-- The function does what the loop without the array does, and leaves the array full. -/
theorem compileNestedSchemas_run (kvs : List (Value × Value)) (rd : RefData) :
    (compileNestedSchemas rec parent ctx (.hash kvs)).run.run rd
      = (fun r => (some (r.1, if kvs.foldl countNested 0 = 0 then none
          else some (nestedBuffer parent ctx kvs)), r.2))
        <$> (compileNested rec parent ctx (unknownMembers kvs)).run rd := by
  rw [compileNestedSchemas]
  by_cases htotal : kvs.foldl countNested 0 = 0
  · rw [if_pos htotal, if_pos htotal, compileNested_of_total_eq_zero rec parent ctx htotal]
    rfl
  · rw [if_neg htotal, if_neg htotal, OptionT.run_bind, Option.elimM, StateT.run_bind,
      fillMembers_run]
    cases (compileNested rec parent ctx (unknownMembers kvs)).run rd with
    | error e => rfl
    | ok r => rfl

/-- How a pass ends, when no compilation of a child raises. -/
theorem compileNestedSchemas_ends {kvs : List (Value × Value)} {rd rd' : RefData}
    {o : Option (List CompiledSchema × Option (Buffer Addr))}
    (h : (compileNestedSchemas rec parent ctx (.hash kvs)).run.run rd = .ok (o, rd')) :
    ∃ children, o = some (children,
      if kvs.foldl countNested 0 = 0 then none else some (nestedBuffer parent ctx kvs)) := by
  rw [compileNestedSchemas_run] at h
  cases hrun : (compileNested rec parent ctx (unknownMembers kvs)).run rd with
  | error e =>
    rw [hrun] at h
    cases h
  | ok r =>
    rw [hrun] at h
    cases h
    exact ⟨r.1, rfl⟩

theorem nestedBuffer_full (kvs : List (Value × Value)) :
    (nestedBuffer parent ctx kvs).count = kvs.foldl countNested 0
      ∧ (nestedBuffer parent ctx kvs).slots.length = kvs.foldl countNested 0
      ∧ none ∉ (nestedBuffer parent ctx kvs).slots := by
  rw [total_eq_length parent ctx kvs]
  refine ⟨rfl, List.length_map _, fun hmem => ?_⟩
  obtain ⟨a, -, ha⟩ := List.mem_map.1 hmem
  cases ha

/-- No store of the compiling pass is outside the array that the counting pass has sized, a pass
that ends has set every slot, and without entries there is neither an array nor a store. -/
theorem compileNestedSchemas_fills (kvs : List (Value × Value)) (rd : RefData) :
    (∀ rd', (compileNestedSchemas rec parent ctx (.hash kvs)).run.run rd ≠ .ok (none, rd'))
    ∧ (∀ children nested rd',
        (compileNestedSchemas rec parent ctx (.hash kvs)).run.run rd
            = .ok (some (children, some nested), rd') →
          nested.count = kvs.foldl countNested 0
            ∧ nested.slots.length = kvs.foldl countNested 0 ∧ none ∉ nested.slots)
    ∧ (∀ children rd',
        (compileNestedSchemas rec parent ctx (.hash kvs)).run.run rd
            = .ok (some (children, none), rd') →
          kvs.foldl countNested 0 = 0)
    ∧ (kvs.foldl countNested 0 = 0 →
        (compileNestedSchemas rec parent ctx (.hash kvs)).run.run rd
          = .ok (some ([], none), rd)) := by
  refine ⟨fun rd' h => ?_, fun children nested rd' h => ?_, fun children rd' h => ?_, fun h => ?_⟩
  · obtain ⟨_, ho⟩ := compileNestedSchemas_ends rec parent ctx h
    cases ho
  · obtain ⟨_, ho⟩ := compileNestedSchemas_ends rec parent ctx h
    split_ifs at ho
    · cases ho
    · cases ho
      exact nestedBuffer_full parent ctx kvs
  · obtain ⟨_, ho⟩ := compileNestedSchemas_ends rec parent ctx h
    split_ifs at ho with htotal
    · exact htotal
    · cases ho
  · rw [compileNestedSchemas, if_pos h]
    rfl

end Fill

end FastJsonSchema
