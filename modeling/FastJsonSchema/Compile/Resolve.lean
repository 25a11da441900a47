import FastJsonSchema.Compile.Emits

/-!
# The resolution of references

`resolve_refs` of `ref_resolver.c` sets the target of each `$ref` in the tree of a compiled schema,
and `compile_schema` compiles a document and resolves its references. When the document compiles,
each node of the result with a `$ref` points to what `refTarget` finds for it in the entries of the
positions of the document (`compileSchema_spec`).
-/

namespace FastJsonSchema

open Ruby

/-- The target of the `$ref` of a compiled schema: the entry of its resolved form, or else of its
literal form. -/
def refTarget (refData : RefData) (refVal resolvedRefVal : Option RString) :
    Except CompileError (Option Addr) :=
  match refVal with
  | none => .ok none
  | some ref =>
    let lookupKey := resolvedRefVal.getD ref
    match (refData.lookup (decodeRef lookupKey)).orElse
      (fun _ => if lookupKey ≠ ref then refData.lookup (decodeRef ref) else none) with
    | some a => .ok (some a)
    | none =>
      .error (if lookupKey ≠ ref then naming [ref, lookupKey] (.unresolvedRefTo ref lookupKey)
        else naming [ref] (.unresolvedRef ref))

section

variable (refData : RefData)

mutual

/-- `resolve_refs` -/
def resolveRefs : CompiledSchema → Except CompileError CompiledSchema
  | cs@{
      refVal, resolvedRefVal, ifSchema, thenSchema, elseSchema, notSchema, itemsSchema,
      additionalItemsSchema, containsSchema, propertyNamesSchema, additionalPropertiesSchema,
      allOfVal, anyOfVal, oneOfVal, itemsVal, propertiesVal, patternPropertiesVal,
      dependenciesVal, nestedSchemas, .. } => do
    let refSchema ← refTarget refData refVal resolvedRefVal
    let ifSchema ← resolveRefsOpt ifSchema
    let thenSchema ← resolveRefsOpt thenSchema
    let elseSchema ← resolveRefsOpt elseSchema
    let notSchema ← resolveRefsOpt notSchema
    let itemsSchema ← resolveRefsOpt itemsSchema
    let additionalItemsSchema ← resolveRefsOpt additionalItemsSchema
    let containsSchema ← resolveRefsOpt containsSchema
    let propertyNamesSchema ← resolveRefsOpt propertyNamesSchema
    let additionalPropertiesSchema ← resolveRefsOpt additionalPropertiesSchema
    let allOfVal ← resolveRefsInArray allOfVal
    let anyOfVal ← resolveRefsInArray anyOfVal
    let oneOfVal ← resolveRefsInArray oneOfVal
    let itemsVal ← resolveRefsInArray itemsVal
    let propertiesVal ← resolveRefsInHash propertiesVal
    let patternPropertiesVal ← resolveRefsInHash patternPropertiesVal
    let dependenciesVal ← resolveRefsInHash dependenciesVal
    let nestedSchemas ← resolveRefsList nestedSchemas
    pure { cs with
      refSchema, ifSchema, thenSchema, elseSchema, notSchema, itemsSchema, additionalItemsSchema,
      containsSchema, propertyNamesSchema, additionalPropertiesSchema, allOfVal, anyOfVal, oneOfVal,
      itemsVal, propertiesVal, patternPropertiesVal, dependenciesVal, nestedSchemas }

/-- A child, if there is one. -/
def resolveRefsOpt : Option CompiledSchema → Except CompileError (Option CompiledSchema)
  | none => .ok none
  | some cs => (resolveRefs cs).map some

/-- `resolve_refs_for_nested_schemas` -/
def resolveRefsList : List CompiledSchema → Except CompileError (List CompiledSchema)
  | [] => .ok []
  | cs :: rest => do
    let cs ← resolveRefs cs
    let rest ← resolveRefsList rest
    pure (cs :: rest)

/-- `resolve_refs_in_array` -/
def resolveRefsInArray :
    Option (List CompiledSchema) → Except CompileError (Option (List CompiledSchema))
  | none => .ok none
  | some css => (resolveRefsList css).map some

/-- The loop over `resolve_refs_in_hash`. -/
def resolveRefsEntries :
    List (RString × CompiledSchema) → Except CompileError (List (RString × CompiledSchema))
  | [] => .ok []
  | (key, cs) :: rest => do
    let cs ← resolveRefs cs
    let rest ← resolveRefsEntries rest
    pure ((key, cs) :: rest)

/-- `resolve_refs` on a map -/
def resolveRefsInHash : Option (List (RString × CompiledSchema)) →
    Except CompileError (Option (List (RString × CompiledSchema)))
  | none => .ok none
  | some m => (resolveRefsEntries m).map some

end

end

/-! ## The tree of a resolved schema -/

theorem bind_eq_ok {ε α β : Type} {x : Except ε α} {f : α → Except ε β} {b : β} :
    x >>= f = .ok b ↔ ∃ a, x = .ok a ∧ f a = .ok b := by
  cases x with
  | error e => simp [Bind.bind, Except.bind]
  | ok a => simp [Bind.bind, Except.bind]

theorem map_eq_ok {ε α β : Type} {x : Except ε α} {f : α → β} {b : β} :
    x.map f = .ok b ↔ ∃ a, x = .ok a ∧ f a = b := by
  cases x <;> simp [Except.map]

section Spec

variable {refData : RefData} {R R' : Position → CompiledSchema → Prop}
  (hR : ∀ q c c', R q c → resolveRefs refData c = .ok c' → R' q c')

include hR

theorem resolveRefsOpt_rel {q : Option Position} {o o' : Option CompiledSchema}
    (hq : Option.Rel R q o) (h : resolveRefsOpt refData o = .ok o') : Option.Rel R' q o' := by
  cases hq with
  | none =>
    obtain rfl := Except.ok.inj h
    exact .none
  | some hq =>
    obtain ⟨c', hc', rfl⟩ := map_eq_ok.1 h
    exact .some (hR _ _ _ hq hc')

theorem resolveRefsList_rel {qs : List Position} {css css' : List CompiledSchema}
    (hqs : List.Forall₂ R qs css) (h : resolveRefsList refData css = .ok css') :
    List.Forall₂ R' qs css' := by
  induction hqs generalizing css' with
  | nil =>
    obtain rfl := Except.ok.inj h
    exact .nil
  | cons hq _ ih =>
    rw [resolveRefsList] at h
    simp only [bind_eq_ok] at h
    obtain ⟨cs', hcs', rest', hrest', hcss⟩ := h
    obtain rfl := Except.ok.inj hcss
    exact .cons (hR _ _ _ hq hcs') (ih hrest')

theorem resolveRefsInArray_rel {qs : Option (List Position)} {o o' : Option (List CompiledSchema)}
    (hqs : Option.Rel (List.Forall₂ R) qs o) (h : resolveRefsInArray refData o = .ok o') :
    Option.Rel (List.Forall₂ R') qs o' := by
  cases hqs with
  | none =>
    obtain rfl := Except.ok.inj h
    exact .none
  | some hqs =>
    obtain ⟨css', hcss', rfl⟩ := map_eq_ok.1 h
    exact .some (resolveRefsList_rel hR hqs hcss')

theorem resolveRefsEntries_rel {qs : List (RString × Position)}
    {m m' : List (RString × CompiledSchema)} (hqs : List.Forall₂ (Applicators.Entry R) qs m)
    (h : resolveRefsEntries refData m = .ok m') : List.Forall₂ (Applicators.Entry R') qs m' := by
  induction hqs generalizing m' with
  | nil =>
    obtain rfl := Except.ok.inj h
    exact .nil
  | @cons q e qs rest hq _ ih =>
    obtain ⟨key, cs⟩ := e
    rw [resolveRefsEntries] at h
    simp only [bind_eq_ok] at h
    obtain ⟨cs', hcs', rest', hrest', hm⟩ := h
    obtain rfl := Except.ok.inj hm
    exact .cons ⟨hq.1, hR _ _ _ hq.2 hcs'⟩ (ih hrest')

theorem resolveRefsInHash_rel {qs : Option (List (RString × Position))}
    {o o' : Option (List (RString × CompiledSchema))}
    (hqs : Option.Rel (List.Forall₂ (Applicators.Entry R)) qs o)
    (h : resolveRefsInHash refData o = .ok o') :
    Option.Rel (List.Forall₂ (Applicators.Entry R')) qs o' := by
  cases hqs with
  | none =>
    obtain rfl := Except.ok.inj h
    exact .none
  | some hqs =>
    obtain ⟨m', hm', rfl⟩ := map_eq_ok.1 h
    exact .some (resolveRefsEntries_rel hR hqs hm')

/-- Resolution keeps what a node has of its own and sets its target. -/
theorem resolveRefs_assembled {rt : Runtime} {p : Position} {cs cs' : CompiledSchema}
    (hp : p.Assembled rt R cs) (h : resolveRefs refData cs = .ok cs') :
    refTarget refData cs.refVal cs.resolvedRefVal = .ok cs'.refSchema ∧ p.Assembled rt R' cs' := by
  obtain ⟨hown, happ, hnested, hpat⟩ := hp
  cases cs
  rw [resolveRefs] at h
  simp only [bind_eq_ok] at h
  obtain ⟨target, htarget, ifSchema', h₁, thenSchema', h₂, elseSchema', h₃, notSchema', h₄,
    itemsSchema', h₅, additionalItemsSchema', h₆, containsSchema', h₇, propertyNamesSchema', h₈,
    additionalPropertiesSchema', h₉, allOfVal', h₁₀, anyOfVal', h₁₁, oneOfVal', h₁₂, itemsVal',
    h₁₃, propertiesVal', h₁₄, patternPropertiesVal', h₁₅, dependenciesVal', h₁₆, nestedSchemas',
    h₁₇, hcs⟩ := h
  obtain rfl := Except.ok.inj hcs
  refine ⟨htarget, hown, ?_, resolveRefsList_rel hR hnested h₁₇, hpat⟩
  exact {
    ifSchema := resolveRefsOpt_rel hR happ.ifSchema h₁
    thenSchema := resolveRefsOpt_rel hR happ.thenSchema h₂
    elseSchema := resolveRefsOpt_rel hR happ.elseSchema h₃
    notSchema := resolveRefsOpt_rel hR happ.notSchema h₄
    allOf := resolveRefsInArray_rel hR happ.allOf h₁₀
    anyOf := resolveRefsInArray_rel hR happ.anyOf h₁₁
    oneOf := resolveRefsInArray_rel hR happ.oneOf h₁₂
    items := resolveRefsOpt_rel hR happ.items h₅
    itemsList := resolveRefsInArray_rel hR happ.itemsList h₁₃
    additionalItems := resolveRefsOpt_rel hR happ.additionalItems h₆
    contains := resolveRefsOpt_rel hR happ.contains h₇
    propertyNames := resolveRefsOpt_rel hR happ.propertyNames h₈
    properties := resolveRefsInHash_rel hR happ.properties h₁₄
    patternProperties := resolveRefsInHash_rel hR happ.patternProperties h₁₅
    additionalProperties := resolveRefsOpt_rel hR happ.additionalProperties h₉
    dependencies := resolveRefsInHash_rel hR happ.dependencies h₁₆ }

end Spec

section Built

variable {rt : Runtime} {p : Position} {c : CompiledSchema} {refData : RefData}
  {T : Position → CompiledSchema → Prop}

/-- The target of the `$ref` of a position, in the entries of its document. -/
def Position.target (rt : Runtime) (refData : RefData) (p : Position) :
    Except CompileError (Option Addr) :=
  refTarget refData (p.resolved rt).1.refVal (p.resolved rt).1.resolvedRefVal

theorem Position.Assembled.matches {R : Position → CompiledSchema → Prop}
    (h : p.Assembled rt R c) : p.Matches rt c := by
  have hown := h.own
  unfold Position.own at hown
  have hleaf : p.members = [] → ∀ f : ValidationFunction,
      { CompiledSchema.create p.addr p.path with validationFunction := some f } = c.own →
        p.Matches rt c := by
    intro hm f hc
    have hproj : ∀ {α : Type} (g : CompiledSchema → α), g c.own = g _ := fun g =>
      congrArg g hc.symm
    refine ⟨hproj (·.addr), hproj (·.path), ?_, ?_⟩
    · rw [Position.resolved_refVal, hm]
      exact hproj (·.refVal)
    · rw [Position.resolved_resolvedRefVal, hm]
      exact hproj (·.resolvedRefVal)
  split at hown
  next hv => exact hleaf (by rw [Position.members, hv]) _ (Except.ok.inj hown)
  next kv kvs hv =>
    obtain ⟨format, -, htype⟩ := bind_eq_ok.1 hown
    obtain ⟨type, -, hc⟩ := bind_eq_ok.1 htype
    have hproj : ∀ {α : Type} (g : CompiledSchema → α), g c.own = g _ := fun g =>
      congrArg g (Except.ok.inj hc).symm
    exact ⟨(hproj (·.addr)).trans (Position.resolved_addr p),
      (hproj (·.path)).trans (Position.resolved_path p), hproj (·.refVal),
      hproj (·.resolvedRefVal)⟩
  next _ hv =>
    refine hleaf ?_ _ (Except.ok.inj hown)
    unfold Position.members
    split
    next kvs hkvs =>
      cases kvs with
      | nil => rfl
      | cons kv kvs => exact absurd hkvs (hv kv kvs)
    next => rfl

/-- **Resolution builds the same tree**, each node with the target of its position. -/
theorem resolveRefs_built {n : ℕ} : ∀ {p : Position} {c c' : CompiledSchema}, p.Built rt T n c →
    resolveRefs refData c = .ok c' →
      p.Built rt (fun p c => p.target rt refData = .ok c.refSchema) n c' := by
  induction n with
  | zero => exact fun h _ => h.elim
  | succ n ih =>
    intro p c c' h hc
    obtain ⟨htarget, hassembled⟩ :=
      resolveRefs_assembled (R := Position.Built rt T n) (fun _ _ _ => ih) h.2 hc
    refine ⟨?_, hassembled⟩
    show refTarget refData (p.resolved rt).1.refVal (p.resolved rt).1.resolvedRefVal = _
    rw [← h.2.matches.refVal, ← h.2.matches.resolvedRefVal]
    exact htarget

theorem Position.Built.matches {n : ℕ} (h : p.Built rt T n c) : p.Matches rt c := by
  cases n with
  | zero => exact h.elim
  | succ n => exact h.2.matches

theorem Position.Built.own {n : ℕ} (h : p.Built rt T n c) : p.own rt = .ok c.own := by
  cases n with
  | zero => exact h.elim
  | succ n => exact h.2.own

theorem Position.Built.prop {n : ℕ} (h : p.Built rt T n c) : T p c := by
  cases n with
  | zero => exact h.elim
  | succ n => exact h.1

theorem Position.Built.covers {n : ℕ} (h : p.Built rt T n c) :
    Position.Covers rt (p.positions rt n) c := by
  constructor
  · intro c' hc'
    obtain ⟨m, p', hp', hb⟩ := h.of_reach hc'
    exact ⟨p', hp', hb.matches⟩
  · intro p' hp'
    obtain ⟨m, c', hc', hb⟩ := h.of_mem hp'
    exact ⟨c', hc', hb.matches⟩

end Built

/-! ## Documents -/

/-- The position of the document. -/
def rootPosition (doc : Value) (customFormats : Option (List (RString × ℕ))) : Position :=
  ⟨[], rootPathStr, doc, ⟨customFormats, none, none⟩⟩

/-- The first pass of `compile_schema`: the compiled schema and the reference table. -/
def compileDocument (rt : Runtime) (customFormats : Option (List (RString × ℕ))) (doc : Value) :
    Except CompileError (CompiledSchema × RefData) :=
  compile rt (doc.nesting + 1) (.create [] rootPathStr) doc ⟨customFormats, none, none⟩ []

/-- `compile_schema` -/
def compileSchema (rt : Runtime) (customFormats : Option (List (RString × ℕ))) (doc : Value) :
    Except CompileError CompiledSchema := do
  let (root, refData) ← compileDocument rt customFormats doc
  resolveRefs refData root

/-- The positions of a document. -/
def positionsOf (rt : Runtime) (customFormats : Option (List (RString × ℕ))) (doc : Value) :
    List Position :=
  (rootPosition doc customFormats).positions rt (doc.nesting + 1)

/-- The entries of a document, the oldest first. -/
def keysOf (rt : Runtime) (customFormats : Option (List (RString × ℕ))) (doc : Value) : RefData :=
  (positionsOf rt customFormats doc).flatMap (Position.keys rt)

section Documents

variable {rt : Runtime} {customFormats : Option (List (RString × ℕ))} {doc : Value}

/-- The first pass of a document: its entries, and the tree built from its positions. -/
theorem compileDocument_built {root : CompiledSchema} {refData : RefData}
    (h : compileDocument rt customFormats doc = .ok (root, refData)) :
    refData = (keysOf rt customFormats doc).reverse ∧
      (rootPosition doc customFormats).Built rt (fun _ c => c.refSchema = none) (doc.nesting + 1)
        root := by
  have hemits := compile_emits rt (doc.nesting + 1) (rootPosition doc customFormats) []
  rw [show compile rt (doc.nesting + 1) (.create (rootPosition doc customFormats).addr
    (rootPosition doc customFormats).path) (rootPosition doc customFormats).value
      (rootPosition doc customFormats).ctx [] = .ok (root, refData) from h] at hemits
  obtain ⟨hkeys, hbuilt⟩ := hemits
  exact ⟨by rw [hkeys, List.append_nil]; rfl, hbuilt⟩

/-- The first pass of a document: its entries, and a tree with a node for each position. -/
theorem compileDocument_spec {root : CompiledSchema} {refData : RefData}
    (h : compileDocument rt customFormats doc = .ok (root, refData)) :
    refData = (keysOf rt customFormats doc).reverse ∧
      Position.Covers rt (positionsOf rt customFormats doc) root :=
  ⟨(compileDocument_built h).1, (compileDocument_built h).2.covers⟩

/-- **No document runs out of fuel.** -/
theorem compileDocument_ne_starved : compileDocument rt customFormats doc ≠ .error .starved := by
  intro h
  have hemits := compile_emits rt (doc.nesting + 1) (rootPosition doc customFormats) []
  rw [show compile rt (doc.nesting + 1) (.create (rootPosition doc customFormats).addr
    (rootPosition doc customFormats).path) (rootPosition doc customFormats).value
      (rootPosition doc customFormats).ctx [] = .error .starved from h] at hemits
  exact hemits (Nat.lt_succ_self _) rfl

/-- **The tree of a compiled document** is built from its positions, each node with the target of
its position. -/
theorem compileSchema_built {root : CompiledSchema}
    (h : compileSchema rt customFormats doc = .ok root) :
    (rootPosition doc customFormats).Built rt
      (fun p c => p.target rt (keysOf rt customFormats doc).reverse = .ok c.refSchema)
        (doc.nesting + 1) root := by
  obtain ⟨⟨root₀, refData⟩, hdoc, hres⟩ := bind_eq_ok.1 h
  obtain ⟨rfl, hbuilt⟩ := compileDocument_built hdoc
  exact resolveRefs_built hbuilt hres

/-- **The nodes of a compiled document** are those of its positions, each with the target of its
position. -/
theorem compileSchema_spec {root : CompiledSchema}
    (h : compileSchema rt customFormats doc = .ok root) :
    ∀ c, root.Reach c → ∃ p ∈ positionsOf rt customFormats doc, p.Matches rt c ∧
      p.target rt (keysOf rt customFormats doc).reverse = .ok c.refSchema := by
  intro c hc
  obtain ⟨m, p, hp, hb⟩ := (compileSchema_built h).of_reach hc
  exact ⟨p, hp, hb.matches, hb.prop⟩

end Documents

end FastJsonSchema
