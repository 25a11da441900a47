import FastJsonSchema.Compile.Places
import FastJsonSchema.Traversal.Raises

/-!
# The errors of a compilation

Both passes of `compile_schema` stop at the first error. `faultsOf` lists what the first pass finds
wrong with the positions of a document, in the order in which it goes through them: a position after
the positions below it, and a pattern after the schema under it. `unresolvedOf` lists the references
without a target, each position before those below it. `compile_schema` raises the first error of
the two lists, and a document compiles when both are empty (`compileSchema_first`).
-/

namespace FastJsonSchema

open Ruby Traversal

namespace Position

section Faults

variable (rt : Runtime) (F : Position → List CompileError)

/-- The errors of a position itself: of its format and of its type. -/
def ownFaults (p : Position) : List CompileError :=
  errorOf (formatFields (p.resolved rt).2.customFormats (Value.aref p.members formatStr))
    ++ errorOf (typeValidationFunction p.members)

/-- The errors below a position, in the order of the first pass, given those of each position. -/
def faultsBelow (a : Applicators Position) (nested : List Position) : List CompileError :=
  a.ifSchema.toList.flatMap F ++ a.thenSchema.toList.flatMap F ++ a.elseSchema.toList.flatMap F
    ++ (a.allOf.getD []).flatMap F ++ (a.anyOf.getD []).flatMap F ++ (a.oneOf.getD []).flatMap F
    ++ a.notSchema.toList.flatMap F ++ a.items.toList.flatMap F ++ (a.itemsList.getD []).flatMap F
    ++ a.additionalItems.toList.flatMap F ++ a.contains.toList.flatMap F
    ++ a.propertyNames.toList.flatMap F ++ a.additionalProperties.toList.flatMap F
    ++ (a.properties.getD []).flatMap (fun e => F e.2)
    ++ (a.patternProperties.getD []).flatMap (fun e =>
      F e.2 ++ if rt.validRegexp e.1 then [] else [.regexpError])
    ++ (a.dependencies.getD []).flatMap (fun e => F e.2) ++ nested.flatMap F

/-- What the first pass finds wrong at and below a position. -/
def faults : ℕ → Position → List CompileError
  | 0, _ => []
  | n + 1, p => faultsBelow rt (faults n) (p.applicators rt) (p.nestedPositions rt)
      ++ p.ownFaults rt

/-- The errors below a position, in the order of the second pass. -/
def unresolvedBelow (a : Applicators Position) (nested : List Position) : List CompileError :=
  a.ifSchema.toList.flatMap F ++ a.thenSchema.toList.flatMap F ++ a.elseSchema.toList.flatMap F
    ++ a.notSchema.toList.flatMap F ++ a.items.toList.flatMap F
    ++ a.additionalItems.toList.flatMap F ++ a.contains.toList.flatMap F
    ++ a.propertyNames.toList.flatMap F ++ a.additionalProperties.toList.flatMap F
    ++ (a.allOf.getD []).flatMap F ++ (a.anyOf.getD []).flatMap F ++ (a.oneOf.getD []).flatMap F
    ++ (a.itemsList.getD []).flatMap F ++ (a.properties.getD []).flatMap (fun e => F e.2)
    ++ (a.patternProperties.getD []).flatMap (fun e => F e.2)
    ++ (a.dependencies.getD []).flatMap (fun e => F e.2) ++ nested.flatMap F

/-- The references at and below a position that the second pass does not resolve. -/
def unresolved (refData : RefData) : ℕ → Position → List CompileError
  | 0, _ => []
  | n + 1, p => errorOf (p.target rt refData)
      ++ unresolvedBelow (unresolved refData n) (p.applicators rt) (p.nestedPositions rt)

/-- The first pass rejects a position for its format, its type or one of its patterns. -/
inductive Rejects (p : Position) (e : CompileError) : Prop
  | format (h : formatFields (p.resolved rt).2.customFormats (Value.aref p.members formatStr)
      = .error e)
  | type (h : typeValidationFunction p.members = .error e)
  | pattern (h : ¬ p.ValidPatterns rt) (he : e = .regexpError)

/-- A position without members is a leaf. -/
theorem faults_leaf {n : ℕ} {p : Position} (hp : p.members = []) : p.faults rt (n + 1) = [] := by
  have hone : ∀ parent ctx keyword, one parent [] ctx keyword = none := fun _ _ _ => rfl
  have hmany : ∀ parent ctx keyword, many parent [] ctx keyword = none := fun _ _ _ => rfl
  have hnamed : ∀ parent ctx keyword value, named parent [] ctx keyword value = none :=
    fun _ _ _ _ => rfl
  have hnested : ∀ parent ctx, nested parent ctx [] = [] := fun _ _ => rfl
  have hbelow : faultsBelow rt (faults rt n) (p.applicators rt) (p.nestedPositions rt) = [] := by
    rw [applicators, nestedPositions, hp]
    simp only [faultsBelow, applicatorsOf, hone, hmany, hnamed, hnested, Option.toList_none,
      Option.getD_none, List.flatMap_nil, List.append_nil]
  have hown : p.ownFaults rt = [] := by
    rw [ownFaults, hp]
    rfl
  rw [faults, hbelow, hown, List.append_nil]

/-! ## The errors in the lists -/

variable {rt F} {a : Applicators Position} {nested : List Position} {e : CompileError}

theorem mem_faultsBelow : e ∈ faultsBelow rt F a nested ↔
    (∃ q ∈ a.members ++ nested, e ∈ F q) ∨
      ∃ x ∈ a.patternProperties.getD [], rt.validRegexp x.1 = false ∧ e = .regexpError := by
  have hpattern : ∀ x : RString × Position,
      e ∈ (if rt.validRegexp x.1 then [] else [CompileError.regexpError]) ↔
        rt.validRegexp x.1 = false ∧ e = .regexpError := by
    intro x
    cases hx : rt.validRegexp x.1 with
    | true => simp
    | false => simp
  simp only [faultsBelow, Applicators.members, List.mem_append, List.mem_flatMap, List.mem_map,
    hpattern, or_and_right, exists_or, and_or_left, exists_exists_and_eq_and]
  apply iff_of_eq
  ac_rfl

theorem mem_unresolvedBelow : e ∈ unresolvedBelow F a nested ↔
    ∃ q ∈ a.members ++ nested, e ∈ F q := by
  simp only [unresolvedBelow, Applicators.members, List.mem_append, List.mem_flatMap,
    List.mem_map, or_and_right, exists_or, exists_exists_and_eq_and]
  apply iff_of_eq
  ac_rfl

theorem exists_mem_positions {P : Position → Prop} {n : ℕ} {p : Position} :
    (∃ q ∈ p.positions rt (n + 1), P q) ↔
      P p ∨ ∃ c ∈ p.children rt, ∃ q ∈ c.positions rt n, P q := by
  simp only [positions, List.mem_cons, exists_eq_or_imp, List.mem_flatMap]
  refine or_congr_right ?_
  constructor
  · rintro ⟨q, ⟨c, hc, hq⟩, h⟩
    exact ⟨c, hc, q, hq, h⟩
  · rintro ⟨c, hc, q, hq, h⟩
    exact ⟨q, ⟨c, hc, hq⟩, h⟩

/-- The first pass finds what positions are rejected for. -/
theorem mem_faults {n : ℕ} {p : Position} : e ∈ p.faults rt n ↔
    ∃ q ∈ p.positions rt n, q.Rejects rt e := by
  induction n generalizing p with
  | zero => exact iff_of_false List.not_mem_nil fun ⟨_, h, _⟩ => absurd h List.not_mem_nil
  | succ n ih =>
    have hself : (∃ x ∈ (p.applicators rt).patternProperties.getD [],
        rt.validRegexp x.1 = false ∧ e = .regexpError) ∨ e ∈ p.ownFaults rt ↔ p.Rejects rt e := by
      rw [ownFaults, List.mem_append, mem_errorOf, mem_errorOf]
      constructor
      · rintro (⟨x, hx, hv, he⟩ | h | h)
        · exact .pattern (fun h => absurd (h x hx) (by rw [hv]; exact Bool.false_ne_true)) he
        · exact .format h
        · exact .type h
      · intro h
        cases h with
        | format h => exact .inr (.inl h)
        | type h => exact .inr (.inr h)
        | pattern h he =>
          simp only [ValidPatterns, not_forall, Bool.not_eq_true] at h
          obtain ⟨x, hx, hv⟩ := h
          exact .inl ⟨x, hx, hv, he⟩
    rw [faults, List.mem_append, mem_faultsBelow, or_assoc, hself, ← children_eq, or_comm,
      exists_mem_positions]
    simp only [ih]

/-- The second pass finds the references of positions without a target. -/
theorem mem_unresolved {refData : RefData} {n : ℕ} {p : Position} :
    e ∈ p.unresolved rt refData n ↔ ∃ q ∈ p.positions rt n, q.target rt refData = .error e := by
  induction n generalizing p with
  | zero => exact iff_of_false List.not_mem_nil fun ⟨_, h, _⟩ => absurd h List.not_mem_nil
  | succ n ih =>
    rw [unresolved, List.mem_append, mem_errorOf, mem_unresolvedBelow, ← children_eq,
      exists_mem_positions]
    simp only [ih]

end Faults

end Position

/-! ## The first pass -/

section Compile

variable {rec : CompileCall} {parent : CompiledSchema} {kvs : List (Value × Value)}
  {ctx : CompileContext} {keyword : RString} {G : Position → Prop}
  {F : Position → List CompileError}
  (hrec : ∀ p, G p → Raises (rec (.create p.addr p.path) p.value p.ctx) (F p))

include hrec

theorem assignSchema_raises (h : ∀ p ∈ (Position.one parent kvs ctx keyword).toList, G p) :
    Raises (assignSchema rec parent kvs ctx keyword)
      ((Position.one parent kvs ctx keyword).toList.flatMap F) := by
  unfold assignSchema
  unfold Position.one at h ⊢
  dsimp only at h ⊢
  split_ifs with hshape
  · rw [if_pos hshape] at h
    rw [Option.toList_some, List.flatMap_singleton]
    exact (hrec _ (h _ (List.mem_singleton_self _))).map
  · exact .pure _

theorem compileElements_raises : ∀ (xs : List Value) (i : ℕ),
    (∀ p ∈ Position.elements parent ctx keyword i xs, G p) →
      Raises (compileElements rec parent ctx keyword i xs)
        ((Position.elements parent ctx keyword i xs).flatMap F)
  | [], i, _ => by
    rw [compileElements]
    exact .pure _
  | v :: vs, i, h => by
    rw [compileElements]
    rw [Position.elements] at h ⊢
    obtain ⟨hv, hvs⟩ := List.forall_mem_cons.1 h
    rw [List.flatMap_cons]
    exact (hrec _ hv).bind fun child => (compileElements_raises vs (i + 1) hvs).bind_pure

theorem assignSchemaCollection_raises
    (h : ∀ p ∈ (Position.many parent kvs ctx keyword).getD [], G p) :
    Raises (assignSchemaCollection rec parent kvs ctx keyword)
      (((Position.many parent kvs ctx keyword).getD []).flatMap F) := by
  unfold assignSchemaCollection
  unfold Position.many at h ⊢
  cases hv : Value.aref kvs keyword with
  | arr xs =>
    rw [hv] at h
    exact (compileElements_raises hrec xs 0 h).map
  | _ => exact .pure _

theorem compileMembers_raises (value : Value → Value) (validKey : RString → Bool) :
    ∀ members : List (RString × Value),
      (∀ kv ∈ members, G (Position.member parent ctx keyword value kv)) →
        Raises (compileMembers rec parent ctx keyword value validKey members)
          (members.flatMap fun kv => F (Position.member parent ctx keyword value kv)
            ++ if validKey kv.1 then [] else [.regexpError])
  | [], _ => by
    rw [compileMembers]
    exact .pure _
  | (key, v) :: members, h => by
    obtain ⟨hv, hmembers⟩ := List.forall_mem_cons.1 h
    rw [compileMembers, List.flatMap_cons, List.append_assoc]
    refine (hrec _ hv).bind fun child => ?_
    by_cases hkey : validKey key = true
    · rw [if_pos hkey, if_pos hkey, List.nil_append]
      exact (compileMembers_raises value validKey members hmembers).bind_pure
    · rw [if_neg hkey, if_neg hkey]
      exact .throw _ _

theorem compileProperties_raises (value : Value → Value) (validKey : RString → Bool)
    (h : ∀ p ∈ (Position.named parent kvs ctx keyword value).getD [], G p.2) :
    Raises (compileProperties rec parent kvs ctx keyword value validKey)
      (((Position.named parent kvs ctx keyword value).getD []).flatMap fun e =>
        F e.2 ++ if validKey e.1 then [] else [.regexpError]) := by
  unfold compileProperties
  unfold Position.named at h ⊢
  cases hv : Value.aref kvs keyword with
  | hash members =>
    rw [hv] at h
    rw [Option.getD_some, List.flatMap_map]
    refine (compileMembers_raises hrec value validKey _ fun kv hkv => ?_).map
    exact h (kv.1, _) (List.mem_map_of_mem hkv)
  | _ => exact .pure _

/-- The properties of a keyword whose keys are all valid. -/
theorem compileProperties_raises_children (value : Value → Value)
    (h : ∀ p ∈ ((Position.named parent kvs ctx keyword value).getD []).map (·.2), G p) :
    Raises (compileProperties rec parent kvs ctx keyword value fun _ => true)
      (((Position.named parent kvs ctx keyword value).getD []).flatMap fun e => F e.2) := by
  have hfaults := compileProperties_raises hrec value (fun _ => true) fun e he =>
    h e.2 (List.mem_map_of_mem he)
  simpa only [if_true, List.append_nil] using hfaults

end Compile

section Nested

variable {rec : CompileCall} {parent : CompiledSchema} {ctx : CompileContext}
  {G : Position → Prop} {F : Position → List CompileError}

mutual

theorem compileEntry_raises
    (hrec : ∀ p, G p → Raises (rec (.create p.addr p.path) p.value p.ctx) (F p)) :
    ∀ (v : Value) (path : RString) (tokens : List RString),
    (∀ p ∈ Position.entry parent ctx v path tokens, G p) →
      Raises (compileEntry rec parent ctx v path tokens)
        ((Position.entry parent ctx v path tokens).flatMap F)
  | .arr xs, path, tokens, h => by
    rw [compileEntry]
    rw [Position.entry] at h ⊢
    exact compileArrayEntries_raises hrec xs 0 path tokens h
  | .hash kvs, path, tokens, h => by
    rw [compileEntry]
    rw [Position.entry] at h ⊢
    rw [List.flatMap_singleton]
    exact (hrec _ (h _ (List.mem_singleton_self _))).map
  | .bool b, path, tokens, h => by
    rw [compileEntry]
    rw [Position.entry] at h ⊢
    rw [List.flatMap_singleton]
    exact (hrec _ (h _ (List.mem_singleton_self _))).map
  | .nil, _, _, _ | .int _, _, _, _ | .float _, _, _, _ | .str _, _, _, _ | .other _, _, _, _ => by
    rw [compileEntry]
    · exact .pure _
    all_goals simp

theorem compileArrayEntries_raises
    (hrec : ∀ p, G p → Raises (rec (.create p.addr p.path) p.value p.ctx) (F p)) :
    ∀ (xs : List Value) (i : ℕ) (path : RString) (tokens : List RString),
      (∀ p ∈ Position.arrayEntries parent ctx xs i path tokens, G p) →
        Raises (compileArrayEntries rec parent ctx xs i path tokens)
          ((Position.arrayEntries parent ctx xs i path tokens).flatMap F)
  | [], _, _, _, _ => by
    rw [compileArrayEntries]
    exact .pure _
  | v :: vs, i, path, tokens, h => by
    rw [compileArrayEntries]
    rw [Position.arrayEntries] at h ⊢
    obtain ⟨hv, hvs⟩ := List.forall_mem_append.1 h
    rw [List.flatMap_append]
    exact (compileEntry_raises hrec v _ _ hv).bind fun entry =>
      (compileArrayEntries_raises hrec vs (i + 1) path tokens hvs).bind_pure

end

theorem compileNested_raises
    (hrec : ∀ p, G p → Raises (rec (.create p.addr p.path) p.value p.ctx) (F p)) :
    ∀ members : List (RString × Value),
      (∀ p ∈ members.flatMap fun kv => Position.entry parent ctx kv.2 kv.1 [kv.1], G p) →
        Raises (compileNested rec parent ctx members)
          ((members.flatMap fun kv => Position.entry parent ctx kv.2 kv.1 [kv.1]).flatMap F)
  | [], _ => by
    rw [compileNested]
    exact .pure _
  | (key, v) :: members, h => by
    rw [compileNested]
    rw [List.flatMap_cons] at h ⊢
    obtain ⟨hv, hmembers⟩ := List.forall_mem_append.1 h
    rw [List.flatMap_append]
    exact (compileEntry_raises hrec v _ _ hv).bind fun entry =>
      (compileNested_raises hrec members hmembers).bind_pure

end Nested

section Keywords

variable {rt : Runtime} {rec : CompileCall} {G : Position → Prop}
  {F : Position → List CompileError}
  (hrec : ∀ p, G p → Raises (rec (.create p.addr p.path) p.value p.ctx) (F p))

include hrec

theorem compileKeywords_raises {p : Position}
    (h : ∀ q ∈ (p.applicators rt).members ++ p.nestedPositions rt, G q) :
    Raises (compileKeywords rt rec (p.resolved rt).1 p.members (p.resolved rt).2)
      (Position.faultsBelow rt F (p.applicators rt) (p.nestedPositions rt) ++ p.ownFaults rt) := by
  simp only [Applicators.members, Position.applicators, Position.applicatorsOf,
    List.append_assoc, List.forall_mem_append] at h
  obtain ⟨h₁, h₂, h₃, h₄, h₅, h₆, h₇, h₈, h₉, h₁₀, h₁₁, h₁₂, h₁₃, h₁₄, h₁₅, h₁₆, h₁₇⟩ := h
  unfold compileKeywords Position.faultsBelow Position.ownFaults Position.applicators
    Position.applicatorsOf
  simp only [List.append_assoc]
  refine (assignSchema_raises hrec h₁).bind fun ifSchema => ?_
  refine (assignSchema_raises hrec h₂).bind fun thenSchema => ?_
  refine (assignSchema_raises hrec h₃).bind fun elseSchema => ?_
  refine (assignSchemaCollection_raises hrec h₄).bind fun allOfVal => ?_
  refine (assignSchemaCollection_raises hrec h₅).bind fun anyOfVal => ?_
  refine (assignSchemaCollection_raises hrec h₆).bind fun oneOfVal => ?_
  refine (assignSchema_raises hrec h₇).bind fun notSchema => ?_
  refine (assignSchema_raises hrec h₈).bind fun itemsSchema => ?_
  refine (assignSchemaCollection_raises hrec h₉).bind fun itemsVal => ?_
  refine (assignSchema_raises hrec h₁₀).bind fun additionalItemsSchema => ?_
  refine (assignSchema_raises hrec h₁₁).bind fun containsSchema => ?_
  refine (assignSchema_raises hrec h₁₂).bind fun propertyNamesSchema => ?_
  refine (assignSchema_raises hrec h₁₃).bind fun additionalPropertiesSchema => ?_
  refine (compileProperties_raises_children hrec _ h₁₄).bind fun propertiesVal => ?_
  refine (compileProperties_raises hrec _ _ fun e he =>
    h₁₅ e.2 (List.mem_map_of_mem he)).bind fun patternPropertiesVal => ?_
  refine (compileProperties_raises_children hrec _ h₁₆).bind fun dependenciesVal => ?_
  refine (compileNested_raises hrec _ h₁₇).bind fun nestedSchemas => ?_
  exact (Raises.lift _).bind fun format => (Raises.lift _).bind_pure

end Keywords

/-- **The errors of the first pass** at and below a position. -/
theorem compile_raises {rt : Runtime} {n : ℕ} : ∀ {p : Position}, p.value.nesting < n →
    Raises (compile rt n (.create p.addr p.path) p.value p.ctx) (p.faults rt n) := by
  induction n with
  | zero => exact fun h => absurd h (Nat.not_lt_zero _)
  | succ n ih =>
    intro p hn
    have hchildren : ∀ q ∈ (p.applicators rt).members ++ p.nestedPositions rt,
        q.value.nesting < n := fun q hq =>
      (Position.nesting_children (Position.children_eq rt p ▸ hq)).trans_le
        (Nat.lt_succ_iff.1 hn)
    have hrec : ∀ q : Position, q.value.nesting < n →
        Raises (compile rt n (.create q.addr q.path) q.value q.ctx) (q.faults rt n) :=
      fun q hq => ih hq
    have hkeywords := @compileKeywords_raises rt (compile rt n) _ _ hrec p hchildren
    rw [← Position.faults] at hkeywords
    have hregister : ∀ {ws : RefData} {m : CompileM CompiledSchema} {es : List CompileError},
        Raises m es → Raises (register ws >>= fun _ => m) es := fun h s => h _
    have hleaf : p.members = [] → p.faults rt (n + 1) = [] := Position.faults_leaf rt
    generalize p.faults rt (n + 1) = es at hkeywords hleaf
    obtain ⟨addr, path, value, ctx⟩ := p
    cases value with
    | bool b =>
      rw [hleaf rfl]
      cases b <;> exact hregister (.pure _)
    | hash kvs =>
      cases kvs with
      | nil =>
        rw [hleaf rfl]
        exact hregister (.pure _)
      | cons kv kvs => exact hregister (hregister hkeywords)
    | _ =>
      rw [hleaf rfl]
      exact hregister (.pure _)

/-! ## The second pass -/

section Resolve

variable {refData : RefData} {R : Position → CompiledSchema → Prop}
  {F : Position → List CompileError} (hR : ∀ q c, R q c → First (resolveRefs refData c) (F q))

include hR

theorem resolveRefsOpt_first {q : Option Position} {o : Option CompiledSchema}
    (hq : Option.Rel R q o) : First (resolveRefsOpt refData o) (q.toList.flatMap F) := by
  cases hq with
  | none => exact .ok none
  | some hq =>
    rw [Option.toList_some, List.flatMap_singleton]
    exact (hR _ _ hq).map

theorem resolveRefsList_first {qs : List Position} {css : List CompiledSchema}
    (hqs : List.Forall₂ R qs css) : First (resolveRefsList refData css) (qs.flatMap F) := by
  induction hqs with
  | nil => exact .ok []
  | cons hq _ ih =>
    rw [resolveRefsList, List.flatMap_cons]
    exact (hR _ _ hq).bind fun c _ => ih.bind_pure

theorem resolveRefsInArray_first {qs : Option (List Position)} {o : Option (List CompiledSchema)}
    (hqs : Option.Rel (List.Forall₂ R) qs o) :
    First (resolveRefsInArray refData o) ((qs.getD []).flatMap F) := by
  cases hqs with
  | none => exact .ok none
  | some hqs => exact (resolveRefsList_first hR hqs).map

theorem resolveRefsEntries_first {qs : List (RString × Position)}
    {m : List (RString × CompiledSchema)} (hqs : List.Forall₂ (Applicators.Entry R) qs m) :
    First (resolveRefsEntries refData m) (qs.flatMap fun e => F e.2) := by
  induction hqs with
  | nil => exact .ok []
  | @cons q e qs rest hq _ ih =>
    obtain ⟨key, cs⟩ := e
    rw [resolveRefsEntries, List.flatMap_cons]
    exact (hR _ _ hq.2).bind fun c _ => ih.bind_pure

theorem resolveRefsInHash_first {qs : Option (List (RString × Position))}
    {o : Option (List (RString × CompiledSchema))}
    (hqs : Option.Rel (List.Forall₂ (Applicators.Entry R)) qs o) :
    First (resolveRefsInHash refData o) ((qs.getD []).flatMap fun e => F e.2) := by
  cases hqs with
  | none => exact .ok none
  | some hqs => exact (resolveRefsEntries_first hR hqs).map

/-- The errors of a node: its own reference, and those of its children. -/
theorem resolveRefs_assembled_first {rt : Runtime} {p : Position} {cs : CompiledSchema}
    (hp : p.Assembled rt R cs) : First (resolveRefs refData cs) (errorOf (p.target rt refData)
      ++ Position.unresolvedBelow F (p.applicators rt) (p.nestedPositions rt)) := by
  have htarget : refTarget refData cs.refVal cs.resolvedRefVal = p.target rt refData := by
    rw [hp.matches.refVal, hp.matches.resolvedRefVal]
    rfl
  obtain ⟨-, happ, hnested, -⟩ := hp
  cases cs
  rw [resolveRefs, ← htarget]
  simp only [Position.unresolvedBelow, List.append_assoc]
  refine (First.of_errorOf _).bind fun refSchema _ => ?_
  refine (resolveRefsOpt_first hR happ.ifSchema).bind fun ifSchema _ => ?_
  refine (resolveRefsOpt_first hR happ.thenSchema).bind fun thenSchema _ => ?_
  refine (resolveRefsOpt_first hR happ.elseSchema).bind fun elseSchema _ => ?_
  refine (resolveRefsOpt_first hR happ.notSchema).bind fun notSchema _ => ?_
  refine (resolveRefsOpt_first hR happ.items).bind fun itemsSchema _ => ?_
  refine (resolveRefsOpt_first hR happ.additionalItems).bind fun additionalItemsSchema _ => ?_
  refine (resolveRefsOpt_first hR happ.contains).bind fun containsSchema _ => ?_
  refine (resolveRefsOpt_first hR happ.propertyNames).bind fun propertyNamesSchema _ => ?_
  refine (resolveRefsOpt_first hR happ.additionalProperties).bind
    fun additionalPropertiesSchema _ => ?_
  refine (resolveRefsInArray_first hR happ.allOf).bind fun allOfVal _ => ?_
  refine (resolveRefsInArray_first hR happ.anyOf).bind fun anyOfVal _ => ?_
  refine (resolveRefsInArray_first hR happ.oneOf).bind fun oneOfVal _ => ?_
  refine (resolveRefsInArray_first hR happ.itemsList).bind fun itemsVal _ => ?_
  refine (resolveRefsInHash_first hR happ.properties).bind fun propertiesVal _ => ?_
  refine (resolveRefsInHash_first hR happ.patternProperties).bind
    fun patternPropertiesVal _ => ?_
  refine (resolveRefsInHash_first hR happ.dependencies).bind fun dependenciesVal _ => ?_
  exact (resolveRefsList_first hR hnested).bind_pure

end Resolve

/-- **The errors of the second pass** at and below a position. -/
theorem resolveRefs_first {rt : Runtime} {refData : RefData}
    {T : Position → CompiledSchema → Prop} {n : ℕ} : ∀ {p : Position} {c : CompiledSchema},
      p.Built rt T n c → First (resolveRefs refData c) (p.unresolved rt refData n) := by
  induction n with
  | zero => exact fun h => h.elim
  | succ n ih =>
    intro p c h
    exact resolveRefs_assembled_first (R := Position.Built rt T n) (fun _ _ => ih) h.2

/-! ## Documents -/

section Documents

variable (rt : Runtime) (customFormats : Option (List (RString × ℕ))) (doc : Value)

/-- What the first pass finds wrong with a document. -/
def faultsOf : List CompileError :=
  (rootPosition doc customFormats).faults rt (doc.nesting + 1)

/-- The references of a document without a target. -/
def unresolvedOf : List CompileError :=
  (rootPosition doc customFormats).unresolved rt (keysOf rt customFormats doc).reverse
    (doc.nesting + 1)

variable {rt customFormats doc} {e : CompileError}

theorem mem_faultsOf : e ∈ faultsOf rt customFormats doc ↔
    ∃ p ∈ positionsOf rt customFormats doc, p.Rejects rt e :=
  Position.mem_faults

theorem mem_unresolvedOf : e ∈ unresolvedOf rt customFormats doc ↔
    ∃ p ∈ positionsOf rt customFormats doc,
      p.target rt (keysOf rt customFormats doc).reverse = .error e :=
  Position.mem_unresolved

theorem compileDocument_first (doc : Value) :
    First (compileDocument rt customFormats doc) (faultsOf rt customFormats doc) :=
  @compile_raises rt _ (rootPosition doc customFormats) (Nat.lt_succ_self _) []

/-- **The errors of a document**: those of the first pass, then those of the second. -/
theorem compileSchema_first : First (compileSchema rt customFormats doc)
    (faultsOf rt customFormats doc ++ unresolvedOf rt customFormats doc) := by
  refine (compileDocument_first doc).bind fun x hx => ?_
  obtain ⟨root, refData⟩ := x
  obtain ⟨rfl, hbuilt⟩ := compileDocument_built hx
  exact resolveRefs_first hbuilt

/-- **The error of a document** is the first one in the order of the two passes, and the lists have
no other errors than those of its positions. -/
theorem compileSchema_reports :
    (∀ e, compileSchema rt customFormats doc = .error e ↔
      (faultsOf rt customFormats doc ++ unresolvedOf rt customFormats doc).head? = some e) ∧
    ((∃ root, compileSchema rt customFormats doc = .ok root) ↔
      faultsOf rt customFormats doc = [] ∧ unresolvedOf rt customFormats doc = []) ∧
    (∀ e, e ∈ faultsOf rt customFormats doc ↔
      ∃ p ∈ positionsOf rt customFormats doc, p.Rejects rt e) ∧
    ∀ e, e ∈ unresolvedOf rt customFormats doc ↔
      ∃ p ∈ positionsOf rt customFormats doc,
        p.target rt (keysOf rt customFormats doc).reverse = .error e := by
  refine ⟨fun e => compileSchema_first.eq_error_iff, ?_, fun e => mem_faultsOf,
    fun e => mem_unresolvedOf⟩
  rw [compileSchema_first.exists_ok_iff, List.append_eq_nil_iff]

end Documents

end FastJsonSchema
