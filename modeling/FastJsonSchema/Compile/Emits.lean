import FastJsonSchema.Compile.Assembly

/-!
# What a compilation emits

A compilation that succeeds extends the reference table by the entries of its positions, in their
order, and the nodes of its tree are those of the positions; with enough fuel for the nesting of the
value it does not run out of fuel (`compile_emits`). The proof follows `compile` once, with one rule
for each way it makes children.
-/

namespace FastJsonSchema

open Ruby

/-- `Emits m E ws Q`: if `m` succeeds, it has written `ws` and its result satisfies `Q`; given `E`,
it does not run out of fuel. -/
def Emits {α : Type} (m : CompileM α) (E : Prop) (ws : RefData) (Q : α → Prop) : Prop :=
  ∀ rd, match m rd with
    | .ok (a, rd') => rd' = ws.reverse ++ rd ∧ Q a
    | .error e => E → e ≠ .starved

namespace Emits

variable {α β : Type} {m : CompileM α} {f : α → CompileM β} {E : Prop} {ws ws' : RefData}
  {Q : α → Prop} {Q' : β → Prop}

theorem pure {a : α} (h : Q a) : Emits (Pure.pure a) E [] Q := fun _ => ⟨rfl, h⟩

theorem register (ws : RefData) : Emits (FastJsonSchema.register ws) E ws fun _ => True :=
  fun _ => ⟨rfl, trivial⟩

theorem throw {e : CompileError} (h : E → e ≠ .starved) :
    Emits (MonadExcept.throw e : CompileM α) E ws Q := fun _ => h

theorem bind (h : Emits m E ws Q) (hf : ∀ a, Q a → Emits (f a) E ws' Q') :
    Emits (m >>= f) E (ws ++ ws') Q' := by
  intro rd
  have h := h rd
  show match ((m rd) >>= fun x => f x.1 x.2) with
    | .ok (a, rd') => rd' = (ws ++ ws').reverse ++ rd ∧ Q' a
    | .error e => E → e ≠ .starved
  cases hm : m rd with
  | error e =>
    rw [hm] at h
    exact h
  | ok x =>
    obtain ⟨a, rd'⟩ := x
    rw [hm] at h
    obtain ⟨rfl, ha⟩ := h
    have hf := hf a ha (ws.reverse ++ rd)
    show match f a (ws.reverse ++ rd) with
      | .ok (a, rd') => rd' = (ws ++ ws').reverse ++ rd ∧ Q' a
      | .error e => E → e ≠ .starved
    cases hfa : f a (ws.reverse ++ rd) with
    | error e =>
      rw [hfa] at hf
      exact hf
    | ok y =>
      rw [hfa] at hf
      exact ⟨by rw [hf.1, List.reverse_append, List.append_assoc], hf.2⟩

/-- Going on without an entry. -/
theorem bind_nil (h : Emits m E ws Q) (hf : ∀ a, Q a → Emits (f a) E [] Q') :
    Emits (m >>= f) E ws Q' := by
  have := h.bind hf
  rwa [List.append_nil] at this

theorem map {g : α → β} (h : Emits m E ws Q) (hg : ∀ a, Q a → Q' (g a)) :
    Emits (g <$> m) E ws Q' := by
  rw [map_eq_pure_bind]
  exact h.bind_nil fun a ha => Emits.pure (hg a ha)

theorem lift {x : Except CompileError α} (h : ∀ e, x = .error e → e ≠ .starved) :
    Emits (MonadLift.monadLift x : CompileM α) E [] fun a => x = .ok a := by
  intro rd
  cases x with
  | ok a => exact ⟨rfl, rfl⟩
  | error e => exact fun _ => h e rfl

theorem congr (h : Emits m E ws Q) (he : ws = ws') : Emits m E ws' Q := he ▸ h

theorem mono {R : α → Prop} (h : Emits m E ws Q) (hQ : ∀ a, Q a → R a) : Emits m E ws R := by
  intro rd
  have h := h rd
  cases hm : m rd with
  | error e =>
    rw [hm] at h
    exact h
  | ok x =>
    rw [hm] at h
    exact ⟨h.1, hQ _ h.2⟩

theorem imp {E' : Prop} (h : Emits m E ws Q) (hE : E' → E) : Emits m E' ws Q := by
  intro rd
  have h := h rd
  cases hm : m rd with
  | error e =>
    rw [hm] at h
    exact fun he => h (hE he)
  | ok x =>
    rw [hm] at h
    exact h

end Emits

/-! ## The entries of a compilation -/

section Emits

variable {rec : CompileCall} {parent : CompiledSchema} {kvs : List (Value × Value)}
  {ctx : CompileContext} {keyword : RString} {E : Prop} {size : Position → Prop}
  {ws : Position → RefData} {Q : Position → CompiledSchema → Prop}
  (hrec : ∀ p, Emits (rec (.create p.addr p.path) p.value p.ctx) (size p) (ws p) (Q p))

include hrec

theorem assignSchema_emits (hE : E → ∀ p ∈ Position.single parent kvs ctx keyword, size p) :
    Emits (assignSchema rec parent kvs ctx keyword) E
      ((Position.single parent kvs ctx keyword).flatMap ws)
      fun o => Option.Rel Q (Position.one parent kvs ctx keyword) o := by
  unfold assignSchema
  unfold Position.single at hE ⊢
  unfold Position.one
  dsimp only at hE ⊢
  split_ifs with hshape
  · simp only [hshape, if_true, List.mem_singleton, forall_eq] at hE
    rw [List.flatMap_singleton]
    exact ((hrec _).imp hE).map fun c hc => .some hc
  · exact Emits.pure .none

theorem compileElements_emits : ∀ (xs : List Value) (i : ℕ),
    (E → ∀ p ∈ Position.elements parent ctx keyword i xs, size p) →
      Emits (compileElements rec parent ctx keyword i xs) E
        ((Position.elements parent ctx keyword i xs).flatMap ws)
        fun cs => List.Forall₂ Q (Position.elements parent ctx keyword i xs) cs
  | [], i, _ => by
    rw [compileElements]
    exact Emits.pure .nil
  | v :: vs, i, hE => by
    rw [compileElements]
    rw [Position.elements] at hE ⊢
    refine ((hrec ⟨_, _, v, _⟩).imp fun e => hE e _ List.mem_cons_self).bind
      fun child hchild => ?_
    refine ((compileElements_emits vs (i + 1)) fun e p hp =>
      hE e p (List.mem_cons_of_mem _ hp)).bind_nil fun rest hrest => ?_
    exact Emits.pure (.cons hchild hrest)

theorem assignSchemaCollection_emits
    (hE : E → ∀ p ∈ Position.collection parent kvs ctx keyword, size p) :
    Emits (assignSchemaCollection rec parent kvs ctx keyword) E
      ((Position.collection parent kvs ctx keyword).flatMap ws)
      fun o => Option.Rel (List.Forall₂ Q) (Position.many parent kvs ctx keyword) o := by
  unfold assignSchemaCollection
  unfold Position.collection at hE ⊢
  unfold Position.many
  revert hE
  cases Value.aref kvs keyword with
  | arr xs => exact fun hE => (compileElements_emits hrec xs 0 hE).map fun cs hcs => .some hcs
  | _ => exact fun _ => Emits.pure .none

theorem compileMembers_emits (value : Value → Value) (validKey : RString → Bool) :
    ∀ members : List (RString × Value),
      (E → ∀ p ∈ members.map (Position.member parent ctx keyword value), size p) →
        Emits (compileMembers rec parent ctx keyword value validKey members) E
          ((members.map (Position.member parent ctx keyword value)).flatMap ws)
          fun cs => List.Forall₂ (Applicators.Entry Q)
            (members.map fun kv => (kv.1, Position.member parent ctx keyword value kv)) cs ∧
              ∀ kv ∈ members, validKey kv.1 = true
  | [], _ => by
    rw [compileMembers]
    exact Emits.pure ⟨.nil, by simp⟩
  | (key, v) :: members, hE => by
    rw [compileMembers]
    rw [List.map_cons] at hE ⊢
    refine ((hrec (Position.member parent ctx keyword value (key, v))).imp
      fun e => hE e _ (by simp)).bind fun child hchild => ?_
    split_ifs with hkey
    · refine ((compileMembers_emits value validKey members) fun e p hp =>
        hE e p (List.mem_cons_of_mem _ hp)).bind_nil fun rest hrest => ?_
      exact Emits.pure ⟨.cons ⟨rfl, hchild⟩ hrest.1, List.forall_mem_cons.2 ⟨hkey, hrest.2⟩⟩
    · exact Emits.throw fun _ => by simp

theorem compileProperties_emits (value : Value → Value) (validKey : RString → Bool)
    (hE : E → ∀ p ∈ Position.properties parent kvs ctx keyword value, size p) :
    Emits (compileProperties rec parent kvs ctx keyword value validKey) E
      ((Position.properties parent kvs ctx keyword value).flatMap ws)
      fun o => Option.Rel (List.Forall₂ (Applicators.Entry Q))
        (Position.named parent kvs ctx keyword value) o ∧
          ∀ e ∈ (Position.named parent kvs ctx keyword value).getD [], validKey e.1 = true := by
  unfold compileProperties
  unfold Position.properties at hE ⊢
  unfold Position.named
  revert hE
  cases Value.aref kvs keyword with
  | hash members =>
    refine fun hE => (compileMembers_emits hrec value validKey _ hE).map fun cs hcs => ?_
    refine ⟨.some hcs.1, fun e he => ?_⟩
    obtain ⟨kv, hkv, rfl⟩ := List.mem_map.1 he
    exact hcs.2 kv hkv
  | _ => exact fun _ => Emits.pure ⟨.none, by simp⟩

end Emits

section NestedEmits

variable {rec : CompileCall} {parent : CompiledSchema} {ctx : CompileContext} {E : Prop}
  {size : Position → Prop} {ws : Position → RefData} {Q : Position → CompiledSchema → Prop}

/-- A schema in a container is one position. -/
theorem compileEntry_schema_emits
    (hrec : ∀ p, Emits (rec (.create p.addr p.path) p.value p.ctx) (size p) (ws p) (Q p))
    (p : Position) (hE : E → ∀ q ∈ [p], size q) :
    Emits ((fun c => [c]) <$> rec (.create p.addr p.path) p.value p.ctx) E ([p].flatMap ws)
      fun cs => List.Forall₂ Q [p] cs := by
  rw [List.flatMap_singleton]
  exact ((hrec p).imp fun e => hE e _ List.mem_cons_self).map fun c hc => .cons hc .nil

mutual

theorem compileEntry_emits
    (hrec : ∀ p, Emits (rec (.create p.addr p.path) p.value p.ctx) (size p) (ws p) (Q p)) :
    ∀ (v : Value) (path : RString) (tokens : List RString),
    (E → ∀ p ∈ Position.entry parent ctx v path tokens, size p) →
      Emits (compileEntry rec parent ctx v path tokens) E
        ((Position.entry parent ctx v path tokens).flatMap ws)
        fun cs => List.Forall₂ Q (Position.entry parent ctx v path tokens) cs
  | .arr xs, path, tokens, hE => by
    rw [compileEntry]
    rw [Position.entry] at hE ⊢
    exact compileArrayEntries_emits hrec xs 0 path tokens hE
  | .hash kvs, path, tokens, hE => by
    rw [compileEntry]
    rw [Position.entry] at hE ⊢
    exact compileEntry_schema_emits hrec ⟨_, _, .hash kvs, _⟩ hE
  | .bool b, path, tokens, hE => by
    rw [compileEntry]
    rw [Position.entry] at hE ⊢
    exact compileEntry_schema_emits hrec ⟨_, _, .bool b, _⟩ hE
  | .nil, _, _, _ | .int _, _, _, _ | .float _, _, _, _ | .str _, _, _, _ | .other _, _, _, _ => by
    rw [compileEntry, Position.entry]
    · exact Emits.pure .nil
    all_goals simp

theorem compileArrayEntries_emits
    (hrec : ∀ p, Emits (rec (.create p.addr p.path) p.value p.ctx) (size p) (ws p) (Q p)) :
    ∀ (xs : List Value) (i : ℕ) (path : RString) (tokens : List RString),
    (E → ∀ p ∈ Position.arrayEntries parent ctx xs i path tokens, size p) →
      Emits (compileArrayEntries rec parent ctx xs i path tokens) E
        ((Position.arrayEntries parent ctx xs i path tokens).flatMap ws)
        fun cs => List.Forall₂ Q (Position.arrayEntries parent ctx xs i path tokens) cs
  | [], _, _, _, _ => by
    rw [compileArrayEntries]
    exact Emits.pure .nil
  | v :: vs, i, path, tokens, hE => by
    rw [compileArrayEntries]
    rw [Position.arrayEntries] at hE ⊢
    rw [List.flatMap_append]
    refine (compileEntry_emits hrec v _ _ fun e p hp => hE e p (List.mem_append_left _ hp)).bind
      fun entry hentry => ?_
    refine (compileArrayEntries_emits hrec vs (i + 1) path tokens fun e p hp =>
      hE e p (List.mem_append_right _ hp)).bind_nil fun rest hrest => ?_
    exact Emits.pure (List.rel_append hentry hrest)

end

end NestedEmits

section Keywords

variable {rt : Runtime} {rec : CompileCall} {E : Prop} {size : Position → Prop}
  {ws : Position → RefData} {Q : Position → CompiledSchema → Prop}

theorem compileNested_emits {parent : CompiledSchema} {ctx : CompileContext}
    (hrec : ∀ p, Emits (rec (.create p.addr p.path) p.value p.ctx) (size p) (ws p) (Q p)) :
    ∀ members : List (RString × Value),
      (E → ∀ p ∈ members.flatMap fun kv => Position.entry parent ctx kv.2 kv.1 [kv.1], size p) →
        Emits (compileNested rec parent ctx members) E
          ((members.flatMap fun kv => Position.entry parent ctx kv.2 kv.1 [kv.1]).flatMap ws)
          fun cs => List.Forall₂ Q
            (members.flatMap fun kv => Position.entry parent ctx kv.2 kv.1 [kv.1]) cs
  | [], _ => Emits.pure .nil
  | (key, v) :: members, hE => by
    rw [compileNested]
    rw [List.flatMap_cons] at hE ⊢
    rw [List.flatMap_append]
    refine (compileEntry_emits hrec v key [key] fun e p hp =>
      hE e p (List.mem_append_left _ hp)).bind fun entry hentry => ?_
    refine (compileNested_emits hrec members fun e p hp =>
      hE e p (List.mem_append_right _ hp)).bind_nil fun rest hrest => ?_
    exact Emits.pure (List.rel_append hentry hrest)

theorem formatFields_ne_starved {customFormats : Option (List (RString × ℕ))} {v : Value}
    {e : CompileError} (h : formatFields customFormats v = .error e) : e ≠ .starved := by
  unfold formatFields at h
  rintro rfl
  split at h
  · split at h
    · simp at h
    · split_ifs at h
      · simp at h
  · simp at h

theorem naming_ne_starved {names : List RString} {e : CompileError} (h : e ≠ .starved) :
    naming names e ≠ .starved := by
  unfold naming
  split_ifs
  · simp
  · exact h

theorem parseTypes_ne_starved {e : CompileError} : ∀ {xs : List Value} {flags : List TypeFlag},
    parseTypes xs flags = .error e → e ≠ .starved := by
  intro xs
  induction xs with
  | nil =>
    intro flags h
    simp [parseTypes] at h
  | cons x xs ih =>
    intro flags h
    unfold parseTypes at h
    split at h
    · simp at *
    · rename_i heq
      obtain ⟨-, rfl⟩ := List.cons.inj heq
      split at h
      · obtain rfl := Except.error.inj h
        exact naming_ne_starved (by simp)
      · split_ifs at h
        · obtain rfl := Except.error.inj h
          exact naming_ne_starved (by simp)
        · exact ih h
    · obtain rfl := Except.error.inj h
      simp

theorem typeValidationFunction_ne_starved {kvs : List (Value × Value)} {e : CompileError}
    (h : typeValidationFunction kvs = .error e) : e ≠ .starved := by
  unfold typeValidationFunction at h
  split at h
  · unfold parseTypeArray at h
    split_ifs at h
    · obtain rfl := Except.error.inj h
      simp
    · cases hp : parseTypes _ [] with
      | ok flags => rw [hp] at h; simp [Except.map] at h
      | error e' =>
        rw [hp] at h
        obtain rfl := Except.error.inj h
        exact parseTypes_ne_starved hp
  · simp at h
  · simp at h

theorem compileKeywords_emits (cs : CompiledSchema) (kvs : List (Value × Value))
    (child : CompileContext)
    (hrec : ∀ p, Emits (rec (.create p.addr p.path) p.value p.ctx) (size p) (ws p) (Q p))
    (hE : E → ∀ q ∈ Position.childrenOf cs kvs child, size q) :
    Emits (compileKeywords rt rec cs kvs child) E
      ((Position.childrenOf cs kvs child).flatMap ws)
      fun c => (∃ format type,
          formatFields child.customFormats (Value.aref kvs formatStr) = .ok format ∧
            typeValidationFunction kvs = .ok type ∧
              c.own = Position.ownFields cs kvs format type) ∧
        (Position.applicatorsOf cs kvs child).Rel Q c.applicators ∧
          List.Forall₂ Q (Position.nested cs child kvs) c.nestedSchemas ∧
            (∀ e ∈ (Position.applicatorsOf cs kvs child).patternProperties.getD [],
              rt.validRegexp e.1 = true) ∧ c.refSchema = cs.refSchema := by
  simp only [Position.childrenOf, List.append_assoc, List.forall_mem_append, imp_and] at hE
  obtain ⟨hE₁, hE₂, hE₃, hE₄, hE₅, hE₆, hE₇, hE₈, hE₉, hE₁₀, hE₁₁, hE₁₂, hE₁₃, hE₁₄, hE₁₅, hE₁₆,
    hE₁₇⟩ := hE
  simp only [Position.childrenOf, List.append_assoc, List.flatMap_append]
  unfold compileKeywords
  refine (assignSchema_emits hrec hE₁).bind fun ifSchema h₁ => ?_
  refine (assignSchema_emits hrec hE₂).bind fun thenSchema h₂ => ?_
  refine (assignSchema_emits hrec hE₃).bind fun elseSchema h₃ => ?_
  refine (assignSchemaCollection_emits hrec hE₄).bind fun allOfVal h₄ => ?_
  refine (assignSchemaCollection_emits hrec hE₅).bind fun anyOfVal h₅ => ?_
  refine (assignSchemaCollection_emits hrec hE₆).bind fun oneOfVal h₆ => ?_
  refine (assignSchema_emits hrec hE₇).bind fun notSchema h₇ => ?_
  refine (assignSchema_emits hrec hE₈).bind fun itemsSchema h₈ => ?_
  refine (assignSchemaCollection_emits hrec hE₉).bind fun itemsVal h₉ => ?_
  refine (assignSchema_emits hrec hE₁₀).bind fun additionalItemsSchema h₁₀ => ?_
  refine (assignSchema_emits hrec hE₁₁).bind fun containsSchema h₁₁ => ?_
  refine (assignSchema_emits hrec hE₁₂).bind fun propertyNamesSchema h₁₂ => ?_
  refine (assignSchema_emits hrec hE₁₃).bind fun additionalPropertiesSchema h₁₃ => ?_
  refine (compileProperties_emits hrec _ _ hE₁₄).bind fun propertiesVal h₁₄ => ?_
  refine (compileProperties_emits hrec _ _ hE₁₅).bind fun patternPropertiesVal h₁₅ => ?_
  refine (compileProperties_emits hrec _ _ hE₁₆).bind fun dependenciesVal h₁₆ => ?_
  refine (compileNested_emits hrec _ hE₁₇).bind_nil fun nestedSchemas h₁₇ => ?_
  refine (Emits.lift fun e => formatFields_ne_starved).bind_nil fun format hformat => ?_
  refine (Emits.lift fun e => typeValidationFunction_ne_starved).bind_nil fun type htype => ?_
  refine Emits.pure ⟨⟨format, type, hformat, htype, rfl⟩, ?_, h₁₇, h₁₅.2, rfl⟩
  exact {
    ifSchema := h₁, thenSchema := h₂, elseSchema := h₃, notSchema := h₇, allOf := h₄, anyOf := h₅,
    oneOf := h₆, items := h₈, itemsList := h₉, additionalItems := h₁₀, contains := h₁₁,
    propertyNames := h₁₂, properties := h₁₄.1, patternProperties := h₁₅.1,
    additionalProperties := h₁₃, dependencies := h₁₆.1 }

end Keywords

namespace Position

variable {rt : Runtime}

/-- The applicators of a position without members are unset. -/
theorem applicatorsOf_nil (parent : CompiledSchema) (ctx : CompileContext)
    (R : Position → CompiledSchema → Prop) (addr : Addr) (path : RString) :
    (applicatorsOf parent [] ctx).Rel R (CompiledSchema.create addr path).applicators := by
  constructor <;> exact .none

/-- A position without members is a leaf. -/
theorem leaf_emits (p : Position) (hp : p.members = []) (f : ValidationFunction) (n : ℕ) (E : Prop)
    (hown : p.own rt
      = .ok { CompiledSchema.create p.addr p.path with validationFunction := some f }) :
    Emits (do
        register (pathKeys (.create p.addr p.path))
        pure { CompiledSchema.create p.addr p.path with validationFunction := some f }) E
      ((positions rt (n + 1) p).flatMap (keys rt))
      (Built rt (fun _ c => c.refSchema = none) (n + 1) p) := by
  have hpos : positions rt (n + 1) p = [p] := by simp [positions, children, hp]
  have hkeys : keys rt p = pathKeys (.create p.addr p.path) := by simp [keys, hp, pathKeys,
    CompiledSchema.create]
  rw [hpos, List.flatMap_singleton, hkeys]
  refine (Emits.register _).bind_nil fun _ _ => Emits.pure ⟨rfl, hown, ?_, ?_, ?_⟩
  · rw [applicators, hp]
    exact applicatorsOf_nil _ _ _ p.addr p.path
  · rw [nestedPositions, hp]
    exact .nil
  · rw [ValidPatterns, applicators, hp]
    exact fun e he => absurd he List.not_mem_nil

end Position

/-- **What a compilation emits**: the entries of its positions, and the tree built from them; it
does not run out of fuel when the fuel exceeds the nesting of the value. -/
theorem compile_emits (rt : Runtime) (n : ℕ) : ∀ p : Position,
    Emits (compile rt n (.create p.addr p.path) p.value p.ctx) (p.value.nesting < n)
      ((Position.positions rt n p).flatMap (Position.keys rt))
      (Position.Built rt (fun _ c => c.refSchema = none) n p) := by
  induction n with
  | zero => exact fun p => Emits.throw fun h => absurd h (Nat.not_lt_zero _)
  | succ n ih =>
    rintro ⟨addr, path, value, ctx⟩
    cases value with
    | bool b =>
      cases b with
      | false => exact Position.leaf_emits ⟨addr, path, .bool false, ctx⟩ rfl _ n _ rfl
      | true => exact Position.leaf_emits ⟨addr, path, .bool true, ctx⟩ rfl _ n _ rfl
    | hash kvs =>
      cases kvs with
      | nil => exact Position.leaf_emits ⟨addr, path, .hash [], ctx⟩ rfl _ n _ rfl
      | cons kv kvs =>
        set p : Position := ⟨addr, path, .hash (kv :: kvs), ctx⟩ with hp
        have hchildren : p.children rt
            = Position.childrenOf (p.resolved rt).1 p.members (p.resolved rt).2 := rfl
        have hE : p.value.nesting < n + 1 → ∀ q ∈ p.children rt, q.value.nesting < n :=
          fun e q hq => (Position.nesting_children hq).trans_le (Nat.lt_succ_iff.1 e)
        rw [hchildren] at hE
        rw [Position.positions, List.flatMap_cons, List.flatMap_assoc]
        refine ((Emits.register (pathKeys (.create p.addr p.path))).bind fun _ _ =>
          (Emits.register (idKeys (p.resolved rt).1 p.ctx.currentBase)).bind fun _ _ =>
            compileKeywords_emits (p.resolved rt).1 p.members (p.resolved rt).2 ih hE).congr ?_
            |>.mono fun c ⟨⟨format, type, hformat, htype, hown⟩, happ, hnested, hpat, href⟩ => ?_
        · rw [← List.append_assoc, hchildren]
          rfl
        · refine ⟨?_, ?_, happ, hnested, hpat⟩
          · exact href.trans (Position.resolved_refSchema p)
          · show (do
              let format ← formatFields (p.resolved rt).2.customFormats
                (Value.aref p.members formatStr)
              let type ← typeValidationFunction p.members
              pure (Position.ownFields (p.resolved rt).1 p.members format type)) = _
            rw [hformat, htype, hown]
            rfl
    | _ => exact Position.leaf_emits ⟨addr, path, _, ctx⟩ rfl _ n _ rfl

end FastJsonSchema
