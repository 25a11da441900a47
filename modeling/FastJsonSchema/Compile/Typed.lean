import FastJsonSchema.Compile.Insertion
import FastJsonSchema.Compile.Registry

/-!
# Adding a type

A document determines its compiled schema (`Position.Built.unique`). When `type` is added to an
object without a `$ref`, it compiles to the same schema with another dispatch of the type
(`compileSchema_typed`).
-/

namespace FastJsonSchema

open Ruby

/-! ## A position determines its node -/

section Unique

variable {α β γ : Type} {R : α → β → Prop} {R' : α → γ → Prop} {S : β → γ → Prop}
  (h : ∀ a b c, R a b → R' a c → S b c)

include h

theorem forall₂_unique {as : List α} {bs : List β} {cs : List γ} (hb : List.Forall₂ R as bs)
    (hc : List.Forall₂ R' as cs) : List.Forall₂ S bs cs := by
  induction hb generalizing cs with
  | nil =>
    cases hc
    exact .nil
  | cons hr _ ih =>
    cases hc with
    | cons hr' hrest => exact .cons (h _ _ _ hr hr') (ih hrest)

theorem option_unique {a : Option α} {b : Option β} {c : Option γ} (hb : Option.Rel R a b)
    (hc : Option.Rel R' a c) : Option.Rel S b c := by
  cases hb with
  | none =>
    cases hc
    exact .none
  | some hr =>
    cases hc with
    | some hr' => exact .some (h _ _ _ hr hr')

theorem Applicators.Rel.comp {a : Applicators α} {b : Applicators β} {c : Applicators γ}
    (hb : Applicators.Rel R a b) (hc : Applicators.Rel R' a c) : Applicators.Rel S b c := by
  have hlist : ∀ (as : List α) bs cs, List.Forall₂ R as bs → List.Forall₂ R' as cs →
      List.Forall₂ S bs cs := fun _ _ _ => forall₂_unique h
  have hmap : ∀ as bs cs, List.Forall₂ (Applicators.Entry R) as bs →
      List.Forall₂ (Applicators.Entry R') as cs → List.Forall₂ (Applicators.Entry S) bs cs :=
    fun _ _ _ => forall₂_unique fun _ _ _ he he' => ⟨he.1.symm.trans he'.1, h _ _ _ he.2 he'.2⟩
  exact {
    ifSchema := option_unique h hb.ifSchema hc.ifSchema
    thenSchema := option_unique h hb.thenSchema hc.thenSchema
    elseSchema := option_unique h hb.elseSchema hc.elseSchema
    notSchema := option_unique h hb.notSchema hc.notSchema
    allOf := option_unique hlist hb.allOf hc.allOf
    anyOf := option_unique hlist hb.anyOf hc.anyOf
    oneOf := option_unique hlist hb.oneOf hc.oneOf
    items := option_unique h hb.items hc.items
    itemsList := option_unique hlist hb.itemsList hc.itemsList
    additionalItems := option_unique h hb.additionalItems hc.additionalItems
    contains := option_unique h hb.contains hc.contains
    propertyNames := option_unique h hb.propertyNames hc.propertyNames
    properties := option_unique hmap hb.properties hc.properties
    patternProperties := option_unique hmap hb.patternProperties hc.patternProperties
    additionalProperties := option_unique h hb.additionalProperties hc.additionalProperties
    dependencies := option_unique hmap hb.dependencies hc.dependencies }

end Unique

namespace Position

variable {rt : Runtime} {T : Position → CompiledSchema → Prop}

/-- **A position determines its node**, when it determines the target. -/
theorem Built.unique (hT : ∀ p c c', T p c → T p c' → c.refSchema = c'.refSchema) {n : ℕ} :
    ∀ {m : ℕ} {p : Position} {c c' : CompiledSchema}, Built rt T n p c → Built rt T m p c' →
      c = c' := by
  induction n with
  | zero => exact fun h => h.elim
  | succ n ih =>
    intro m p c c' h h'
    cases m with
    | zero => exact h'.elim
    | succ m =>
      have hsub : ∀ q d d', Built rt T n q d → Built rt T m q d' → d = d' := fun _ _ _ => ih
      have hown : c.own = c'.own := Except.ok.inj (h.2.own.symm.trans h'.2.own)
      refine CompiledSchema.eq_of_own hown
        (Applicators.eq_of_rel (h.2.applicators.comp hsub h'.2.applicators)) ?_
        (hT p c c' h.1 h'.1)
      have hnested := forall₂_unique hsub h.2.nested h'.2.nested
      rwa [List.forall₂_eq_eq_eq] at hnested

/-- Enough fuel lists the same positions. -/
theorem positions_eq {n : ℕ} : ∀ {m : ℕ} {p : Position}, p.value.nesting < n →
    p.value.nesting < m → p.positions rt n = p.positions rt m := by
  induction n with
  | zero => exact fun h => absurd h (Nat.not_lt_zero _)
  | succ n ih =>
    intro m p hn hm
    obtain ⟨m, rfl⟩ := Nat.exists_eq_succ_of_ne_zero (Nat.ne_zero_of_lt hm)
    rw [positions, positions]
    refine congrArg (p :: ·) (List.flatMap_congr fun q hq => ?_)
    have hlt := nesting_children hq
    exact ih (by omega) (by omega)

end Position

/-! ## Two objects with the same keywords -/

/-- A compiled schema with another dispatch of the type. -/
def CompiledSchema.withType (cs : CompiledSchema)
    (type : TypeValidationFunction × List TypeFlag) : CompiledSchema :=
  { cs with typeValidationFunction := some type.1, typeFlags := type.2 }

section Typed

variable {rt : Runtime} {customFormats : Option (List (RString × ℕ))}
  {kvs kvs' : List (Value × Value)} {L : Value}
  {type : TypeValidationFunction × List TypeFlag}

theorem sameKeywords_of_inserted (h : Inserted typeStr L kvs kvs') : SameKeywords kvs kvs' :=
  fun _ _ hne => h.get_of_ne hne

section Root

variable (h : Inserted typeStr L kvs kvs')

include h

theorem root_resolved : (rootPosition (.hash kvs') customFormats).resolved rt
    = (rootPosition (.hash kvs) customFormats).resolved rt :=
  (sameKeywords_of_inserted h).readScope _ _

theorem root_applicators : (rootPosition (.hash kvs') customFormats).applicators rt
    = (rootPosition (.hash kvs) customFormats).applicators rt := by
  unfold Position.applicators
  rw [root_resolved h]
  exact (sameKeywords_of_inserted h).applicatorsOf _ _

theorem root_nestedPositions : (rootPosition (.hash kvs') customFormats).nestedPositions rt
    = (rootPosition (.hash kvs) customFormats).nestedPositions rt := by
  unfold Position.nestedPositions Position.nested
  rw [root_resolved h]
  exact congrArg _ (h.unknownMembers (by decide))

theorem root_children : (rootPosition (.hash kvs') customFormats).children rt
    = (rootPosition (.hash kvs) customFormats).children rt := by
  rw [Position.children_eq, Position.children_eq, root_applicators h, root_nestedPositions h]

theorem root_keys : (rootPosition (.hash kvs') customFormats).keys rt
    = (rootPosition (.hash kvs) customFormats).keys rt := by
  unfold Position.keys
  rw [root_resolved h]
  congr 1
  have hne : (rootPosition (.hash kvs') customFormats).members.isEmpty = false := by
    simpa [rootPosition, Position.members] using h.ne_nil
  rw [if_neg (by simp [hne])]
  split_ifs with hnil
  · -- an empty object has no keys but its path
    have hkvs : kvs = [] := by simpa [rootPosition, Position.members] using hnil
    subst hkvs
    rfl
  · rfl

/-- The positions below the root are the same. -/
theorem positionsOf_typed : ∃ below, positionsOf rt customFormats (.hash kvs)
      = rootPosition (.hash kvs) customFormats :: below ∧
    positionsOf rt customFormats (.hash kvs')
      = rootPosition (.hash kvs') customFormats :: below := by
  refine ⟨((rootPosition (.hash kvs) customFormats).children rt).flatMap
    (Position.positions rt (Value.hash kvs).nesting), rfl, ?_⟩
  rw [positionsOf, Position.positions, root_children h]
  refine congrArg _ (List.flatMap_congr fun q hq => Position.positions_eq ?_ ?_)
  · exact Position.nesting_children (by rwa [root_children h])
  · exact Position.nesting_children hq

theorem keysOf_typed : keysOf rt customFormats (.hash kvs')
    = keysOf rt customFormats (.hash kvs) := by
  obtain ⟨below, hpos, hpos'⟩ := @positionsOf_typed rt customFormats _ _ _ h
  rw [keysOf, keysOf, hpos, hpos', List.flatMap_cons, List.flatMap_cons, root_keys h]

end Root

/-- What an object has of its own but for its type. -/
theorem own_typed (h : Inserted typeStr L kvs kvs') {format : FormatFields}
    (hformat : formatFields ((rootPosition (.hash kvs) customFormats).resolved rt).2.customFormats
      (Value.aref kvs formatStr) = .ok format) (htype : typeValidationFunction kvs' = .ok type) :
    (rootPosition (.hash kvs') customFormats).own rt = .ok (Position.ownFields
      ((rootPosition (.hash kvs) customFormats).resolved rt).1 kvs format type) := by
  have hsame := sameKeywords_of_inserted h
  rw [← hsame.aref (k := formatStr) (by decide) (by decide), ← root_resolved h] at hformat
  rw [← root_resolved h, ← hsame.ownFields]
  exact (Position.own_eq_ok (p := rootPosition (.hash kvs') customFormats) rfl h.ne_nil).2
    ⟨format, hformat, type, htype, rfl⟩

theorem typeValidationFunction_of_get (hnew : Value.get kvs typeStr = none) :
    typeValidationFunction kvs = .ok (.validateByDataType, []) := by
  rw [typeValidationFunction, Value.aref, hnew]
  rfl

/-- A node with the parts of another is the other with its own type. -/
theorem eq_withType {p' : Position} {R R' : Position → CompiledSchema → Prop}
    {base c' : CompiledSchema} (happ : (p'.applicators rt).Rel R base.applicators)
    (hnested : List.Forall₂ R (p'.nestedPositions rt) base.nestedSchemas)
    (h' : p'.Assembled rt R' c') (hunique : ∀ q d d', R q d → R' q d' → d = d')
    (hown : base.own.withType type = c'.own) (href : base.refSchema = c'.refSchema) :
    c' = base.withType type := by
  refine (@CompiledSchema.eq_of_own (base.withType type) c' hown ?_ ?_ href).symm
  · exact Applicators.eq_of_rel (happ.comp hunique h'.applicators)
  · have hnested := forall₂_unique hunique hnested h'.nested
    rwa [List.forall₂_eq_eq_eq] at hnested

/-- The format of an object that compiles. -/
theorem format_of_sound
    (hsound : (rootPosition (.hash kvs) customFormats).Sound rt) : ∃ format, formatFields
      ((rootPosition (.hash kvs) customFormats).resolved rt).2.customFormats
        (Value.aref kvs formatStr) = .ok format := by
  rcases eq_or_ne kvs [] with rfl | hne
  · exact ⟨_, rfl⟩
  · obtain ⟨cs, hcs⟩ := hsound.own
    obtain ⟨format, hformat, -⟩ :=
      (Position.own_eq_ok (p := rootPosition (.hash kvs) customFormats) rfl hne).1 hcs
    exact ⟨format, hformat⟩

/-- An object with an accepted type compiles when it does without the type. -/
theorem compileSchema_typed_ok (h : Inserted typeStr L kvs kvs')
    (htype : typeValidationFunction kvs' = .ok type)
    (hc : ∃ c, compileSchema rt customFormats (.hash kvs) = .ok c) :
    ∃ c', compileSchema rt customFormats (.hash kvs') = .ok c' := by
  obtain ⟨hsound, htarget⟩ := compileSchema_ok_iff.1 hc
  obtain ⟨below, hpos, hpos'⟩ := @positionsOf_typed rt customFormats _ _ _ h
  rw [hpos, List.forall_mem_cons] at hsound htarget
  obtain ⟨format, hformat⟩ := format_of_sound hsound.1
  refine compileSchema_ok_iff.2 ⟨?_, ?_⟩
  · rw [hpos', List.forall_mem_cons]
    refine ⟨⟨⟨_, own_typed h hformat htype⟩, ?_⟩, hsound.2⟩
    rw [Position.ValidPatterns, root_applicators h]
    exact hsound.1.patterns
  · rw [hpos', keysOf_typed h, List.forall_mem_cons]
    refine ⟨?_, htarget.2⟩
    rw [Position.target, root_resolved h]
    exact htarget.1

/-- **Adding a type changes the dispatch only.** The empty object, which accepts everything, stands
for one without keywords. -/
theorem compileSchema_typed (h : Inserted typeStr L kvs kvs') (hnew : Value.get kvs typeStr = none)
    (htype : typeValidationFunction kvs' = .ok type) {c : CompiledSchema}
    (hc : compileSchema rt customFormats (.hash kvs) = .ok c) :
    ∃ base format, compileSchema rt customFormats (.hash kvs') = .ok (base.withType type) ∧
      base.own = Position.ownFields ((rootPosition (.hash kvs) customFormats).resolved rt).1 kvs
        format (.validateByDataType, []) ∧
      (base = c ∨ kvs = [] ∧ c.validationFunction = some .noOpValidate ∧
        base = .plain [] rootPathStr) := by
  obtain ⟨c', hc'⟩ := compileSchema_typed_ok h htype ⟨c, hc⟩
  obtain ⟨hprop, hassembled⟩ := compileSchema_built hc
  obtain ⟨hprop', hassembled'⟩ := compileSchema_built hc'
  rw [keysOf_typed h] at hprop' hassembled'
  rw [Position.target, root_resolved h] at hprop'
  obtain ⟨format, hformat⟩ := format_of_sound
    ((compileSchema_ok_iff.1 ⟨c, hc⟩).1 _ positionsOf_root)
  have hown' := Except.ok.inj ((own_typed h hformat htype).symm.trans hassembled'.own)
  rcases eq_or_ne kvs [] with rfl | hne
  · -- the parts of the empty object are unset
    have hformat : format = ⟨.noOpFormatValidate, none, none⟩ := (Except.ok.inj hformat).symm
    subst hformat
    refine ⟨.plain [] rootPathStr, ⟨.noOpFormatValidate, none, none⟩, ?_, rfl,
      .inr ⟨rfl, ?_, rfl⟩⟩
    · rw [hc']
      refine congrArg _ (eq_withType (R := fun _ _ => False) ?_ ?_ hassembled'
        (fun _ _ _ hq => hq.elim) hown' (Except.ok.inj hprop'))
      · rw [root_applicators h]
        exact Position.applicatorsOf_nil _ _ _ [] rootPathStr
      · rw [root_nestedPositions h]
        exact .nil
    · exact congrArg CompiledSchema.validationFunction (Except.ok.inj hassembled.own).symm
  · obtain ⟨format', hformat', type', htype', hown⟩ :=
      (Position.own_eq_ok (p := rootPosition (.hash kvs) customFormats) rfl hne).1 hassembled.own
    obtain rfl : format = format' := Except.ok.inj (hformat.symm.trans hformat')
    obtain rfl : type' = (.validateByDataType, []) :=
      Except.ok.inj (htype'.symm.trans (typeValidationFunction_of_get hnew))
    refine ⟨c, format, ?_, hown.symm, .inl rfl⟩
    have happ := hassembled.applicators
    have hnested := hassembled.nested
    rw [← root_applicators h] at happ
    rw [← root_nestedPositions h] at hnested
    rw [hc']
    refine congrArg _ (eq_withType happ hnested hassembled' (fun _ _ _ => Position.Built.unique
      fun _ _ _ ht ht' => Except.ok.inj (ht.symm.trans ht')) ?_
        (Except.ok.inj (hprop.symm.trans hprop')))
    rw [← hown', ← hown]
    rfl

end Typed

end FastJsonSchema
