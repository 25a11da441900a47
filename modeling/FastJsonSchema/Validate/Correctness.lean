import FastJsonSchema.Compile.Initialised
import FastJsonSchema.Ruby.Equality
import FastJsonSchema.Validate.Document
import FastJsonSchema.Validate.Solution
import FastJsonSchema.Validate.Types

/-!
# A compiled document means what the document means

The checks of a node are those of its keywords (`typeHolds_eq`), and the children of a node are
compiled from the subschemas, so the meanings of the nodes solve the equation of the document
(`interprets_means`).
-/

namespace FastJsonSchema

open Ruby Traversal CompiledSchema

/-! ## The keywords of a node -/

section Checks

variable {rt : Runtime} {customFormats : Option (List (RString × ℕ))} {kvs : List (Value × Value)}
  {cs : CompiledSchema} {d : Datum}

theorem decide_le_eq (m n : ℤ) : decide (m ≤ n) = !decide (n < m) := by
  rw [← decide_not, decide_eq_decide, not_lt]

theorem decide_lt_eq (m n : ℤ) : decide (m < n) = !decide (n ≤ m) := by
  rw [← decide_not, decide_eq_decide, not_le]

theorem converted_passes {α : Type} (x : Except RubyError α) (k : α → Code) :
    (converted x k).passes = x.toOption.any fun a => (k a).passes := by
  cases x <;> rfl

theorem violation_passes {b b' : Bool} {type : RString} (h : b' = !b) :
    (Prog.when b (yieldError cs d type)).passes = b' := (Prog.passes_failWhen _ _).trans h.symm

theorem numericHolds_eq {keyword : RString} {int : ℤ → Code} {float : Double → Code}
    {int' : ℤ → Bool} {float' : Double → Bool} (hi : ∀ m, (int m).passes = int' m)
    (hf : ∀ m, (float m).passes = float' m) :
    (numericKeyword (numberKeyword kvs keyword) int float).passes
      = numericHolds kvs keyword int' float' := by
  unfold numericKeyword numericHolds
  cases numberKeyword kvs keyword with
  | none => rfl
  | some v =>
    cases v with
    | int n =>
      dsimp only
      rw [converted_passes]
      exact congrArg (Option.any · _) (funext hi)
    | float x => exact hf x
    | _ => rfl

theorem sizeHolds_eq {keyword type : RString} {num : Value → Except RubyError ℤ}
    {violated holds : ℤ → Bool} (h : ∀ m, holds m = !violated m) :
    (checkSize cs d type num (numberKeyword kvs keyword) violated).passes
      = sizeHolds kvs num keyword holds := by
  unfold checkSize sizeHolds
  cases numberKeyword kvs keyword with
  | none => rfl
  | some v =>
    dsimp only [Option.all_some]
    rw [converted_passes]
    exact congrArg (Option.any · _) (funext fun m => violation_passes (h m))

theorem block_passes (ps : List Code) : (Prog.block ps).passes = ps.all Prog.passes := by
  induction ps with
  | nil => rfl
  | cons p ps ih => rw [Prog.block, Prog.passes, ih, List.all_cons]

/-- What a node has of its own, from the keywords of an object. -/
structure Carries (customFormats : Option (List (RString × ℕ))) (kvs : List (Value × Value))
    (cs : CompiledSchema) : Prop where
  own : ∃ scope format type, formatFields customFormats (Value.aref kvs formatStr) = .ok format ∧
    typeValidationFunction kvs = .ok type ∧
      Position.ownFields scope kvs format type = cs.own

namespace Carries

variable (h : Carries customFormats kvs cs)

include h

/-- A field that does not depend on the place of the node. -/
theorem field {α : Type} {g : CompiledSchema → α} {a : α} (hown : g cs = g cs.own)
    (hg : ∀ scope format type, g (Position.ownFields scope kvs format type) = a) : g cs = a := by
  obtain ⟨scope, format, type, -, -, hcs⟩ := h.own
  rw [hown, ← hcs, hg]

theorem integerHolds_eq {n : ℤ} (hd : d.value = .int n) :
    (validateInteger rt cs d).passes = integerHolds rt kvs n := by
  have hmultipleOf : cs.multipleOfVal = numberKeyword kvs multipleOfStr :=
    h.field rfl fun _ _ _ => rfl
  have hmaximum : cs.maximumVal = numberKeyword kvs maximumStr := h.field rfl fun _ _ _ => rfl
  have hexclusiveMaximum : cs.exclusiveMaximumVal = numberKeyword kvs exclusiveMaximumStr :=
    h.field rfl fun _ _ _ => rfl
  have hminimum : cs.minimumVal = numberKeyword kvs minimumStr := h.field rfl fun _ _ _ => rfl
  have hexclusiveMinimum : cs.exclusiveMinimumVal = numberKeyword kvs exclusiveMinimumStr :=
    h.field rfl fun _ _ _ => rfl
  rw [validateInteger, hd]
  dsimp only
  rw [converted_passes, integerHolds]
  refine congrArg (Option.any · _) (funext fun n => ?_)
  rw [block_passes, hmultipleOf, hmaximum, hexclusiveMaximum, hminimum, hexclusiveMinimum]
  simp only [checkNumeric, List.all_cons, List.all_nil, Bool.and_true, ← Bool.and_assoc]
  refine congrArg₂ _ (congrArg₂ _ (congrArg₂ _ (congrArg₂ _ ?_ ?_) ?_) ?_) ?_
  · refine numericHolds_eq (fun m => ?_) fun m => violation_passes rfl
    split_ifs with htrap
    · rw [decide_eq_true htrap]
      rfl
    · rw [decide_eq_false htrap]
      exact violation_passes (by simp)
  · exact numericHolds_eq (fun m => violation_passes (decide_le_eq _ _)) fun m =>
      violation_passes rfl
  · exact numericHolds_eq (fun m => violation_passes (decide_lt_eq _ _)) fun m =>
      violation_passes rfl
  · exact numericHolds_eq (fun m => violation_passes (decide_le_eq _ _)) fun m =>
      violation_passes rfl
  · exact numericHolds_eq (fun m => violation_passes (decide_lt_eq _ _)) fun m =>
      violation_passes rfl

theorem doubleHolds_eq (x : Double) : (validateDouble rt cs d x).passes = doubleHolds rt kvs x := by
  have hmultipleOf : cs.multipleOfVal = numberKeyword kvs multipleOfStr :=
    h.field rfl fun _ _ _ => rfl
  have hmaximum : cs.maximumVal = numberKeyword kvs maximumStr := h.field rfl fun _ _ _ => rfl
  have hexclusiveMaximum : cs.exclusiveMaximumVal = numberKeyword kvs exclusiveMaximumStr :=
    h.field rfl fun _ _ _ => rfl
  have hminimum : cs.minimumVal = numberKeyword kvs minimumStr := h.field rfl fun _ _ _ => rfl
  have hexclusiveMinimum : cs.exclusiveMinimumVal = numberKeyword kvs exclusiveMinimumStr :=
    h.field rfl fun _ _ _ => rfl
  rw [validateDouble, doubleHolds, block_passes, hmultipleOf, hmaximum, hexclusiveMaximum, hminimum,
    hexclusiveMinimum]
  simp only [checkNumeric, List.all_cons, List.all_nil, Bool.and_true, ← Bool.and_assoc]
  refine congrArg₂ _ (congrArg₂ _ (congrArg₂ _ (congrArg₂ _ ?_ ?_) ?_) ?_) ?_
  all_goals exact numericHolds_eq (fun m => violation_passes rfl) fun m => violation_passes rfl

theorem formatHolds_eq {s : RString} (hd : d.value = .str s) :
    (validateFormat rt cs d s).passes = formatHolds rt customFormats kvs s := by
  obtain ⟨scope, format, type, hformat, -, hcs⟩ := h.own
  have hfunction : cs.formatValidationFunction = some format.function :=
    congrArg CompiledSchema.formatValidationFunction hcs.symm
  have hcallable : cs.customFormatCallableVal = format.callable :=
    congrArg CompiledSchema.customFormatCallableVal hcs.symm
  have herrorKey : cs.customFormatErrorKeyVal = format.errorKey :=
    congrArg CompiledSchema.customFormatErrorKeyVal hcs.symm
  rw [validateFormat, validateCustomFormat, formatHolds, stringKeyword, hfunction, hcallable,
    herrorKey, hd]
  unfold formatFields at hformat
  cases hname : Value.aref kvs formatStr with
  | str name =>
    rw [hname] at hformat
    dsimp only at hformat ⊢
    rw [Option.all_some]
    cases hlookup : (customFormats.getD []).lookup name with
    | some callable =>
      rw [hlookup] at hformat
      obtain rfl := Except.ok.inj hformat
      refine violation_passes (Bool.eq_iff_iff.2 ?_)
      simp
    | none =>
      rw [hlookup] at hformat
      dsimp only at hformat
      split_ifs at hformat
      obtain rfl := Except.ok.inj hformat
      dsimp only [builtInFormat]
      cases Format.all.find? (·.name == name) with
      | none => rfl
      | some f => exact violation_passes (by simp)
  | _ =>
    rw [hname] at hformat
    obtain rfl := Except.ok.inj hformat
    rfl

theorem stringHolds_eq {s : RString} (hd : d.value = .str s) :
    (validateString rt cs d).passes = stringHolds rt customFormats kvs s := by
  have hmaxLength : cs.maxLengthVal = numberKeyword kvs maxLengthStr := h.field rfl fun _ _ _ => rfl
  have hminLength : cs.minLengthVal = numberKeyword kvs minLengthStr := h.field rfl fun _ _ _ => rfl
  have hpattern : cs.patternVal = stringKeyword kvs patternStr := h.field rfl fun _ _ _ => rfl
  rw [validateString, hd]
  dsimp only
  rw [block_passes, stringHolds, hmaxLength, hminLength]
  simp only [List.all_cons, List.all_nil, Bool.and_true, ← Bool.and_assoc]
  refine congrArg₂ _ (congrArg₂ _ (congrArg₂ _ ?_ ?_) ?_) ?_
  · exact sizeHolds_eq fun m => decide_le_eq _ _
  · exact sizeHolds_eq fun m => decide_le_eq _ _
  · rw [validatePattern, patternHolds, hpattern]
    cases stringKeyword kvs patternStr with
    | none => rfl
    | some pattern =>
      dsimp only [Option.all_some]
      split_ifs with hvalid
      · rw [converted_passes, hvalid]
        cases rt.regMatch pattern s with
        | error e => rfl
        | ok b => exact (violation_passes rfl).trans (by cases b <;> rfl)
      · rw [eq_false_of_ne_true hvalid]
        rfl
  · exact h.formatHolds_eq hd

theorem arrayHolds_eq (xs : List Value) :
    (validateArraySizes cs d xs).passes = arrayHolds kvs xs := by
  have hmaxItems : cs.maxItemsVal = numberKeyword kvs maxItemsStr := h.field rfl fun _ _ _ => rfl
  have hminItems : cs.minItemsVal = numberKeyword kvs minItemsStr := h.field rfl fun _ _ _ => rfl
  have hunique : cs.uniqueItemsVal = boolKeyword kvs uniqueItemsStr := h.field rfl fun _ _ _ => rfl
  rw [validateArraySizes, arrayHolds, block_passes, hmaxItems, hminItems, hunique]
  simp only [List.all_cons, List.all_nil, Bool.and_true, ← Bool.and_assoc]
  refine congrArg₂ _ (congrArg₂ _ ?_ ?_) ?_
  · exact sizeHolds_eq fun m => decide_le_eq _ _
  · exact sizeHolds_eq fun m => decide_le_eq _ _
  · refine violation_passes ?_
    have hle := Value.length_uniq_le xs
    rw [Bool.eq_iff_iff, Bool.or_eq_true, bne_iff_ne, beq_iff_eq, Bool.not_eq_true',
      decide_eq_false_iff_not]
    by_cases hu : boolKeyword kvs uniqueItemsStr = some true
    · simp only [hu, ne_eq, not_true, true_and, false_or]
      omega
    · simp only [hu, ne_eq, not_false_iff, false_and, true_or]

theorem objectHolds_eq (members : List (Value × Value)) :
    (validateObjectSizes cs d members).passes = objectHolds kvs members := by
  have hmaxProperties : cs.maxPropertiesVal = numberKeyword kvs maxPropertiesStr :=
    h.field rfl fun _ _ _ => rfl
  have hminProperties : cs.minPropertiesVal = numberKeyword kvs minPropertiesStr :=
    h.field rfl fun _ _ _ => rfl
  have hrequired : cs.requiredVal = arrayKeyword kvs requiredStr := h.field rfl fun _ _ _ => rfl
  rw [validateObjectSizes, objectHolds, block_passes, hmaxProperties, hminProperties, hrequired]
  simp only [List.all_cons, List.all_nil, Bool.and_true, ← Bool.and_assoc]
  refine congrArg₂ _ (congrArg₂ _ ?_ ?_) ?_
  · exact sizeHolds_eq fun m => decide_le_eq _ _
  · exact sizeHolds_eq fun m => decide_le_eq _ _
  · cases arrayKeyword kvs requiredStr with
    | none => rfl
    | some required =>
      dsimp only [Option.all_some]
      rw [validateRequired, block_passes, List.all_map]
      refine list_all_congr fun name _ => violation_passes ?_
      cases Value.lookup members name <;> rfl

end Carries

/-! ## The type of a node -/

/-- The types of a list that is accepted are those it names. -/
theorem mem_parseTypes (flag : TypeFlag) : ∀ {names : List Value} {acc flags : List TypeFlag},
    parseTypes names acc = .ok flags →
      (flag ∈ flags ↔ flag ∈ acc ∨ names.any (namesType flag) = true) := by
  intro names
  induction names with
  | nil =>
    intro acc flags h
    obtain rfl := Except.ok.inj h
    simp
  | cons name names ih =>
    intro acc flags h
    cases name with
    | str name =>
      rw [parseTypes] at h
      cases hname : typeFlag name with
      | none =>
        rw [hname] at h
        cases h
      | some flag' =>
        rw [hname] at h
        dsimp only at h
        split_ifs at h
        have hnames : namesType flag (.str name) = true ↔ flag = flag' := by
          rw [namesType, hname, beq_iff_eq, Option.some.injEq, eq_comm]
        rw [ih h, List.mem_append, List.mem_singleton, List.any_cons, Bool.or_eq_true, hnames,
          or_assoc]
    | _ => cases h

/-- How the type of a node is checked: not at all, by one function for a type name, by the class of
the value, or by a list of types. -/
inductive Route (kvs : List (Value × Value)) (cs : CompiledSchema) : Prop
  | noType (ht : cs.typeValidationFunction = some .noOpValidate) (hn : namesNoType kvs = true)
  | single (flag : TypeFlag) (ht : cs.typeValidationFunction = some flag.function)
      (hn : namesNoType kvs = false) (ha : ∀ flag', typeAdmits kvs flag' = (flag == flag'))
      (hs : ∃ name, Value.aref kvs typeStr = .str name)
  | byDataType (ht : cs.typeValidationFunction = some .validateByDataType)
      (hn : namesNoType kvs = false) (ha : ∀ flag', typeAdmits kvs flag' = true)
      (hs : ∀ name, Value.aref kvs typeStr ≠ .str name)
  | byTypeList (ht : cs.typeValidationFunction = some .validateByTypeList)
      (hn : namesNoType kvs = false) (ha : ∀ flag', typeAdmits kvs flag' = (flag' ∈ cs.typeFlags))
      (hs : ∀ name, Value.aref kvs typeStr ≠ .str name)

theorem Carries.route (h : Carries customFormats kvs cs) : Route kvs cs := by
  obtain ⟨scope, format, type, -, htype, hcs⟩ := h.own
  have hfunction : cs.typeValidationFunction = some type.1 :=
    congrArg CompiledSchema.typeValidationFunction hcs.symm
  have hflags : cs.typeFlags = type.2 := congrArg CompiledSchema.typeFlags hcs.symm
  unfold typeValidationFunction at htype
  cases hval : Value.aref kvs typeStr with
  | arr names =>
    rw [hval] at htype
    obtain ⟨flags, hparse, rfl⟩ := map_eq_ok.1 htype
    refine .byTypeList hfunction (by rw [namesNoType, hval]) (fun flag' => ?_) (by simp [hval])
    rw [typeAdmits, hval, hflags]
    unfold parseTypeArray at hparse
    split_ifs at hparse
    simpa using (mem_parseTypes flag' hparse).symm
  | str name =>
    rw [hval] at htype
    obtain rfl := Except.ok.inj htype
    cases hname : typeFlag name.cString with
    | none =>
      refine .noType (hfunction.trans ?_) (by rw [namesNoType, hval]; simp [hname])
      unfold typeFlag at hname
      split_ifs at hname with h₁ h₂ h₃ h₄ h₅ h₆ h₇
      simp only [h₁, h₂, h₃, h₄, h₅, h₆, h₇, if_false]
    | some flag =>
      refine .single flag (hfunction.trans ?_) (by rw [namesNoType, hval]; simp [hname])
        (fun flag' => ?_) ⟨name, hval⟩
      · unfold typeFlag at hname
        split_ifs at hname with h₁ h₂ h₃ h₄ h₅ h₆ h₇
        all_goals
          obtain rfl := Option.some.inj hname
          simp_all only [if_true, if_false, TypeFlag.function]
      · rw [typeAdmits, hval]
        dsimp only
        rw [hname]
        rfl
  | _ =>
    rw [hval] at htype
    obtain rfl := Except.ok.inj htype
    refine .byDataType hfunction (by rw [namesNoType, hval]) (fun flag' => ?_) (by simp [hval])
    rw [typeAdmits, hval]

/-- What a type name admits of the arrays and the objects. -/
theorem Route.admits_eq (hroute : Route kvs cs) (hn : namesNoType kvs = false) {flag : TypeFlag}
    (hflag : flag = .array ∨ flag = .object) :
    admits cs flag flag.function = typeAdmits kvs flag := by
  cases hroute with
  | noType _ hn' => exact absurd (hn'.symm.trans hn) (by decide)
  | single own ht _ ha _ =>
    rw [admits, ht, ha]
    rcases hflag with rfl | rfl <;> cases own <;> rfl
  | byDataType ht _ ha _ => rw [admits, ht, ha]
  | byTypeList ht _ ha _ =>
    rw [admits, ht, Bool.eq_iff_iff, decide_eq_true_iff, ha]

/-- The check of the type of a value without elements and properties. -/
theorem Carries.scalar_eq (h : Carries customFormats kvs cs) (hn : namesNoType kvs = false)
    {a : Applicators (Value → Bool)} {v : Value} (ha : ∀ xs, v ≠ .arr xs)
    (ho : ∀ kvs, v ≠ .hash kvs) :
    (validateType rt cs (.root v)).passes = typedHolds rt customFormats kvs a v := by
  have hint : ∀ n, (validateInteger rt cs (.root (.int n))).passes = integerHolds rt kvs n :=
    fun n => h.integerHolds_eq rfl
  have hnum : ∀ n, (validateNumber rt cs (.root (.int n))).passes
      = (num2long (.int n)).toOption.any fun m => doubleHolds rt kvs (.ofInt m) := by
    intro n
    show (converted (num2long (.int n)) fun m => validateDouble rt cs _ (.ofInt m)).passes = _
    rw [converted_passes]
    exact congrArg (Option.any · _) (funext fun m => h.doubleHolds_eq _)
  have hfloat : ∀ x, (validateNumber rt cs (.root (.float x))).passes = doubleHolds rt kvs x :=
    fun x => h.doubleHolds_eq x
  have hstr : ∀ s, (validateString rt cs (.root (.str s))).passes
      = stringHolds rt customFormats kvs s := fun s => h.stringHolds_eq rfl
  cases h.route with
  | noType _ hn' => exact absurd (hn'.symm.trans hn) (by decide)
  | single flag ht _ hadmits hs =>
    obtain ⟨name, hs⟩ := hs
    rw [validateType, ht, typedHolds.eq_def]
    simp only [hadmits, hs]
    cases v with
    | arr xs => exact absurd rfl (ha xs)
    | hash kvs => exact absurd rfl (ho kvs)
    | int n =>
      cases flag with
      | integer => exact hint n
      | number => exact hnum n
      | _ => rfl
    | float x =>
      cases flag with
      | number => exact hfloat x
      | _ => rfl
    | str s =>
      cases flag with
      | string => exact hstr s
      | _ => rfl
    | _ => cases flag <;> rfl
  | byDataType ht _ hadmits hs =>
    rw [validateType, ht, typedHolds.eq_def]
    simp only [hadmits, validateByDataType, Datum.root]
    cases v with
    | arr xs => exact absurd rfl (ha xs)
    | hash kvs => exact absurd rfl (ho kvs)
    | int n => exact hint n
    | float x => exact hfloat x
    | str s => exact hstr s
    | _ => rfl
  | byTypeList ht _ hadmits hs =>
    have hpasses : ∀ (flag : TypeFlag) (p : Code),
        (if flag ∈ cs.typeFlags then p else yieldError cs (.root v) (str "type")).passes
          = (typeAdmits kvs flag && p.passes) := by
      intro flag p
      have := hadmits flag
      by_cases hmem : flag ∈ cs.typeFlags
      · rw [if_pos hmem]
        simp_all
      · rw [if_neg hmem]
        simp_all [yieldError, Prog.passes]
    rw [validateType, ht, typedHolds.eq_def]
    dsimp only [validateByTypeList, Datum.root]
    cases v with
    | arr xs => exact absurd rfl (ha xs)
    | hash kvs => exact absurd rfl (ho kvs)
    | nil => exact (hpasses .null _).trans (Bool.and_true _)
    | bool b => exact (hpasses .bool _).trans (Bool.and_true _)
    | int n =>
      by_cases hi : TypeFlag.integer ∈ cs.typeFlags
      · have hadm : typeAdmits kvs .integer = true := by simp [hadmits, hi]
        simp only [hi, hadm, if_true]
        exact hint n
      · have hadm : typeAdmits kvs .integer = false :=
          Bool.eq_false_iff.2 (by simp only [ne_eq, hadmits, hi, not_false_iff])
        simp only [hi, hadm, if_false, Bool.false_eq_true]
        refine (hpasses .number _).trans ?_
        rw [← hnum n]
        rfl
    | float x =>
      exact (hpasses .number _).trans (congrArg (typeAdmits kvs .number && ·) (hfloat x))
    | str s => exact (hpasses .string _).trans (congrArg (typeAdmits kvs .string && ·) (hstr s))
    | other id =>
      dsimp only
      split
      · exact absurd ‹_› (hs _)
      · rfl

/-- **The keywords of the type of a value**, checked by a node. -/
theorem Carries.typed_eq (h : Carries customFormats kvs cs) (f : CompiledSchema → Value → Bool)
    (v : Value) :
    (cs.typeValidationFunction == some .noOpValidate
      || typeHolds rt cs v && (cs.applicators.map f).parts rt cs v)
        = (namesNoType kvs || typedHolds rt customFormats kvs (cs.applicators.map f) v) := by
  have hnoOp : (cs.typeValidationFunction == some .noOpValidate) = namesNoType kvs := by
    cases h.route with
    | noType ht hn => rw [ht, hn]; rfl
    | single flag ht hn _ _ => rw [ht, hn]; cases flag <;> rfl
    | byDataType ht hn _ _ => rw [ht, hn]; rfl
    | byTypeList ht hn _ _ => rw [ht, hn]; rfl
  rw [hnoOp]
  cases hn : namesNoType kvs with
  | true => rfl
  | false =>
    rw [Bool.false_or, Bool.false_or]
    have hmaxContains : cs.maxContainsVal = numberKeyword kvs maxContainsStr :=
      h.field rfl fun _ _ _ => rfl
    have hminContains : cs.minContainsVal = numberKeyword kvs minContainsStr :=
      h.field rfl fun _ _ _ => rfl
    cases v with
    | arr xs =>
      rw [typeHolds, typedHolds, Applicators.parts, Applicators.containing, containsHolds,
        h.arrayHolds_eq, hmaxContains, hminContains, ← h.route.admits_eq hn (.inl rfl)]
      rfl
    | hash members =>
      rw [typeHolds, typedHolds, Applicators.parts, h.objectHolds_eq,
        ← h.route.admits_eq hn (.inr rfl)]
      rfl
    | _ => exact (Bool.and_true _).trans (h.scalar_eq hn (by simp) (by simp))

end Checks

/-! ## The positions of a document -/

namespace Position

variable {rt : Runtime} {customFormats : Option (List (RString × ℕ))} {doc : Value}
  {parent : CompiledSchema} {kvs : List (Value × Value)} {ctx : CompileContext} {keyword : RString}
  {f : Value → Value → Bool}

/-- A document has one table of custom formats. -/
theorem customFormats_eq : ∀ p ∈ positionsOf rt customFormats doc,
    (p.resolved rt).2.customFormats = customFormats := by
  have hresolved : ∀ p : Position,
      (p.resolved rt).2.customFormats = p.ctx.customFormats := by
    intro p
    unfold resolved readScope resolveUriScope
    dsimp only
    split <;> rfl
  have hnote : ∀ (ctx : CompileContext) (ts : List RString),
      (ctx.note ts).customFormats = ctx.customFormats := by
    intro ctx ts
    unfold CompileContext.note
    split <;> rfl
  have hctx : ∀ p ∈ positionsOf rt customFormats doc, p.ctx.customFormats = customFormats := by
    apply positionsOf_induct
    · rfl
    · intro p _ ih s v _
      rw [below_ctx]
      cases s with
      | keyword k => exact (hresolved p).trans ih
      | _ => exact (hnote _ _).trans ((hresolved p).trans ih)
  intro p hp
  rw [hresolved, hctx p hp]

theorem one_map : (one parent kvs ctx keyword).map (fun q => f q.value)
    = (subschema kvs keyword).map f := by
  unfold one subschema
  dsimp only
  split_ifs <;> rfl

theorem elements_map (xs : List Value) : ∀ i : ℕ,
    (elements parent ctx keyword i xs).map (fun q => f q.value) = xs.map f := by
  induction xs with
  | nil => exact fun _ => rfl
  | cons x xs ih =>
    intro i
    rw [elements, List.map_cons, List.map_cons, ih]

theorem many_map : (many parent kvs ctx keyword).map (·.map fun q => f q.value)
    = (arrayKeyword kvs keyword).map (·.map f) := by
  unfold many arrayKeyword
  cases Value.aref kvs keyword with
  | arr xs => exact congrArg some (elements_map xs 0)
  | _ => rfl

theorem named_map (value : Value → Value) : (named parent kvs ctx keyword value).map
    (·.map fun e => (e.1, f e.2.value))
      = (subschemas kvs keyword).map (·.map fun e => (e.1, f (value e.2))) := by
  unfold named subschemas
  cases Value.aref kvs keyword with
  | hash members =>
    rw [Option.map_some, Option.map_some, List.map_map]
    rfl
  | _ => rfl

/-- The meanings of the positions below are those of the subschemas. -/
theorem applicatorsOf_map (hf : ∀ s, f (dependencySchema s) = dependencyHolds f s) :
    (applicatorsOf parent kvs ctx).map (fun q => f q.value) = subschemaMeanings kvs f := by
  simp only [applicatorsOf, Applicators.map, subschemaMeanings, one_map, many_map, named_map, hf,
    id_eq]

end Position

/-- An array of names means their presence. -/
theorem means_dependencySchema (rt : Runtime) (customFormats : Option (List (RString × ℕ)))
    (s : Value) : means rt customFormats (dependencySchema s)
      = dependencyHolds (means rt customFormats) s := by
  funext v
  cases s with
  | arr names =>
    rw [dependencySchema, means_eq]
    cases v with
    | hash members =>
      set a := subschemaMeanings [(.str requiredStr, .arr names), (.str typeStr, .str objectStr)]
        (means rt customFormats) with ha
      have hproperties : ((Value.stringEntries members).all fun kv => a.property rt kv.1 kv.2)
          = true := List.all_eq_true.2 fun kv _ => rfl
      have hmeaning : documentMeaning rt customFormats (means rt customFormats)
          (.hash [(.str requiredStr, .arr names), (.str typeStr, .str objectStr)]) (.hash members)
            = (((names.all fun name => (Value.lookup members name).isSome) &&
              ((Value.stringEntries members).all fun kv => a.property rt kv.1 kv.2)) && true && true
                && true && true) := rfl
      rw [hmeaning, hproperties]
      simp only [Bool.and_true]
      rfl
    | _ => rfl
  | _ => rfl

section Compiled

variable {rt : Runtime} {customFormats : Option (List (RString × ℕ))} {doc : Value}
  {root : CompiledSchema} {f : CompiledSchema → Value → Bool}

/-- What a node has of its own comes from the members of its position. -/
theorem Position.Built.carries {T : Position → CompiledSchema → Prop} {n : ℕ} {p : Position}
    {c : CompiledSchema} (h : p.Built rt T n c) (hp : p ∈ positionsOf rt customFormats doc)
    {kv : Value × Value} {kvs : List (Value × Value)} (hv : p.value = .hash (kv :: kvs)) :
    Carries customFormats (kv :: kvs) c := by
  have hm : p.members = kv :: kvs := by rw [Position.members, hv]
  have hown := h.own
  rw [Position.own_eq_ok (hv.trans (congrArg Value.hash hm.symm)) (by rw [hm]; simp), hm,
    Position.customFormats_eq p hp] at hown
  obtain ⟨format, hformat, type, htype, hcs⟩ := hown
  exact ⟨_, format, type, hformat, htype, hcs⟩

/-- **What a node means**, in the terms of its position: a reference means its target, and any other
schema what its keywords say over the meanings of its children. -/
theorem Position.Built.meaningIn_eq {T : Position → CompiledSchema → Prop} {n : ℕ} {p : Position}
    {c : CompiledSchema} (h : p.Built rt T n c) (hp : p ∈ positionsOf rt customFormats doc)
    (heap : Addr → Option CompiledSchema) (v : Value) :
    meaningIn rt heap f c v =
      if p.refVal.isSome then (c.refSchema.bind heap).any (f · v)
      else schemaMeaning rt customFormats (c.applicators.map f) p.value v := by
  have hown := h.own
  rw [Position.own] at hown
  cases hv : p.value with
  | hash kvs =>
    cases kvs with
    | nil =>
      rw [hv] at hown
      have hfunction : c.validationFunction = some .noOpValidate :=
        congrArg CompiledSchema.validationFunction (Except.ok.inj hown).symm
      rw [meaningIn, hfunction, Position.refVal, Position.members, hv]
      rfl
    | cons kv kvs =>
      have hcarries := h.carries hp hv
      have hconst : c.constVal = Value.get (kv :: kvs) constStr :=
        hcarries.field rfl fun _ _ _ => rfl
      have henum : c.enumVal = arrayKeyword (kv :: kvs) enumStr :=
        hcarries.field rfl fun _ _ _ => rfl
      have hrefVal : c.refVal = p.refVal := h.matches.refVal.trans (Position.resolved_refVal p)
      obtain ⟨scope, format, type, -, -, hcs⟩ := hcarries.own
      have hscope : scope.refVal = p.refVal :=
        (congrArg CompiledSchema.refVal hcs).trans hrefVal
      have hfunction : c.validationFunction
          = some (if p.refVal.isSome then .validateRef else .validate) := by
        rw [← hscope]
        exact congrArg CompiledSchema.validationFunction hcs.symm
      rw [meaningIn, hfunction]
      split_ifs
      · rfl
      · dsimp only
        rw [hcarries.typed_eq f v, hconst, henum, schemaMeaning, keywordsHold]
  | bool b =>
    rw [hv] at hown
    rw [Position.refVal, Position.members, hv]
    cases b with
    | false =>
      have hfunction : c.validationFunction = some .falseValidate :=
        congrArg CompiledSchema.validationFunction (Except.ok.inj hown).symm
      rw [meaningIn, hfunction]
      rfl
    | true =>
      have hfunction : c.validationFunction = some .noOpValidate :=
        congrArg CompiledSchema.validationFunction (Except.ok.inj hown).symm
      rw [meaningIn, hfunction]
      rfl
  | _ =>
    rw [hv] at hown
    have hfunction : c.validationFunction = some .noOpValidate :=
      congrArg CompiledSchema.validationFunction (Except.ok.inj hown).symm
    rw [meaningIn, hfunction, Position.refVal, Position.members, hv]
    rfl

/-- The children of a node have the meanings of the positions below its own. -/
theorem Position.Assembled.map_eq {α : Type} {R : Position → CompiledSchema → Prop} {p : Position}
    {c : CompiledSchema} {F : Position → α} {g : CompiledSchema → α} (h : p.Assembled rt R c)
    (hR : ∀ q ∈ p.children rt, ∀ c' ∈ c.children, R q c' → F q = g c') :
    (p.applicators rt).map F = c.applicators.map g := by
  have hrel : (p.applicators rt).Rel (fun q c' => F q = g c') c.applicators :=
    h.applicators.imp fun q hq c' hc' hr =>
      hR q (by rw [Position.children_eq]; exact List.mem_append_left _ hq) c'
        (by rw [CompiledSchema.children_eq]; exact List.mem_append_left _ hc') hr
  exact hrel.map_eq fun _ _ h => h

/-- **The meanings of the nodes** of a document without references are those of the values they are
compiled from. -/
theorem interprets_means (hf : Interprets rt f root)
    (href : ∀ p ∈ positionsOf rt customFormats doc, p.refVal = none)
    {T : Position → CompiledSchema → Prop} {n : ℕ} : ∀ {p : Position} {c : CompiledSchema},
      p.Built rt T n c → p ∈ positionsOf rt customFormats doc → root.Reach c →
        means rt customFormats p.value = f c := by
  induction n with
  | zero => exact fun h => h.elim
  | succ n ih =>
    intro p c h hp hc
    have hmap : (p.applicators rt).map (fun q => means rt customFormats q.value)
        = c.applicators.map f := by
      refine h.2.map_eq fun q hq c' hc' hb => ?_
      obtain ⟨s, v, hs, rfl⟩ := Position.mem_children.1 hq
      exact ih hb (positionsOf_child hp hs) (hc.child hc')
    have hmembers : schemaMembers p.value = p.members := by
      rw [Position.members]
      cases p.value <;> rfl
    funext v
    rw [hf c hc v, Position.Built.meaningIn_eq h hp, href p hp, means_eq, documentMeaning, ← hmap,
      Position.applicators, Position.applicatorsOf_map (means_dependencySchema rt customFormats),
      hmembers]
    rfl

/-- The nodes of a document without references have no target. -/
theorem refSchema_eq_none (hc : compileSchema rt customFormats doc = .ok root)
    (href : ∀ p ∈ positionsOf rt customFormats doc, p.refVal = none) {c : CompiledSchema}
    (h : root.Reach c) : c.refSchema = none := by
  obtain ⟨p, hp, -, htarget⟩ := compileSchema_spec hc c h
  have hresolved : (p.resolved rt).1.refVal = none := by
    rw [Position.resolved_refVal]
    exact href p hp
  rw [Position.target, hresolved] at htarget
  exact (Except.ok.inj htarget).symm

/-- Without references, every edge leads down the tree. -/
theorem acyclic_of_refFree (hc : compileSchema rt customFormats doc = .ok root)
    (href : ∀ p ∈ positionsOf rt customFormats doc, p.refVal = none) (c : CompiledSchema)
    (h : root.Reach c) : ¬ Relation.TransGen (SameInstance root.deref) c c := by
  have hstep : ∀ a b, root.Reach a → SameInstance root.deref a b →
      root.Reach b ∧ a.addr.length < b.addr.length := by
    intro a b ha hs
    have hb : b ∈ a.children := by
      rcases hs.linked with hb | hb
      · exact hb
      · rw [refSchema_eq_none hc href ha] at hb
        cases hb
    exact ⟨ha.child hb, Position.Built.lengthens (compileSchema_built hc) a ha b hb⟩
  have hlonger : ∀ b, Relation.TransGen (SameInstance root.deref) c b →
      root.Reach b ∧ c.addr.length < b.addr.length := by
    intro b hb
    induction hb with
    | single hs => exact hstep c _ h hs
    | tail _ hs ih =>
      obtain ⟨hreach, hlt⟩ := hstep _ _ ih.1 hs
      exact ⟨hreach, ih.2.trans hlt⟩
  exact fun hcycle => absurd (hlonger c hcycle).2 (lt_irrefl _)

/-- **Compilation keeps the meaning.** When a document without references compiles, `is_valid` ends
on what it compiles to, from a context within `context->path` and as long as the run stays within
it; unless a check of a single value raises an exception or traps, it returns the meaning of the
document. -/
theorem compileSchema_means {overrun : Overrun} {context : Context Token} {d : Datum}
    (hc : compileSchema rt customFormats doc = .ok root)
    (href : ∀ p ∈ positionsOf rt customFormats doc, p.refVal = none)
    (hw : (machine rt root.deref overrun).Within (context.depth + 1) (start context))
    (hs : ∀ n, (machine rt root.deref overrun).Safe
      ((machine rt root.deref overrun).run n (root, d) ((start context).mode true)).2) :
    ∃ r, IsValid rt root.deref overrun (root, d) context r ∧
      ((∃ x, r.1 = .raised x) ∨ r.1 = .crashed ∨
        r.verdict = some (means rt customFormats doc d.value)) := by
  have hroot := acyclic_of_refFree hc href
  obtain ⟨f, hf⟩ := (@existsUnique_interprets rt root hroot).1
  have hmeans : means rt customFormats doc = f root :=
    interprets_means hf href (compileSchema_built hc) positionsOf_root .root
  rw [hmeans]
  exact isValid_interprets hroot hf .root hw hs

theorem compileSchema_means_noA : ∃ root r, compileSchema .bare none noA = .ok root ∧
    IsValid .bare root.deref noOverrun (root, .root (.object [("a", .int 1)])) createContext r ∧
      ((∃ x, r.1 = .raised x) ∨ r.1 = .crashed ∨
        r.verdict = some (means .bare none noA (.object [("a", .int 1)]))) := by
  obtain ⟨root, hroot⟩ : ∃ root, compileSchema .bare none noA = .ok root := ⟨_, rfl⟩
  have hsafe : ∀ n, (machine .bare root.deref noOverrun).Safe ((machine .bare root.deref
      noOverrun).run n (root, .root (.object [("a", .int 1)]))
        ((start createContext).mode true)).2 := by
    obtain rfl := Except.ok.inj (hroot.symm.trans rfl)
    intro n
    refine safe_evaluate_iff.2 ?_
    rcases le_or_gt 3 n with hn | hn
    · rw [Machine.judge_mono _ hn _ _ (by decide)]
      decide
    · obtain rfl | rfl | rfl : n = 0 ∨ n = 1 ∨ n = 2 := by omega
      all_goals decide
  obtain ⟨r, hr, hverdict⟩ := compileSchema_means hroot (by decide) (within_createContext false)
    hsafe
  exact ⟨root, r, hroot, hr, hverdict⟩

end Compiled

end FastJsonSchema
