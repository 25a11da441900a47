import FastJsonSchema.Traversal.Failures
import FastJsonSchema.Validate.Errors

/-!
# What a node reports

The failures of each piece of the evaluator are the errors that the document lists for it, when the
calls have the verdicts `f` and the errors `E`: a node reports what its position reports
(`Position.Built.errors_eq`).
-/

namespace FastJsonSchema

open Ruby Value Traversal Relation CompiledSchema

/-! ## The failures of the pieces -/

section Pieces

variable {f : Call → Bool} {E : Call → List Site} {cs : CompiledSchema} {d : Datum}

theorem failing_cons (path : RString) (check : RString × Bool) (checks : List (RString × Bool)) :
    failing path d (check :: checks) = failing path d [check] ++ failing path d checks := by
  rw [failing, failing, failing, ← List.map_append, ← List.filter_append, List.singleton_append]

theorem failing_append (path : RString) (checks checks' : List (RString × Bool)) :
    failing path d (checks ++ checks') = failing path d checks ++ failing path d checks' := by
  rw [failing, failing, failing, ← List.map_append, ← List.filter_append]

theorem failing_map {α : Type} (path : RString) (l : List α) (g : α → RString × Bool) :
    failing path d (l.map g) = l.flatMap fun x => failing path d [g x] := by
  induction l with
  | nil => rfl
  | cons x l ih => rw [List.map_cons, failing_cons, ih, List.flatMap_cons]

theorem violation_failures (b : Bool) (type : RString) :
    (Prog.when b (yieldError cs d type)).failures f E = failing cs.path d [(type, b)] := by
  cases b <;> rfl

theorem converted_failures {α : Type} (x : Except RubyError α) (k : α → Code) :
    (converted x k).failures f E = x.toOption.elim [] fun a => (k a).failures f E := by
  cases x <;> rfl

theorem ifSet_failures {α : Type} (field : Option α) (k : α → Code) :
    (ifSet field k).failures f E = field.elim [] fun a => (k a).failures f E := by
  cases field <;> rfl

theorem elim_failing {α : Type} (o : Option α) (path type : RString) (b : α → Bool) :
    (o.elim [] fun a => failing path d [(type, b a)]) = failing path d [(type, o.any b)] := by
  cases o <;> rfl

/-- Guarded calls are counted. -/
theorem countValid_failures (calls : List Call) (k : ℕ → Code) : ∀ n,
    (countValid calls n k).failures f E = (k (n + calls.countP f)).failures f E := by
  induction calls with
  | nil => exact fun n => rfl
  | cons c calls ih =>
    intro n
    rw [countValid, Prog.failures_guarded, ih, List.countP_cons]
    cases f c
    · rfl
    · rw [if_pos rfl, if_pos rfl, Nat.add_assoc, Nat.add_comm 1]

theorem untilValid_failures (calls : List Call) (k : Code) :
    (untilValid calls k).failures f E = if calls.any f then [] else k.failures f E := by
  induction calls with
  | nil => rfl
  | cons c calls ih =>
    rw [untilValid, Prog.failures_guarded, List.any_cons]
    cases f c
    · exact ih
    · rfl

/-- Guarded calls are counted up to two. -/
theorem countUpToTwo_failures (calls : List Call) (k : ℕ → Code) : ∀ n, n ≤ 1 →
    (countUpToTwo calls n k).failures f E = (k (min 2 (n + calls.countP f))).failures f E := by
  induction calls with
  | nil =>
    intro n hn
    rw [List.countP_nil, Nat.add_zero, min_eq_right (by omega)]
    rfl
  | cons c calls ih =>
    intro n hn
    rw [countUpToTwo, Prog.failures_guarded, List.countP_cons]
    cases f c
    · exact ih n hn
    · simp only [if_true]
      split_ifs with htwo
      · rw [min_eq_left (by omega), show n + 1 = 2 by omega]
      · rw [ih _ (by omega), Nat.add_right_comm, Nat.add_assoc n]

end Pieces

/-! ## The checks of a node -/

namespace Carries

variable {rt : Runtime} {customFormats : Option (List (RString × ℕ))} {kvs : List (Value × Value)}
  {cs : CompiledSchema} {d : Datum} {f : Call → Bool} {E : Call → List Site}

omit customFormats in
theorem numericFails_eq {keyword : RString} {int : ℤ → Code} {float : Double → Code}
    {type : RString} {int' : ℤ → Bool} {float' : Double → Bool}
    (hi : ∀ m, (int m).failures f E = failing cs.path d [(type, int' m)])
    (hf : ∀ m, (float m).failures f E = failing cs.path d [(type, float' m)]) :
    (numericKeyword (numberKeyword kvs keyword) int float).failures f E
      = failing cs.path d [(type, numericFails kvs keyword int' float')] := by
  unfold numericKeyword numericFails
  cases numberKeyword kvs keyword with
  | none => rfl
  | some v =>
    cases v with
    | int n =>
      dsimp only
      rw [converted_failures]
      simp only [hi]
      exact elim_failing _ _ _ _
    | float x => exact hf x
    | _ => rfl

theorem checkNumeric_eq {keyword type : RString} {int : ℤ → Bool} {float : Double → Bool} :
    (checkNumeric cs d type (numberKeyword kvs keyword) int float).failures f E
      = failing cs.path d [(type, numericFails kvs keyword int float)] :=
  numericFails_eq (fun _ => violation_failures _ _) fun _ => violation_failures _ _

theorem sizeFails_eq {keyword type : RString} {num : Value → Except RubyError ℤ}
    {violated : ℤ → Bool} :
    (checkSize cs d type num (numberKeyword kvs keyword) violated).failures f E
      = failing cs.path d [(type, sizeFails kvs num keyword violated)] := by
  unfold checkSize sizeFails
  cases numberKeyword kvs keyword with
  | none => rfl
  | some v =>
    dsimp only [Option.any_some]
    rw [converted_failures]
    simp only [violation_failures]
    exact elim_failing _ _ _ _

variable (h : Carries customFormats kvs cs)

include h

theorem integerChecks_eq {n : ℤ} (hd : d.value = .int n) :
    (validateInteger rt cs d).failures f E = failing cs.path d (integerChecks rt kvs n) := by
  have hmultipleOf : cs.multipleOfVal = numberKeyword kvs multipleOfStr :=
    h.field rfl fun _ _ _ => rfl
  have hmaximum : cs.maximumVal = numberKeyword kvs maximumStr := h.field rfl fun _ _ _ => rfl
  have hexclusiveMaximum : cs.exclusiveMaximumVal = numberKeyword kvs exclusiveMaximumStr :=
    h.field rfl fun _ _ _ => rfl
  have hminimum : cs.minimumVal = numberKeyword kvs minimumStr := h.field rfl fun _ _ _ => rfl
  have hexclusiveMinimum : cs.exclusiveMinimumVal = numberKeyword kvs exclusiveMinimumStr :=
    h.field rfl fun _ _ _ => rfl
  rw [validateInteger, hd]
  dsimp only
  rw [converted_failures, integerChecks]
  cases (num2long (.int n)).toOption with
  | none => rfl
  | some n =>
    dsimp only [Option.elim_some]
    rw [hmultipleOf, hmaximum, hexclusiveMaximum, hminimum, hexclusiveMinimum]
    simp only [Prog.failures_block, List.flatMap_cons, List.flatMap_nil, checkNumeric_eq,
      failing_cons (cs.path) (_, _) (_ :: _), List.append_nil]
    congr 1
    refine numericFails_eq (fun m => ?_) fun m => violation_failures _ _
    split_ifs with htrap
    · rw [decide_eq_true htrap]
      rfl
    · rw [decide_eq_false htrap]
      exact violation_failures _ _

theorem doubleChecks_eq (x : Double) :
    (validateDouble rt cs d x).failures f E = failing cs.path d (doubleChecks rt kvs x) := by
  have hmultipleOf : cs.multipleOfVal = numberKeyword kvs multipleOfStr :=
    h.field rfl fun _ _ _ => rfl
  have hmaximum : cs.maximumVal = numberKeyword kvs maximumStr := h.field rfl fun _ _ _ => rfl
  have hexclusiveMaximum : cs.exclusiveMaximumVal = numberKeyword kvs exclusiveMaximumStr :=
    h.field rfl fun _ _ _ => rfl
  have hminimum : cs.minimumVal = numberKeyword kvs minimumStr := h.field rfl fun _ _ _ => rfl
  have hexclusiveMinimum : cs.exclusiveMinimumVal = numberKeyword kvs exclusiveMinimumStr :=
    h.field rfl fun _ _ _ => rfl
  rw [validateDouble, doubleChecks, hmultipleOf, hmaximum, hexclusiveMaximum, hminimum,
    hexclusiveMinimum]
  simp only [Prog.failures_block, List.flatMap_cons, List.flatMap_nil, checkNumeric_eq,
    failing_cons cs.path (_, _) (_ :: _), List.append_nil]

theorem formatChecks_eq {s : RString} (hd : d.value = .str s) :
    (validateFormat rt cs d s).failures f E
      = failing cs.path d (formatChecks rt customFormats kvs s) := by
  obtain ⟨scope, format, type, hformat, -, hcs⟩ := h.own
  have hfunction : cs.formatValidationFunction = some format.function :=
    congrArg CompiledSchema.formatValidationFunction hcs.symm
  have hcallable : cs.customFormatCallableVal = format.callable :=
    congrArg CompiledSchema.customFormatCallableVal hcs.symm
  have herrorKey : cs.customFormatErrorKeyVal = format.errorKey :=
    congrArg CompiledSchema.customFormatErrorKeyVal hcs.symm
  rw [validateFormat, validateCustomFormat, formatChecks, stringKeyword, hfunction, hcallable,
    herrorKey, hd]
  unfold formatFields at hformat
  cases hname : Value.aref kvs formatStr with
  | str name =>
    rw [hname] at hformat
    dsimp only at hformat ⊢
    rw [Option.elim_some]
    cases hlookup : (customFormats.getD []).lookup name with
    | some callable =>
      rw [hlookup] at hformat
      obtain rfl := Except.ok.inj hformat
      exact violation_failures _ _
    | none =>
      rw [hlookup] at hformat
      dsimp only at hformat
      split_ifs at hformat
      obtain rfl := Except.ok.inj hformat
      dsimp only [builtInFormat]
      cases Format.all.find? (·.name == name) with
      | none => rfl
      | some f => exact violation_failures _ _
  | _ =>
    rw [hname] at hformat
    obtain rfl := Except.ok.inj hformat
    rfl

theorem stringChecks_eq {s : RString} (hd : d.value = .str s) :
    (validateString rt cs d).failures f E
      = failing cs.path d (stringChecks rt customFormats kvs s) := by
  have hmaxLength : cs.maxLengthVal = numberKeyword kvs maxLengthStr := h.field rfl fun _ _ _ => rfl
  have hminLength : cs.minLengthVal = numberKeyword kvs minLengthStr := h.field rfl fun _ _ _ => rfl
  have hpattern : cs.patternVal = stringKeyword kvs patternStr := h.field rfl fun _ _ _ => rfl
  have hmatch : (validatePattern rt cs d s).failures f E
      = failing cs.path d [(str "pattern", (stringKeyword kvs patternStr).any fun pattern =>
        rt.validRegexp pattern && (rt.regMatch pattern s).toOption == some false)] := by
    rw [validatePattern, hpattern]
    cases stringKeyword kvs patternStr with
    | none => rfl
    | some pattern =>
      dsimp only [Option.any_some]
      split_ifs with hvalid
      · rw [converted_failures, hvalid]
        cases rt.regMatch pattern s with
        | error e => rfl
        | ok b =>
          refine (violation_failures _ _).trans ?_
          cases b <;> rfl
      · rw [eq_false_of_ne_true hvalid]
        rfl
  rw [validateString, hd]
  dsimp only
  rw [stringChecks, hmaxLength, hminLength, failing_append]
  simp only [Prog.failures_block, List.flatMap_cons, List.flatMap_nil, sizeFails_eq, hmatch,
    h.formatChecks_eq hd, failing_cons cs.path (_, _) (_ :: _), List.append_nil, List.append_assoc]

theorem arrayChecks_eq (xs : List Value) :
    (validateArraySizes cs d xs).failures f E = failing cs.path d (arrayChecks kvs xs) := by
  have hmaxItems : cs.maxItemsVal = numberKeyword kvs maxItemsStr := h.field rfl fun _ _ _ => rfl
  have hminItems : cs.minItemsVal = numberKeyword kvs minItemsStr := h.field rfl fun _ _ _ => rfl
  have hunique : cs.uniqueItemsVal = boolKeyword kvs uniqueItemsStr := h.field rfl fun _ _ _ => rfl
  rw [validateArraySizes, arrayChecks, hmaxItems, hminItems, hunique]
  simp only [Prog.failures_block, List.flatMap_cons, List.flatMap_nil, sizeFails_eq,
    violation_failures, failing_cons cs.path (_, _) (_ :: _), List.append_nil]

theorem objectChecks_eq (members : List (Value × Value)) :
    (validateObjectSizes cs d members).failures f E
      = failing cs.path d (objectChecks kvs members) := by
  have hmaxProperties : cs.maxPropertiesVal = numberKeyword kvs maxPropertiesStr :=
    h.field rfl fun _ _ _ => rfl
  have hminProperties : cs.minPropertiesVal = numberKeyword kvs minPropertiesStr :=
    h.field rfl fun _ _ _ => rfl
  have hrequired : cs.requiredVal = arrayKeyword kvs requiredStr := h.field rfl fun _ _ _ => rfl
  rw [validateObjectSizes, objectChecks, hmaxProperties, hminProperties, hrequired, failing_append,
    failing_map]
  simp only [Prog.failures_block, List.flatMap_cons, List.flatMap_nil, sizeFails_eq,
    failing_cons cs.path (_, _) (_ :: _), List.append_nil, List.append_assoc]
  congr 2
  cases arrayKeyword kvs requiredStr with
  | none => rfl
  | some required =>
    dsimp only [Option.getD_some]
    rw [validateRequired, Prog.failures_block, List.flatMap_map]
    exact List.flatMap_congr fun name _ => violation_failures _ _

end Carries

/-! ## Subschemas -/

section Subschemas

variable {rt : Runtime} {f : CompiledSchema → Value → Bool} {E : CompiledSchema → Datum → List Site}
  {cs : CompiledSchema} {d : Datum}

/-- What the verdicts and the errors of the nodes say of a node. -/
def findingsOf (f : CompiledSchema → Value → Bool) (E : CompiledSchema → Datum → List Site)
    (c : CompiledSchema) : Findings := ⟨c.path, f c, E c⟩

/-- The failures of a piece of the evaluator, when the calls have the verdicts `f` and the errors
`E`. -/
def errorsOf (f : CompiledSchema → Value → Bool) (E : CompiledSchema → Datum → List Site)
    (p : Code) : List Site :=
  p.failures (fun c => f c.1 c.2.value) fun c => E c.1 c.2

theorem errorsOf_block (ps : List Code) :
    errorsOf f E (.block ps) = ps.flatMap (errorsOf f E) := Prog.failures_block ps

theorem elementErrors_eq (xs : List Value) :
    errorsOf f E (match cs.itemsSchema, cs.itemsVal with
      | some items, _ => validateItems d items xs
      | none, some itemsVal => .seq (validateWithMultipleItemsSchema d itemsVal xs)
          (match cs.additionalItemsSchema with
            | some additionalItems => .when (itemsVal.length < xs.length)
                (validateAdditionalItems d itemsVal additionalItems xs)
            | none => .skip)
      | none, none => .skip)
      = (cs.applicators.map (findingsOf f E)).elementErrors d xs := by
  simp only [Applicators.elementErrors, Applicators.map, applicators]
  cases cs.itemsSchema with
  | some items =>
    dsimp only [Option.map_some]
    rw [errorsOf, validateItems, Prog.failures_each, List.flatMap_map]
    rfl
  | none =>
    cases cs.itemsVal with
    | none => rfl
    | some itemsVal =>
      dsimp only [Option.map_some, Option.map_none]
      rw [errorsOf, Prog.failures_seq, validateWithMultipleItemsSchema, Prog.failures_each,
        List.flatMap_map, List.zip_map_right, List.flatMap_map, List.length_map]
      congr 1
      cases cs.additionalItemsSchema with
      | none => rfl
      | some additionalItems =>
        dsimp only [Option.map_some, Option.elim_some]
        rw [Prog.failures_when, validateAdditionalItems, Prog.failures_each, List.flatMap_map]
        split_ifs with hlt
        · rfl
        · rw [List.drop_eq_nil_of_le]
          · rfl
          · rw [Datum.elements, List.length_map, List.length_zipIdx]
            simpa using hlt

theorem countP_elements (c : CompiledSchema) (xs : List Value) :
    ((d.elements xs).map fun x => (c, x.2)).countP (fun c : Call => f c.1 c.2.value)
      = xs.countP (f c) := by
  conv_rhs => rw [← map_elements (d := d) xs, List.countP_map]
  rw [List.countP_map]
  rfl

theorem containsErrors_eq {customFormats : Option (List (RString × ℕ))}
    {kvs : List (Value × Value)} (h : Carries customFormats kvs cs) (xs : List Value) :
    errorsOf f E (match cs.containsSchema with
      | some contains => validateContains cs d contains xs
      | none => .skip)
      = (cs.applicators.map (findingsOf f E)).containsErrors cs.path d kvs xs := by
  have hmax : cs.maxContainsVal = numberKeyword kvs maxContainsStr := h.field rfl fun _ _ _ => rfl
  have hmin : cs.minContainsVal = numberKeyword kvs minContainsStr := h.field rfl fun _ _ _ => rfl
  simp only [Applicators.containsErrors, Applicators.map, applicators]
  cases cs.containsSchema with
  | none => rfl
  | some contains =>
    dsimp only [Option.map_some, Option.elim_some]
    rw [errorsOf, validateContains, countValid_failures, Nat.zero_add, countP_elements, hmax, hmin]
    simp only [Prog.failures_block, List.flatMap_cons, List.flatMap_nil, List.append_nil]
    congr 1
    · unfold numericFails
      cases numberKeyword kvs maxContainsStr with
      | none => rfl
      | some v =>
        cases v with
        | int m =>
          dsimp only
          rw [converted_failures]
          simp only [violation_failures]
          exact elim_failing _ _ _ _
        | _ => rfl
    · unfold numericFails
      cases numberKeyword kvs minContainsStr with
      | none => exact violation_failures _ _
      | some v =>
        cases v with
        | int m =>
          dsimp only
          rw [converted_failures]
          simp only [violation_failures]
          exact elim_failing _ _ _ _
        | _ => exact violation_failures _ _

theorem validateArray_errors {customFormats : Option (List (RString × ℕ))}
    {kvs : List (Value × Value)} (h : Carries customFormats kvs cs) {xs : List Value}
    (hd : d.value = .arr xs) :
    errorsOf f E (validateArray cs d) = failing cs.path d (arrayChecks kvs xs)
      ++ (cs.applicators.map (findingsOf f E)).elementErrors d xs
      ++ (cs.applicators.map (findingsOf f E)).containsErrors cs.path d kvs xs := by
  rw [validateArray, hd]
  dsimp only
  rw [← elementErrors_eq, ← containsErrors_eq h, ← h.arrayChecks_eq xs]
  simp only [errorsOf, Prog.failures_block, List.flatMap_cons, List.flatMap_nil, List.append_nil,
    List.append_assoc]
  rfl

theorem matched_eq (k : RString) : (cs.applicators.map (findingsOf f E)).matched rt k =
    ((cs.patterns.filter fun p => (rt.regMatch p.1 k).toOption == some true).map
      fun p => findingsOf f E p.2) := by
  simp only [Applicators.matched, Applicators.map, applicators, patterns]
  cases cs.patternPropertiesVal with
  | none => rfl
  | some m =>
    dsimp only [Option.map_some, Option.getD_some]
    rw [List.filter_map, List.map_map]
    rfl

theorem propertyErrors_eq (k : RString) (v : Value) :
    errorsOf f E (validateObjectProperty rt cs d k v)
      = (cs.applicators.map (findingsOf f E)).propertyErrors rt d k v := by
  have hlookup : ((cs.applicators.map (findingsOf f E)).properties.getD []).lookup k
      = (schemaOf cs.propertiesVal k).map (findingsOf f E) := by
    simp only [Applicators.map, applicators, schemaOf]
    cases cs.propertiesVal with
    | none => rfl
    | some m => exact lookup_map m k
  have hnamed : errorsOf f E (match schemaOf cs.propertiesVal k with
      | some property => .call (property, d.child (.str k) v)
      | none => .skip)
      = ((schemaOf cs.propertiesVal k).map (findingsOf f E)).elim []
        fun s => s.errors (d.child (.str k) v) := by
    cases schemaOf cs.propertiesVal k <;> rfl
  have hnames : errorsOf f E (match cs.propertyNamesSchema with
      | some names => .call (names, d.name k)
      | none => .skip)
      = (cs.propertyNamesSchema.map (findingsOf f E)).elim [] (·.errors (d.name k)) := by
    cases cs.propertyNamesSchema <;> rfl
  have hpatterns : errorsOf f E (.block (cs.patterns.map fun p =>
      converted (rt.regMatch p.1 k) fun m => .when m (.call (p.2, d.child (.str k) v))))
      = ((cs.applicators.map (findingsOf f E)).matched rt k).flatMap
        fun s => s.errors (d.child (.str k) v) := by
    rw [matched_eq, errorsOf, Prog.failures_block, List.flatMap_map, List.flatMap_map]
    induction cs.patterns with
    | nil => rfl
    | cons p ps ih =>
      rw [List.flatMap_cons, List.filter_cons, ih, converted_failures]
      cases rt.regMatch p.1 k with
      | error e => rfl
      | ok b => cases b <;> rfl
  have hadditional : errorsOf f E (match cs.additionalPropertiesSchema with
      | some additional => .when (!validated rt cs k) (.call (additional, d.child (.str k) v))
      | none => .skip)
      = if (schemaOf cs.propertiesVal k).isSome
          || !((cs.applicators.map (findingsOf f E)).matched rt k).isEmpty then []
        else (cs.additionalPropertiesSchema.map (findingsOf f E)).elim []
          fun s => s.errors (d.child (.str k) v) := by
    have hvalidated : validated rt cs k = ((schemaOf cs.propertiesVal k).isSome
        || !((cs.applicators.map (findingsOf f E)).matched rt k).isEmpty) := by
      rw [validated, matched_eq]
      congr 1
      rw [List.isEmpty_map, Bool.eq_iff_iff, List.any_eq_true, Bool.not_eq_true',
        List.isEmpty_eq_false_iff_exists_mem]
      simp only [List.mem_filter]
    rw [← hvalidated]
    cases cs.additionalPropertiesSchema with
    | none => exact (ite_self _).symm
    | some additional =>
      dsimp only
      rw [errorsOf, Prog.failures_when]
      cases validated rt cs k <;> rfl
  rw [validateObjectProperty, errorsOf_block, List.flatMap_cons, List.flatMap_cons,
    List.flatMap_cons, List.flatMap_singleton, Applicators.propertyErrors, hlookup,
    Option.isSome_map, List.append_assoc, List.append_assoc]
  exact congrArg₂ _ hnames (congrArg₂ _ hnamed (congrArg₂ _ hpatterns hadditional))

theorem dependencyErrors_eq (members : List (Value × Value)) :
    errorsOf f E (validateDependencies d members (cs.dependenciesVal.getD []))
      = (cs.applicators.map (findingsOf f E)).dependencyErrors d members := by
  simp only [Applicators.dependencyErrors, Applicators.map, applicators]
  cases cs.dependenciesVal with
  | none => rfl
  | some m =>
    dsimp only [Option.map_some, Option.getD_some]
    rw [validateDependencies, errorsOf_block, List.flatMap_map, List.flatMap_map]
    exact List.flatMap_congr fun p _ => Prog.failures_when _ _

theorem validateObject_errors {customFormats : Option (List (RString × ℕ))}
    {kvs members : List (Value × Value)} (h : Carries customFormats kvs cs)
    (hd : d.value = .hash members) :
    errorsOf f E (validateObject rt cs d) = failing cs.path d (objectChecks kvs members)
      ++ (cs.applicators.map (findingsOf f E)).dependencyErrors d members
      ++ (Value.stringEntries members).flatMap fun kv =>
        (cs.applicators.map (findingsOf f E)).propertyErrors rt d kv.1 kv.2 := by
  have hproperties : errorsOf f E (validateProperties rt cs d members)
      = (Value.stringEntries members).flatMap fun kv =>
        (cs.applicators.map (findingsOf f E)).propertyErrors rt d kv.1 kv.2 := by
    rw [validateProperties, errorsOf, Prog.failures_each, List.flatMap_map]
    exact List.flatMap_congr fun kv _ => propertyErrors_eq kv.1 kv.2
  rw [validateObject, hd]
  dsimp only
  rw [errorsOf_block, List.flatMap_cons, List.flatMap_cons, List.flatMap_singleton,
    dependencyErrors_eq, hproperties, List.append_assoc]
  exact congrArg (· ++ _) (h.objectChecks_eq members)

/-! ## Combinators -/

theorem countP_branches (l : List CompiledSchema) :
    (l.map (·, d)).countP (fun c : Call => f c.1 c.2.value)
      = (l.map (findingsOf f E)).countP (·.holds d.value) := by
  rw [List.countP_map, List.countP_map]
  rfl

theorem conditionalErrors_eq :
    errorsOf f E (ifSet cs.ifSchema (validateIf cs d))
      = (cs.applicators.map (findingsOf f E)).conditionalErrors d := by
  have hbranch : ∀ (branch : CompiledSchema) (type : RString),
      errorsOf f E (runBranch d branch type)
        = failing branch.path d [(type, !f branch d.value)] := fun branch type =>
    violation_failures _ _
  simp only [Applicators.conditionalErrors, Applicators.map, applicators]
  rw [errorsOf, ifSet_failures]
  cases cs.ifSchema with
  | none => rfl
  | some ifSchema =>
    dsimp only [Option.map_some, Option.elim_some]
    rw [validateIf]
    have hholds : (findingsOf f E ifSchema).holds d.value = f ifSchema d.value := rfl
    cases cs.thenSchema with
    | none =>
      cases cs.elseSchema with
      | none => simp
      | some elseSchema =>
        rw [if_neg (by simp), Prog.failures_guarded, hholds]
        cases f ifSchema d.value with
        | true => rfl
        | false => exact hbranch _ _
    | some thenSchema =>
      rw [if_neg (by simp), Prog.failures_guarded, hholds]
      cases f ifSchema d.value with
      | true => exact hbranch _ _
      | false =>
        cases cs.elseSchema with
        | none => rfl
        | some elseSchema => exact hbranch _ _

theorem combinationErrors_eq (f : CompiledSchema → Value → Bool)
    (E : CompiledSchema → Datum → List Site) (cs : CompiledSchema) (d : Datum) :
    errorsOf f E (.block [
      ifSet cs.notSchema (validateNot d),
      ifSet cs.allOfVal (validateAllOf cs d),
      ifSet cs.anyOfVal (validateAnyOf cs d),
      ifSet cs.oneOfVal (validateOneOf cs d)])
      = (cs.applicators.map (findingsOf f E)).combinationErrors cs.path d := by
  have hnot : errorsOf f E (ifSet cs.notSchema (validateNot d))
      = (cs.notSchema.map (findingsOf f E)).elim []
        fun s => failing s.path d [(str "not", s.holds d.value)] := by
    cases cs.notSchema with
    | none => rfl
    | some notSchema => exact violation_failures _ _
  have hall : errorsOf f E (ifSet cs.allOfVal (validateAllOf cs d))
      = failing cs.path d [(str "allOf", (cs.allOfVal.map (·.map (findingsOf f E))).any
        fun ss => !ss.all (·.holds d.value))] := by
    cases cs.allOfVal with
    | none => rfl
    | some allOf =>
      dsimp only [ifSet, Option.map_some, Option.any_some]
      rw [validateAllOf, errorsOf, countValid_failures, Nat.zero_add, countP_branches (E := E),
        violation_failures, ← List.length_map (findingsOf f E)]
      congr 3
      rw [Bool.eq_iff_iff, decide_eq_true_iff, Ne, List.countP_eq_length, Bool.not_eq_true',
        ← Bool.not_eq_true, List.all_eq_true]
  have hany : errorsOf f E (ifSet cs.anyOfVal (validateAnyOf cs d))
      = failing cs.path d [(str "anyOf", (cs.anyOfVal.map (·.map (findingsOf f E))).any
        fun ss => !ss.any (·.holds d.value))] := by
    cases cs.anyOfVal with
    | none => rfl
    | some anyOf =>
      dsimp only [ifSet, Option.map_some, Option.any_some]
      have hholds : (anyOf.map (·, d)).any (fun c : Call => f c.1 c.2.value)
          = (anyOf.map (findingsOf f E)).any (·.holds d.value) := by
        rw [List.any_map, List.any_map]
        rfl
      rw [validateAnyOf, errorsOf, untilValid_failures, hholds]
      cases (anyOf.map (findingsOf f E)).any (·.holds d.value) <;> rfl
  have hone : errorsOf f E (ifSet cs.oneOfVal (validateOneOf cs d))
      = failing cs.path d [(str "oneOf", (cs.oneOfVal.map (·.map (findingsOf f E))).any
        fun ss => ss.countP (·.holds d.value) ≠ 1)] := by
    cases cs.oneOfVal with
    | none => rfl
    | some oneOf =>
      dsimp only [ifSet, Option.map_some, Option.any_some]
      rw [validateOneOf, errorsOf, countUpToTwo_failures _ _ 0 (Nat.zero_le 1), Nat.zero_add,
        countP_branches (E := E), violation_failures]
      congr 3
      rw [decide_eq_decide]
      omega
  rw [errorsOf_block, List.flatMap_cons, List.flatMap_cons, List.flatMap_cons,
    List.flatMap_singleton, hnot, hall, hany, hone, Applicators.combinationErrors,
    failing_cons cs.path (_, _) (_ :: _), failing_cons cs.path (_, _) (_ :: _)]
  rfl

end Subschemas

/-! ## Nodes -/

section Nodes

variable {rt : Runtime} {customFormats : Option (List (RString × ℕ))} {kvs : List (Value × Value)}
  {f : CompiledSchema → Value → Bool} {E : CompiledSchema → Datum → List Site}
  {cs : CompiledSchema} {d : Datum}

/-- The error of a value that is not of the one type that is named. -/
theorem typeError_eq {flag : TypeFlag} (ha : ∀ flag', typeAdmits kvs flag' = (flag == flag'))
    (hs : ∃ name, Value.aref kvs typeStr = .str name) : typeError kvs = flag.mismatch := by
  obtain ⟨name, hname⟩ := hs
  have hflag := ha flag
  rw [typeAdmits, hname, beq_self_eq_true, beq_iff_eq] at hflag
  rw [typeError, hname]
  dsimp only
  rw [hflag]
  rfl

theorem Carries.number_errors (h : Carries customFormats kvs cs) {n : ℤ} (hd : d.value = .int n) :
    errorsOf f E (validateNumber rt cs d) = failing cs.path d
      ((num2long (.int n)).toOption.elim [] fun m => doubleChecks rt kvs (.ofInt m)) := by
  rw [validateNumber, hd]
  dsimp only
  rw [errorsOf, converted_failures]
  cases (num2long (.int n)).toOption with
  | none => rfl
  | some m => exact h.doubleChecks_eq _

/-- The errors of the type of a node and of the keywords of the type. -/
theorem Carries.typed_errors (h : Carries customFormats kvs cs) (hn : namesNoType kvs = false) :
    errorsOf f E (validateType rt cs d)
      = typedErrors rt customFormats kvs (cs.applicators.map (findingsOf f E)) cs.path d := by
  cases h.route with
  | noType _ hn' => exact absurd (hn'.symm.trans hn) (by decide)
  | single flag ht _ hadmits hs =>
    have herror := typeError_eq hadmits hs
    obtain ⟨name, hs⟩ := hs
    rw [validateType, ht, typedErrors]
    simp only [hadmits, hs, herror]
    cases hd : d.value with
    | int n =>
      cases flag with
      | integer => exact h.integerChecks_eq hd
      | number => exact h.number_errors hd
      | _ => simp only [TypeFlag.function, validateNull, validateBool, validateString,
          validateArray, validateObject, hd]; rfl
    | float x =>
      cases flag with
      | number =>
        simp only [TypeFlag.function, validateNumber, hd]
        exact h.doubleChecks_eq x
      | _ => simp only [TypeFlag.function, validateNull, validateBool, validateString,
          validateInteger, validateArray, validateObject, hd]; rfl
    | str s =>
      cases flag with
      | string => exact h.stringChecks_eq hd
      | _ => simp only [TypeFlag.function, validateNull, validateBool, validateInteger,
          validateNumber, validateArray, validateObject, hd]; rfl
    | arr xs =>
      cases flag with
      | array => exact validateArray_errors h hd
      | _ => simp only [TypeFlag.function, validateNull, validateBool, validateString,
          validateInteger, validateNumber, validateObject, hd]; rfl
    | hash members =>
      cases flag with
      | object => exact validateObject_errors h hd
      | _ => simp only [TypeFlag.function, validateNull, validateBool, validateString,
          validateInteger, validateNumber, validateArray, hd]; rfl
    | _ =>
      cases flag <;> simp only [TypeFlag.function, validateNull, validateBool, validateString,
        validateInteger, validateNumber, validateArray, validateObject, hd] <;> rfl
  | byDataType ht _ hadmits hs =>
    rw [validateType, ht, typedErrors]
    dsimp only
    simp only [hadmits, validateByDataType, if_true]
    cases hd : d.value with
    | int n => exact h.integerChecks_eq hd
    | float x =>
      simp only [validateNumber, hd]
      exact h.doubleChecks_eq x
    | str s => exact h.stringChecks_eq hd
    | arr xs => exact validateArray_errors h hd
    | hash members => exact validateObject_errors h hd
    | _ => rfl
  | byTypeList ht _ hadmits hs =>
    have herror : typeError kvs = str "type" := by
      unfold typeError
      split
      · exact absurd ‹_› (hs _)
      · rfl
    have hlisted : ∀ (flag : TypeFlag) {p q : Code} {es es' : List Site}, errorsOf f E p = es →
        errorsOf f E q = es' → errorsOf f E (if flag ∈ cs.typeFlags then p else q)
          = if typeAdmits kvs flag then es else es' := by
      intro flag p q es es' hp hq
      by_cases hmem : flag ∈ cs.typeFlags
      · rw [if_pos hmem, if_pos (by simp [hadmits, hmem]), hp]
      · rw [if_neg hmem, if_neg (by simp [hadmits, hmem]), hq]
    have hmismatch : errorsOf f E (yieldError cs d (str "type"))
        = [⟨cs.path, d, str "type"⟩] := rfl
    rw [validateType, ht, typedErrors, herror]
    dsimp only [validateByTypeList]
    cases hd : d.value with
    | nil =>
      refine hlisted .null ?_ hmismatch
      rw [validateNull, hd]
      rfl
    | bool b =>
      refine hlisted .bool ?_ hmismatch
      rw [validateBool, hd]
      rfl
    | int n =>
      exact hlisted .integer (h.integerChecks_eq hd)
        (hlisted .number (h.number_errors hd) hmismatch)
    | float x =>
      refine hlisted .number ?_ hmismatch
      rw [validateNumber, hd]
      exact h.doubleChecks_eq x
    | str s => exact hlisted .string (h.stringChecks_eq hd) hmismatch
    | arr xs => exact hlisted .array (validateArray_errors h hd) hmismatch
    | hash members => exact hlisted .object (validateObject_errors h hd) hmismatch
    | other id =>
      dsimp only
      split
      · exact absurd ‹_› (hs _)
      · rfl

/-- The errors of the keywords of a node. -/
theorem Carries.validate_errors (h : Carries customFormats kvs cs) :
    errorsOf f E (validate rt cs d)
      = keywordErrors rt customFormats kvs (cs.applicators.map (findingsOf f E)) cs.path d := by
  have hconst : cs.constVal = Value.get kvs constStr := h.field rfl fun _ _ _ => rfl
  have henum : cs.enumVal = arrayKeyword kvs enumStr := h.field rfl fun _ _ _ => rfl
  have htype : errorsOf f E (validateType rt cs d) = if namesNoType kvs then [] else
      typedErrors rt customFormats kvs (cs.applicators.map (findingsOf f E)) cs.path d := by
    cases hn : namesNoType kvs with
    | false => exact h.typed_errors hn
    | true =>
      cases h.route with
      | noType ht _ =>
        rw [validateType, ht]
        rfl
      | single _ _ hn' => exact absurd (hn'.symm.trans hn) (by decide)
      | byDataType _ hn' => exact absurd (hn'.symm.trans hn) (by decide)
      | byTypeList _ hn' => exact absurd (hn'.symm.trans hn) (by decide)
  have hvalue : errorsOf f E (ifSet cs.constVal (validateConst cs d))
      ++ errorsOf f E (ifSet cs.enumVal (validateEnum cs d))
      = failing cs.path d (valueChecks kvs d.value) := by
    rw [errorsOf, errorsOf, ifSet_failures, ifSet_failures, hconst, henum, valueChecks,
      failing_cons]
    congr 1
    · simp only [validateConst, violation_failures]
      exact elim_failing _ _ _ _
    · simp only [validateEnum, violation_failures]
      exact elim_failing _ _ _ _
  have hcombination := combinationErrors_eq f E cs d
  rw [errorsOf_block] at hcombination
  rw [validate, errorsOf_block, List.flatMap_cons, List.flatMap_cons, List.flatMap_cons,
    List.flatMap_cons, hcombination, conditionalErrors_eq, htype, keywordErrors, ← hvalue]
  simp only [List.append_assoc]

end Nodes

/-! ## Positions -/

section Positions

variable {rt : Runtime} {customFormats : Option (List (RString × ℕ))} {doc : Value}
  {f : CompiledSchema → Value → Bool} {E : CompiledSchema → Datum → List Site}

/-- **What a node reports**, in the terms of its position: a reference reports what its target
reports, and any other schema what its keywords say over what is known of its children. -/
theorem Position.Built.errors_eq {T : Position → CompiledSchema → Prop} {n : ℕ} {p : Position}
    {c : CompiledSchema} (h : p.Built rt T n c) (hp : p ∈ positionsOf rt customFormats doc)
    (heap : Addr → Option CompiledSchema) (d : Datum) :
    errorsOf f E (body rt heap (c, d)) =
      if p.refVal.isSome then (c.refSchema.bind heap).elim [] (E · d)
      else schemaErrors rt customFormats (c.applicators.map (findingsOf f E)) p.path p.value d := by
  have hown := h.own
  have hpath : c.path = p.path := h.matches.path
  rw [Position.own] at hown
  rw [body]
  cases hv : p.value with
  | hash kvs =>
    cases kvs with
    | nil =>
      rw [hv] at hown
      have hfunction : c.validationFunction = some .noOpValidate :=
        congrArg CompiledSchema.validationFunction (Except.ok.inj hown).symm
      rw [hfunction, Position.refVal, Position.members, hv]
      rfl
    | cons kv kvs =>
      have hcarries := h.carries hp hv
      have hrefVal : c.refVal = p.refVal := h.matches.refVal.trans (Position.resolved_refVal p)
      obtain ⟨scope, format, type, -, -, hcs⟩ := hcarries.own
      have hscope : scope.refVal = p.refVal :=
        (congrArg CompiledSchema.refVal hcs).trans hrefVal
      have hfunction : c.validationFunction
          = some (if p.refVal.isSome then .validateRef else .validate) := by
        rw [← hscope]
        exact congrArg CompiledSchema.validationFunction hcs.symm
      rw [hfunction]
      split_ifs
      · dsimp only
        rw [validateRef]
        cases c.refSchema.bind heap <;> rfl
      · dsimp only
        rw [hcarries.validate_errors, schemaErrors, hpath]
  | bool b =>
    rw [hv] at hown
    rw [Position.refVal, Position.members, hv]
    cases b with
    | false =>
      have hfunction : c.validationFunction = some .falseValidate :=
        congrArg CompiledSchema.validationFunction (Except.ok.inj hown).symm
      rw [hfunction, ← hpath]
      rfl
    | true =>
      have hfunction : c.validationFunction = some .noOpValidate :=
        congrArg CompiledSchema.validationFunction (Except.ok.inj hown).symm
      rw [hfunction]
      rfl
  | _ =>
    rw [hv] at hown
    have hfunction : c.validationFunction = some .noOpValidate :=
      congrArg CompiledSchema.validationFunction (Except.ok.inj hown).symm
    rw [hfunction, Position.refVal, Position.members, hv]
    rfl

end Positions

end FastJsonSchema
