import FastJsonSchema.Validate.Agreement
import FastJsonSchema.Validate.Denotation

/-!
# The verdict of `is_valid`

The evaluator in the quiet mode leaves at the first failure, and the combinators go on with the
verdicts of their branches. Whatever the nesting, the verdict is the meaning of the schema: keyword
by keyword the program decides what `Applicators.holds` says, given that the calls of the children
decide their meanings (`body_decides`), and the tree has enough fuel (`judge_decides`).
-/

namespace FastJsonSchema

open Ruby Traversal

/-! ## Checks of a single value -/

section Leaf

variable {cs : CompiledSchema} {d d' : Datum}

theorem yieldError_like (cs cs' : CompiledSchema) (d d' : Datum) (type type' : RString) :
    Prog.Like (yieldError cs d type) (yieldError cs' d' type') := .fail _ _

theorem converted_like {α : Type} {x : Except RubyError α} {k k' : α → Code}
    (h : ∀ a, Prog.Like (k a) (k' a)) : Prog.Like (converted x k) (converted x k') := by
  cases x with
  | ok a => exact h a
  | error e => exact .raise e

theorem numericKeyword_like {val : Option Value} {int int' : ℤ → Code}
    {float float' : Double → Code}
    (hi : ∀ m, Prog.Like (int m) (int' m)) (hf : ∀ m, Prog.Like (float m) (float' m)) :
    Prog.Like (numericKeyword val int float) (numericKeyword val int' float') := by
  unfold numericKeyword
  split
  · exact converted_like hi
  · exact hf _
  · exact .skip

theorem checkNumeric_like {type : RString} {val : Option Value} {int : ℤ → Bool}
    {float : Double → Bool} :
    Prog.Like (checkNumeric cs d type val int float) (checkNumeric cs d' type val int float) :=
  numericKeyword_like (fun _ => .when (yieldError_like ..)) fun _ => .when (yieldError_like ..)

theorem checkSize_like {type : RString} {num : Value → Except RubyError ℤ} {val : Option Value}
    {violated : ℤ → Bool} :
    Prog.Like (checkSize cs d type num val violated) (checkSize cs d' type num val violated) := by
  unfold checkSize
  cases val with
  | none => exact .skip
  | some v => exact converted_like fun _ => .when (yieldError_like ..)

theorem validateArraySizes_like (xs : List Value) :
    Prog.Like (validateArraySizes cs d xs) (validateArraySizes cs d' xs) :=
  .block (.cons checkSize_like (.cons checkSize_like (.cons (.when (yieldError_like ..)) .nil)))

theorem validateObjectSizes_like (kvs : List (Value × Value)) :
    Prog.Like (validateObjectSizes cs d kvs) (validateObjectSizes cs d' kvs) := by
  refine .block (.cons checkSize_like (.cons checkSize_like (.cons ?_ .nil)))
  cases cs.requiredVal with
  | none => exact .skip
  | some required =>
    refine .block ?_
    rw [List.forall₂_map_left_iff, List.forall₂_map_right_iff, List.forall₂_same]
    exact fun _ _ => .when (yieldError_like ..)

theorem validateDouble_like (rt : Runtime) (dataC : Double) :
    Prog.Like (validateDouble rt cs d dataC) (validateDouble rt cs d' dataC) :=
  .block (.cons checkNumeric_like (.cons checkNumeric_like (.cons checkNumeric_like
    (.cons checkNumeric_like (.cons checkNumeric_like .nil)))))

variable (rt : Runtime) (h : d.value = d'.value)

include h

theorem validateNull_like : Prog.Like (validateNull cs d) (validateNull cs d') := by
  unfold validateNull
  rw [h]
  split
  · exact .skip
  · exact yieldError_like ..

theorem validateBool_like : Prog.Like (validateBool cs d) (validateBool cs d') := by
  unfold validateBool
  rw [h]
  split
  · exact .skip
  · exact yieldError_like ..

theorem validateInteger_like : Prog.Like (validateInteger rt cs d) (validateInteger rt cs d') := by
  unfold validateInteger
  rw [h]
  split
  · refine converted_like fun dataC => .block (.cons (numericKeyword_like (fun m => ?_) fun m => ?_)
      (.cons checkNumeric_like (.cons checkNumeric_like (.cons checkNumeric_like
        (.cons checkNumeric_like .nil)))))
    · split_ifs
      · exact .crash
      · exact .when (yieldError_like ..)
    · exact .when (yieldError_like ..)
  · exact yieldError_like ..

theorem validateNumber_like : Prog.Like (validateNumber rt cs d) (validateNumber rt cs d') := by
  unfold validateNumber
  rw [h]
  split
  · exact validateDouble_like rt _
  · exact converted_like fun _ => validateDouble_like rt _
  · exact yieldError_like ..

theorem validateString_like : Prog.Like (validateString rt cs d) (validateString rt cs d') := by
  unfold validateString
  rw [h]
  split
  · refine .block (.cons checkSize_like (.cons checkSize_like (.cons ?_ (.cons ?_ .nil))))
    · unfold validatePattern
      split
      · exact .skip
      · split_ifs
        · exact converted_like fun _ => .when (yieldError_like ..)
        · exact .raise _
    · unfold validateFormat validateCustomFormat
      rw [h]
      split
      · exact .skip
      · exact .when (yieldError_like ..)
      · split
        · exact .when (yieldError_like ..)
        · exact .crash
      · exact .crash
  · exact yieldError_like ..

/-- The type check of a value without elements and properties. -/
theorem validateType_like (ha : ∀ xs, d'.value ≠ .arr xs) (ho : ∀ kvs, d'.value ≠ .hash kvs) :
    Prog.Like (validateType rt cs d) (validateType rt cs d') := by
  have hnull : Prog.Like (validateNull cs d) (validateNull cs d') := validateNull_like h
  have hbool : Prog.Like (validateBool cs d) (validateBool cs d') := validateBool_like h
  have hint : Prog.Like (validateInteger rt cs d) (validateInteger rt cs d') :=
    validateInteger_like rt h
  have hnum : Prog.Like (validateNumber rt cs d) (validateNumber rt cs d') :=
    validateNumber_like rt h
  have hstr : Prog.Like (validateString rt cs d) (validateString rt cs d') :=
    validateString_like rt h
  have harr : Prog.Like (validateArray cs d) (validateArray cs d') := by
    unfold validateArray
    rw [h]
    split
    · exact absurd ‹_› (ha _)
    · exact yieldError_like ..
  have hobj : Prog.Like (validateObject rt cs d) (validateObject rt cs d') := by
    unfold validateObject
    rw [h]
    split
    · exact absurd ‹_› (ho _)
    · exact yieldError_like ..
  have herr : ∀ type, Prog.Like (yieldError cs d type) (yieldError cs d' type) :=
    fun _ => yieldError_like ..
  unfold validateType
  split
  · exact hnull
  · exact hbool
  · exact hstr
  · exact hint
  · exact hnum
  · exact harr
  · exact hobj
  · unfold validateByDataType
    rw [h]
    split <;> first | assumption | exact .skip
  · unfold validateByTypeList
    rw [h]
    split <;> (try split_ifs) <;> first | assumption | exact herr _ | exact .skip
  · exact .skip
  · exact .crash

end Leaf

/-! ## Combinators -/

/-- The calls of a schema have the verdict that `f` has on the value. -/
def Knows (callee : Bool → Call → Judgement Site RubyError) (f : CompiledSchema → Value → Bool)
    (cs : CompiledSchema) : Prop :=
  ∀ d : Datum, (callee true (cs, d)).Decides (f cs d.value)

section Combinators

variable {callee : Bool → Call → Judgement Site RubyError} {f : CompiledSchema → Value → Bool}
  {rt : Runtime} {cs : CompiledSchema} {d : Datum} {calls : List Call}

theorem countValid_decides (h : ∀ c ∈ calls, Knows callee f c.1) {k : ℕ → Code} {b : Bool} :
    ∀ {n : ℕ}, (k (n + calls.countP fun c => f c.1 c.2.value)).Decides callee b →
      (countValid calls n k).Decides callee b := by
  induction calls with
  | nil => exact fun hk => hk
  | cons c calls ih =>
    intro n hk
    have ⟨hc, hcalls⟩ := List.forall_mem_cons.1 h
    refine .guarded (hc c.2) (ih hcalls ?_)
    rw [List.countP_cons] at hk
    cases hf : f c.1 c.2.value <;> simpa [hf, Nat.add_assoc, Nat.add_comm] using hk

theorem untilValid_decides (h : ∀ c ∈ calls, Knows callee f c.1) {k : Code} {b : Bool}
    (hk : k.Decides callee b) :
    (untilValid calls k).Decides callee ((calls.any fun c => f c.1 c.2.value) || b) := by
  induction calls with
  | nil => exact hk
  | cons c calls ih =>
    have ⟨hc, hcalls⟩ := List.forall_mem_cons.1 h
    refine .guarded (hc c.2) ?_
    cases hf : f c.1 c.2.value with
    | true => simpa [hf] using Prog.Decides.skip
    | false => simpa [hf] using ih hcalls

theorem countUpToTwo_decides (h : ∀ c ∈ calls, Knows callee f c.1) {k : ℕ → Code}
    (hk : ∀ m, (k m).Decides callee (m == 1)) :
    ∀ {n : ℕ}, n ≤ 1 → (countUpToTwo calls n k).Decides callee
      (n + (calls.countP fun c => f c.1 c.2.value) == 1) := by
  induction calls with
  | nil => exact fun {n} _ => hk n
  | cons c calls ih =>
    intro n hn
    have ⟨hc, hcalls⟩ := List.forall_mem_cons.1 h
    refine .guarded (hc c.2) ?_
    cases hf : f c.1 c.2.value with
    | true =>
      rw [List.countP_cons]
      simp only [hf, if_true]
      split_ifs with htwo
      · have heq : (n + ((calls.countP fun c => f c.1 c.2.value) + 1) == 1) = (n + 1 == 1) := by
          rw [Bool.eq_iff_iff, beq_iff_eq, beq_iff_eq]
          omega
        rw [heq]
        exact hk (n + 1)
      · have := ih hcalls (n := n + 1) (by omega)
        rwa [Nat.add_right_comm, Nat.add_assoc] at this
    | false =>
      rw [List.countP_cons]
      simpa [hf] using ih hcalls hn

theorem runBranch_decides {branch : CompiledSchema} (h : Knows callee f branch) (type : RString) :
    (runBranch d branch type).Decides callee (f branch d.value) :=
  .guarded (h d) (.failWhen (Bool.not_not _).symm)

theorem validateIf_decides {ifSchema : CompiledSchema} (hcs : cs.ifSchema = some ifSchema)
    (h : ∀ c ∈ cs.children, Knows callee f c) :
    (validateIf cs d ifSchema).Decides callee ((cs.applicators.map f).conditional d.value) := by
  simp only [CompiledSchema.mem_children, or_imp, forall_and] at h
  obtain ⟨hif, hthen, helse, -⟩ := h
  have hmeaning : (cs.applicators.map f).conditional d.value =
      (if f ifSchema d.value then cs.thenSchema else cs.elseSchema).all (f · d.value) := by
    simp only [Applicators.conditional, Applicators.map, CompiledSchema.applicators, hcs,
      Option.map_some]
    split_ifs <;> rw [Option.all_map]
  rw [hmeaning, validateIf]
  by_cases hnone : cs.thenSchema.isNone ∧ cs.elseSchema.isNone
  · rw [if_pos hnone]
    rw [Option.isNone_iff_eq_none, Option.isNone_iff_eq_none] at hnone
    rw [hnone.1, hnone.2, ite_self]
    exact .skip
  · rw [if_neg hnone]
    refine .guarded (hif _ hcs d) ?_
    cases f ifSchema d.value with
    | true =>
      cases ht : cs.thenSchema with
      | none => simpa [ht] using Prog.Decides.skip
      | some thenSchema => simpa using runBranch_decides (hthen _ ht) _
    | false =>
      cases he : cs.elseSchema with
      | none => simpa [he] using Prog.Decides.skip
      | some elseSchema => simpa using runBranch_decides (helse _ he) _

theorem validateNot_decides {notSchema : CompiledSchema} (h : Knows callee f notSchema) :
    (validateNot d notSchema).Decides callee (!f notSchema d.value) :=
  .guarded (h d) (.failWhen rfl)

theorem validateAllOf_decides {allOf : List CompiledSchema} (h : ∀ c ∈ allOf, Knows callee f c) :
    (validateAllOf cs d allOf).Decides callee (allOf.all (f · d.value)) := by
  refine countValid_decides (f := f) (by simpa using h) ?_
  have hcount : (decide (0 + (allOf.map (·, d)).countP (fun c => f c.1 c.2.value) ≠ allOf.length))
      = !allOf.all (f · d.value) := by
    rw [Nat.zero_add, List.countP_map, Bool.eq_iff_iff, decide_eq_true_iff, Bool.not_eq_true',
      ← Bool.not_eq_true, List.all_eq_true, ne_eq, ← List.countP_eq_length]
    rfl
  exact .failWhen (by rw [hcount, Bool.not_not])

theorem validateAnyOf_decides {anyOf : List CompiledSchema} (h : ∀ c ∈ anyOf, Knows callee f c) :
    (validateAnyOf cs d anyOf).Decides callee (anyOf.any (f · d.value)) := by
  have hcalls : ∀ c ∈ anyOf.map (·, d), Knows callee f c.1 := by simpa using h
  have hany := untilValid_decides hcalls (k := yieldError cs d (str "anyOf")) .fail
  rw [Bool.or_false, List.any_map] at hany
  exact hany

theorem validateOneOf_decides {oneOf : List CompiledSchema} (h : ∀ c ∈ oneOf, Knows callee f c) :
    (validateOneOf cs d oneOf).Decides callee (oneOf.countP (f · d.value) == 1) := by
  have hcalls : ∀ c ∈ oneOf.map (·, d), Knows callee f c.1 := by simpa using h
  have hone := countUpToTwo_decides hcalls
    (k := fun validCount => .when (validCount ≠ 1) (yieldError cs d (str "oneOf")))
    (fun m => .failWhen (by rw [decide_not, Bool.not_not]; rfl)) (Nat.zero_le 1)
  rw [Nat.zero_add, List.countP_map] at hone
  exact hone

end Combinators

/-! ## Arrays -/

section Array

variable {callee : Bool → Call → Judgement Site RubyError} {f : CompiledSchema → Value → Bool}
  {cs : CompiledSchema} {d : Datum}

theorem map_elements (xs : List Value) : (d.elements xs).map (·.2.value) = xs := by
  rw [Datum.elements, List.map_map]
  exact List.zipIdx_map_fst 0 xs

theorem all_elements (p : Value → Bool) (xs : List Value) :
    ((d.elements xs).all fun x => p x.2.value) = xs.all p := by
  conv_rhs => rw [← map_elements (d := d) xs, List.all_map]
  rfl

theorem validateItems_decides {items : CompiledSchema} (h : Knows callee f items)
    (xs : List Value) : (validateItems d items xs).Decides callee (xs.all (f items)) := by
  rw [← all_elements (d := d)]
  exact .each fun x _ => h x.2

theorem validateWithMultipleItemsSchema_decides {itemsVal : List CompiledSchema}
    (h : ∀ c ∈ itemsVal, Knows callee f c) (xs : List Value) :
    (validateWithMultipleItemsSchema d itemsVal xs).Decides callee
      ((xs.zip (itemsVal.map f)).all fun x => x.2 x.1) := by
  have hzip : xs.zip (itemsVal.map f) =
      ((d.elements xs).zip itemsVal).map fun x => (x.1.2.value, f x.2) := by
    conv_lhs => rw [← map_elements (d := d) xs, List.zip_map]
    rfl
  rw [hzip, List.all_map]
  exact .each fun x hx => h x.2 (List.of_mem_zip hx).2 x.1.2

theorem validateAdditionalItems_decides {itemsVal : List CompiledSchema}
    {additionalItems : CompiledSchema} (h : Knows callee f additionalItems) (xs : List Value) :
    (validateAdditionalItems d itemsVal additionalItems xs).Decides callee
      ((xs.drop itemsVal.length).all (f additionalItems)) := by
  have hdrop : xs.drop itemsVal.length =
      ((d.elements xs).drop itemsVal.length).map (·.2.value) := by
    rw [List.map_drop, map_elements]
  rw [hdrop, List.all_map]
  exact .each fun x _ => h x.2

/-- The comparison of a number of elements with an integer keyword. -/
theorem compare_decides (m : ℤ) (c : ℤ → Bool) (type : RString) :
    (converted (num2long (.int m)) fun m => .when (c m) (yieldError cs d type) : Code).Decides
      callee (!c m) := by
  rw [num2long]
  split_ifs
  · exact .failWhen rfl
  · exact .raise

theorem maxContains_decides (validCount : ℕ) :
    (match cs.maxContainsVal with
      | some (.int n) => converted (num2long (.int n)) fun m =>
          .when (validCount > m) (yieldError cs d (str "maxContains"))
      | _ => .skip : Code).Decides callee
        (Applicators.countAtMost cs.maxContainsVal validCount) := by
  cases cs.maxContainsVal with
  | none => exact .skip
  | some v =>
    cases v with
    | int m =>
      have hmeaning : Applicators.countAtMost (some (.int m)) validCount =
          !decide ((validCount : ℤ) > m) := by
        simp [Applicators.countAtMost, ← decide_not]
      rw [hmeaning]
      exact compare_decides m (fun m => validCount > m) _
    | _ => exact .skip

theorem minContains_decides {contains : CompiledSchema} (validCount : ℕ) :
    (match cs.minContainsVal with
      | some (.int n) => converted (num2long (.int n)) fun m =>
          .when (validCount < m) (yieldError cs d (str "minContains"))
      | _ => .when (validCount = 0) (yieldError contains d (str "contains")) : Code).Decides
        callee (Applicators.countAtLeast cs.minContainsVal validCount) := by
  have hdefault : (Prog.when (validCount = 0) (yieldError contains d (str "contains"))).Decides
      callee (1 ≤ validCount : Bool) :=
    .failWhen (by simp [Nat.one_le_iff_ne_zero])
  cases cs.minContainsVal with
  | none => exact hdefault
  | some v =>
    cases v with
    | int m =>
      have hmeaning : Applicators.countAtLeast (some (.int m)) validCount =
          !decide ((validCount : ℤ) < m) := by
        simp [Applicators.countAtLeast, ← decide_not]
      rw [hmeaning]
      exact compare_decides m (fun m => validCount < m) _
    | _ => exact hdefault

theorem validateContains_decides {contains : CompiledSchema}
    (hcs : cs.containsSchema = some contains) (h : Knows callee f contains) (xs : List Value) :
    (validateContains cs d contains xs).Decides callee
      ((cs.applicators.map f).containing cs xs) := by
  have hcount : ((d.elements xs).map fun x => (contains, x.2)).countP
      (fun c => f c.1 c.2.value) = xs.countP (f contains) := by
    conv_rhs => rw [← map_elements (d := d) xs]
    rw [List.countP_map, List.countP_map]
    rfl
  have hcalls : ∀ c ∈ (d.elements xs).map (fun x => (contains, x.2)), Knows callee f c.1 := by
    intro c hc
    obtain ⟨x, -, rfl⟩ := List.mem_map.1 hc
    exact h
  simp only [Applicators.containing, Applicators.map, CompiledSchema.applicators, hcs,
    Option.map_some, Option.all_some]
  refine countValid_decides hcalls ?_
  rw [Nat.zero_add, hcount, ← Bool.and_true (Applicators.countAtLeast _ _)]
  exact .seq (maxContains_decides _) fun _ => .seq (minContains_decides _) fun _ => .skip

end Array

/-! ## Objects -/

section Object

variable {callee : Bool → Call → Judgement Site RubyError} {f : CompiledSchema → Value → Bool}
  {rt : Runtime} {cs : CompiledSchema} {d : Datum}

theorem properties_lookup (k : RString) :
    ((cs.applicators.map f).properties.getD []).lookup k = (schemaOf cs.propertiesVal k).map f := by
  rw [schemaOf, ← lookup_map]
  simp only [Applicators.map, CompiledSchema.applicators]
  cases cs.propertiesVal <;> rfl

theorem matching_eq (k : RString) : (cs.applicators.map f).matching rt k =
    (cs.patterns.filter fun p => (rt.regMatch p.1 k).toOption == some true).map (f ·.2) := by
  simp only [Applicators.matching, Applicators.map, CompiledSchema.applicators,
    CompiledSchema.patterns]
  cases cs.patternPropertiesVal with
  | none => rfl
  | some m =>
    rw [Option.map_some, Option.getD_some, Option.getD_some, List.filter_map, List.map_map]
    rfl

theorem validated_eq (k : RString) : validated rt cs k =
    ((((cs.applicators.map f).properties.getD []).lookup k).isSome
      || !((cs.applicators.map f).matching rt k).isEmpty) := by
  rw [validated, properties_lookup, matching_eq, Option.isSome_map, List.isEmpty_map]
  congr 1
  rw [Bool.eq_iff_iff, List.any_eq_true, Bool.not_eq_true', List.isEmpty_eq_false_iff_exists_mem]
  simp only [List.mem_filter]

/-- A property that is checked by an optional child. -/
theorem optional_decides {o : Option CompiledSchema} (d' : Datum)
    (h : ∀ c, o = some c → Knows callee f c) :
    (match o with
      | some c => (.call (c, d') : Code)
      | none => .skip).Decides callee (o.all (f · d'.value)) := by
  cases o with
  | none => exact .skip
  | some c => exact h c rfl d'

variable (h : ∀ c ∈ cs.children, Knows callee f c)

include h

theorem validateObjectProperty_decides (k : RString) (v : Value) :
    (validateObjectProperty rt cs d k v).Decides callee
      ((cs.applicators.map f).property rt k v) := by
  simp only [CompiledSchema.mem_children, or_imp, forall_and] at h
  obtain ⟨-, -, -, -, -, -, -, -, -, -, -, hnames, hadditional, hproperties, hpatterns, -⟩ := h
  have hpattern : ∀ p ∈ cs.patterns,
      (converted (rt.regMatch p.1 k) fun m => .when m (.call (p.2, d.child (.str k) v))).Decides
        callee (!((rt.regMatch p.1 k).toOption == some true) || f p.2 v) := by
    intro p hp
    have hchild := hpatterns p.2 (mem_entries_of_mem hp) (d.child (.str k) v)
    cases rt.regMatch p.1 k with
    | error e => exact .raise
    | ok m =>
      cases m with
      | true => exact hchild
      | false => exact .skip
  have hall : (cs.patterns.all fun p =>
      !((rt.regMatch p.1 k).toOption == some true) || f p.2 v) =
        ((cs.applicators.map f).matching rt k).all (· v) := by
    rw [matching_eq, List.all_map, List.all_filter]
    rfl
  have hmeaning : (cs.applicators.map f).property rt k v =
      (cs.propertyNamesSchema.all (f · (.str k)) &&
        ((schemaOf cs.propertiesVal k).all (f · v) &&
          ((cs.patterns.all fun p => !((rt.regMatch p.1 k).toOption == some true) || f p.2 v) &&
            ((validated rt cs k || cs.additionalPropertiesSchema.all (f · v)) && true)))) := by
    rw [Applicators.property, ← validated_eq, properties_lookup, hall]
    simp only [Applicators.map, CompiledSchema.applicators, Option.all_map, Bool.and_true,
      Bool.and_assoc]
  rw [hmeaning]
  refine .seq (optional_decides (d.name k) hnames) fun _ => .seq ?_ fun _ =>
    .seq (.block hpattern) fun _ => .seq ?_ fun _ => .skip
  · exact optional_decides (d.child (.str k) v)
      fun c hc => hproperties c (mem_entries_of_lookup hc)
  · cases ha : cs.additionalPropertiesSchema with
    | none =>
      rw [Option.all_none, Bool.or_true]
      exact .skip
    | some additional =>
      have hchild : (Prog.when (!validated rt cs k)
          (.call (additional, d.child (.str k) v)) : Code).Decides callee
            (!!validated rt cs k || f additional v) :=
        .when fun _ => hadditional additional ha (d.child (.str k) v)
      rwa [Bool.not_not] at hchild

theorem validateDependencies_decides (kvs : List (Value × Value)) (hd : d.value = .hash kvs) :
    (validateDependencies d kvs (cs.dependenciesVal.getD [])).Decides callee
      ((cs.applicators.map f).depending kvs) := by
  simp only [CompiledSchema.mem_children, or_imp, forall_and] at h
  obtain ⟨-, -, -, -, -, -, -, -, -, -, -, -, -, -, -, hdependencies, -⟩ := h
  have hmeaning : (cs.applicators.map f).depending kvs = (cs.dependenciesVal.getD []).all
      fun p => !(Value.lookup kvs (.str p.1)).isSome || f p.2 (.hash kvs) := by
    simp only [Applicators.depending, Applicators.map, CompiledSchema.applicators]
    cases cs.dependenciesVal with
    | none => rfl
    | some m =>
      rw [Option.map_some, Option.getD_some, Option.getD_some, List.all_map]
      rfl
  rw [hmeaning]
  refine .block fun p hp => .when fun _ => ?_
  rw [← hd]
  exact hdependencies p.2 (mem_entries_of_mem hp) d

theorem validateProperties_decides (kvs : List (Value × Value)) :
    (validateProperties rt cs d kvs).Decides callee
      ((Value.stringEntries kvs).all fun kv => (cs.applicators.map f).property rt kv.1 kv.2) :=
  .each fun kv _ => validateObjectProperty_decides h kv.1 kv.2

end Object

/-! ## Types -/

section Types

variable {callee : Bool → Call → Judgement Site RubyError} {f : CompiledSchema → Value → Bool}
  {rt : Runtime} {cs : CompiledSchema} {d : Datum}

theorem elements_decides (h : ∀ c ∈ cs.children, Knows callee f c) (xs : List Value) :
    (match cs.itemsSchema, cs.itemsVal with
      | some items, _ => validateItems d items xs
      | none, some itemsVal => .seq (validateWithMultipleItemsSchema d itemsVal xs)
          (match cs.additionalItemsSchema with
            | some additionalItems => .when (itemsVal.length < xs.length)
                (validateAdditionalItems d itemsVal additionalItems xs)
            | none => .skip)
      | none, none => .skip).Decides callee ((cs.applicators.map f).elements xs) := by
  simp only [CompiledSchema.mem_children, or_imp, forall_and] at h
  obtain ⟨-, -, -, -, -, -, -, hitems, hlist, hadditional, -⟩ := h
  simp only [Applicators.elements, Applicators.map, CompiledSchema.applicators]
  cases hi : cs.itemsSchema with
  | some items => exact validateItems_decides (hitems _ hi) xs
  | none =>
    cases hl : cs.itemsVal with
    | none => exact .skip
    | some itemsVal =>
      have hlist : ∀ c ∈ itemsVal, Knows callee f c := by
        simpa [CompiledSchema.members, hl] using hlist
      simp only [Option.map_none, Option.map_some, List.length_map]
      refine .seq (validateWithMultipleItemsSchema_decides hlist xs) fun _ => ?_
      cases ha : cs.additionalItemsSchema with
      | none => exact .skip
      | some additionalItems =>
        simp only [Option.map_some, Option.all_some]
        by_cases hlt : itemsVal.length < xs.length
        · rw [decide_eq_true hlt]
          exact validateAdditionalItems_decides (hadditional _ ha) xs
        · rw [decide_eq_false hlt, List.drop_eq_nil_of_le (not_lt.1 hlt)]
          exact .skip

theorem validateArray_decides {xs : List Value} (hd : d.value = .arr xs)
    (h : ∀ c ∈ cs.children, Knows callee f c) :
    (validateArray cs d).Decides callee
      ((validateArraySizes cs (.root d.value) xs).passes &&
        ((cs.applicators.map f).elements xs && (cs.applicators.map f).containing cs xs)) := by
  rw [validateArray, hd, ← Bool.and_true (Applicators.containing _ _ _)]
  refine .seq (validateArraySizes_like xs).decides fun _ => .seq (elements_decides h xs) fun _ =>
    .seq ?_ fun _ => .skip
  cases hc : cs.containsSchema with
  | none =>
    simp only [Applicators.containing, Applicators.map, CompiledSchema.applicators, hc]
    exact .skip
  | some contains =>
    exact validateContains_decides hc
      (h _ (by simp [CompiledSchema.mem_children, hc])) xs

theorem validateObject_decides {kvs : List (Value × Value)} (hd : d.value = .hash kvs)
    (h : ∀ c ∈ cs.children, Knows callee f c) :
    (validateObject rt cs d).Decides callee
      ((validateObjectSizes cs (.root d.value) kvs).passes &&
        ((cs.applicators.map f).depending kvs &&
          (Value.stringEntries kvs).all fun kv =>
            (cs.applicators.map f).property rt kv.1 kv.2)) := by
  rw [validateObject, hd, ← Bool.and_true ((Value.stringEntries kvs).all _)]
  exact .seq (validateObjectSizes_like kvs).decides fun _ =>
    .seq (validateDependencies_decides h kvs hd) fun _ =>
      .seq (validateProperties_decides h kvs) fun _ => .skip

/-- The checks of the other types fail on an array or an object. -/
theorem scalarType_decides (hd : (∃ xs, d.value = .arr xs) ∨ ∃ kvs, d.value = .hash kvs)
    {t : TypeValidationFunction} (hcs : cs.typeValidationFunction = some t)
    (ht : t ∈ [.validateNull, .validateBool, .validateString, .validateInteger, .validateNumber]) :
    (validateType rt cs d).Decides callee false := by
  have hfail : ∀ type, (yieldError cs d type).Decides callee false := fun _ => .fail
  rw [validateType, hcs]
  obtain ⟨xs, hd⟩ | ⟨kvs, hd⟩ := hd <;> cases t with
  | validateNull => rw [validateNull, hd]; exact hfail _
  | validateBool => rw [validateBool, hd]; exact hfail _
  | validateString => rw [validateString, hd]; exact hfail _
  | validateInteger => rw [validateInteger, hd]; exact hfail _
  | validateNumber => rw [validateNumber, hd]; exact hfail _
  | _ => exact absurd ht (by decide)

/-- The type check of an array, given that of the schemas for arrays. -/
theorem validateType_array {xs : List Value} {b : Bool} (hd : d.value = .arr xs)
    (hcs : cs.typeValidationFunction ≠ some .noOpValidate)
    (h : (validateArray cs d).Decides callee b) :
    (validateType rt cs d).Decides callee (admits cs .array .validateArray && b) := by
  have hfail : ∀ type, (yieldError cs d type).Decides callee false := fun _ => .fail
  rw [admits]
  cases ht : cs.typeValidationFunction with
  | none =>
    rw [validateType, ht]
    exact .crash
  | some t =>
    cases t with
    | noOpValidate => exact absurd ht hcs
    | validateArray =>
      rw [validateType, ht]
      exact h
    | validateByDataType =>
      rw [validateType, ht, validateByDataType, hd]
      exact h
    | validateByTypeList =>
      rw [validateType, ht]
      show (validateByTypeList rt cs d).Decides callee _
      rw [validateByTypeList, hd]
      by_cases hmem : TypeFlag.array ∈ cs.typeFlags
      · simpa [hmem] using h
      · simpa [hmem] using hfail _
    | validateObject =>
      rw [validateType, ht]
      show (validateObject rt cs d).Decides callee _
      rw [validateObject, hd]
      exact hfail _
    | _ => exact scalarType_decides (.inl ⟨_, hd⟩) ht (by decide)

/-- The type check of an object, given that of the schemas for objects. -/
theorem validateType_object {kvs : List (Value × Value)} {b : Bool} (hd : d.value = .hash kvs)
    (hcs : cs.typeValidationFunction ≠ some .noOpValidate)
    (h : (validateObject rt cs d).Decides callee b) :
    (validateType rt cs d).Decides callee (admits cs .object .validateObject && b) := by
  have hfail : ∀ type, (yieldError cs d type).Decides callee false := fun _ => .fail
  rw [admits]
  cases ht : cs.typeValidationFunction with
  | none =>
    rw [validateType, ht]
    exact .crash
  | some t =>
    cases t with
    | noOpValidate => exact absurd ht hcs
    | validateObject =>
      rw [validateType, ht]
      exact h
    | validateByDataType =>
      rw [validateType, ht, validateByDataType, hd]
      exact h
    | validateByTypeList =>
      rw [validateType, ht]
      show (validateByTypeList rt cs d).Decides callee _
      rw [validateByTypeList, hd]
      by_cases hmem : TypeFlag.object ∈ cs.typeFlags
      · simpa [hmem] using h
      · simpa [hmem] using hfail _
    | validateArray =>
      rw [validateType, ht]
      show (validateArray cs d).Decides callee _
      rw [validateArray, hd]
      exact hfail _
    | _ => exact scalarType_decides (.inr ⟨_, hd⟩) ht (by decide)

/-- The type check of any value, with the schemas for its elements and properties. -/
theorem validateType_decides (hcs : cs.typeValidationFunction ≠ some .noOpValidate)
    (h : ∀ c ∈ cs.children, Knows callee f c) :
    (validateType rt cs d).Decides callee
      (typeHolds rt cs d.value && (cs.applicators.map f).parts rt cs d.value) := by
  cases hd : d.value with
  | arr xs =>
    rw [typeHolds, Applicators.parts, Bool.and_assoc]
    have harray := validateArray_decides hd h
    rw [hd] at harray
    exact validateType_array hd hcs harray
  | hash kvs =>
    rw [typeHolds, Applicators.parts, Bool.and_assoc]
    have hobject : (validateObject rt cs d).Decides callee _ := validateObject_decides hd h
    rw [hd] at hobject
    exact validateType_object hd hcs hobject
  | _ =>
    show Prog.Decides callee _ ((validateType rt cs (.root _)).passes && true)
    rw [Bool.and_true]
    exact (validateType_like rt hd (by simp [Datum.root]) (by simp [Datum.root])).decides

end Types

/-! ## Schemas -/

section Schemas

variable {callee : Bool → Call → Judgement Site RubyError} {f : CompiledSchema → Value → Bool}
  {rt : Runtime} {cs : CompiledSchema} {d : Datum}

theorem ifSet_decides {α : Type} {field : Option α} {g : α → Code} {p : α → Bool}
    (h : ∀ a, field = some a → (g a).Decides callee (p a)) :
    (ifSet field g).Decides callee (field.all p) := by
  cases field with
  | none => exact .skip
  | some a => exact h a rfl

theorem conditional_decides (h : ∀ c ∈ cs.children, Knows callee f c) :
    (ifSet cs.ifSchema (validateIf cs d)).Decides callee
      ((cs.applicators.map f).conditional d.value) := by
  cases hi : cs.ifSchema with
  | none =>
    simp only [Applicators.conditional, Applicators.map, CompiledSchema.applicators, hi]
    exact .skip
  | some ifSchema => exact validateIf_decides hi h

theorem validate_decides (hcs : cs.typeValidationFunction ≠ some .noOpValidate)
    (h : ∀ c ∈ cs.children, Knows callee f c) :
    (validate rt cs d).Decides callee
      (leafHolds rt cs d.value && (cs.applicators.map f).holds rt cs d.value) := by
  have hmeaning : (leafHolds rt cs d.value && (cs.applicators.map f).holds rt cs d.value) =
      ((typeHolds rt cs d.value && (cs.applicators.map f).parts rt cs d.value) &&
        (cs.constVal.all (fun c => Value.equal false c d.value) &&
          (cs.enumVal.all (fun e => Value.includes e d.value) &&
            ((cs.applicators.map f).conditional d.value &&
              (cs.notSchema.all (fun c => !f c d.value) &&
                (cs.allOfVal.all (·.all (f · d.value)) &&
                  (cs.anyOfVal.all (·.any (f · d.value)) &&
                    (cs.oneOfVal.all (·.countP (f · d.value) == 1) && true)))))))) := by
    rw [leafHolds, Applicators.holds, Applicators.combination]
    simp only [Applicators.map, CompiledSchema.applicators, Option.all_map, List.all_map,
      List.any_map, List.countP_map, Function.comp_def, Bool.and_true]
    ac_rfl
  rw [hmeaning]
  have hconv := h
  simp only [CompiledSchema.mem_children, or_imp, forall_and] at h
  obtain ⟨-, -, -, hall, hany, hone, hnot, -⟩ := h
  refine .seq (validateType_decides hcs hconv) fun _ => .seq ?_ fun _ => .seq ?_ fun _ =>
    .seq (conditional_decides hconv) fun _ => .seq ?_ fun _ => .seq ?_ fun _ => .seq ?_ fun _ =>
      .seq ?_ fun _ => .skip
  · exact ifSet_decides fun constVal _ => .failWhen (Bool.not_not _).symm
  · exact ifSet_decides fun enumVal _ => .failWhen (Bool.not_not _).symm
  · exact ifSet_decides fun notSchema hn => validateNot_decides (hnot _ hn)
  · refine ifSet_decides fun allOf ha => validateAllOf_decides ?_
    simpa [CompiledSchema.members, ha] using hall
  · refine ifSet_decides fun anyOf ha => validateAnyOf_decides ?_
    simpa [CompiledSchema.members, ha] using hany
  · refine ifSet_decides fun oneOf ho => validateOneOf_decides ?_
    simpa [CompiledSchema.members, ho] using hone

/-- The body of a schema that is no reference decides its meaning. -/
theorem body_decides {heap : Addr → Option CompiledSchema}
    (href : cs.validationFunction ≠ some .validateRef)
    (hcs : cs.typeValidationFunction ≠ some .noOpValidate)
    (h : ∀ c ∈ cs.children, Knows callee (denote rt) c) :
    (body rt heap (cs, d)).Decides callee (denote rt cs d.value) := by
  rw [denote_eq, meaning, body]
  cases hv : cs.validationFunction with
  | none => exact .crash
  | some v =>
    cases v with
    | noOpValidate => exact .skip
    | falseValidate => exact .fail
    | validate => exact validate_decides hcs h
    | validateRef => exact absurd hv href

end Schemas

/-- The schemas of the tree have no `$ref`, and their `type` keywords, if any, are type names or
lists of them. -/
structure CompiledSchema.RefFree (cs : CompiledSchema) : Prop where
  validationFunction : ∀ c, cs.Reach c → c.validationFunction ≠ some .validateRef
  typeValidationFunction : ∀ c, cs.Reach c → c.typeValidationFunction ≠ some .noOpValidate

theorem CompiledSchema.RefFree.node {cs : CompiledSchema}
    (hv : cs.validationFunction ≠ some .validateRef)
    (ht : cs.typeValidationFunction ≠ some .noOpValidate) (h : ∀ c ∈ cs.children, c.RefFree) :
    cs.RefFree := by
  constructor <;> intro c hc <;> rcases CompiledSchema.reach_iff.1 hc with rfl | ⟨c', hc', hr⟩
  · exact hv
  · exact (h c' hc').validationFunction c hr
  · exact ht
  · exact (h c' hc').typeValidationFunction c hr

theorem CompiledSchema.RefFree.child {cs c : CompiledSchema} (h : cs.RefFree)
    (hc : c ∈ cs.children) : c.RefFree :=
  ⟨fun c' hc' => h.validationFunction c' ((Reach.root.child hc).trans hc'),
    fun c' hc' => h.typeValidationFunction c' ((Reach.root.child hc).trans hc')⟩

section Run

variable {rt : Runtime} {heap : Addr → Option CompiledSchema} {overrun : Overrun}
  {cs : CompiledSchema} {v : Value}

/-- Some fuel is enough for every schema of a list. -/
theorem exists_fuel {css : List CompiledSchema}
    (h : ∀ c ∈ css, ∃ n, Knows ((machine rt heap overrun).judge n) (denote rt) c) :
    ∃ n, ∀ c ∈ css, Knows ((machine rt heap overrun).judge n) (denote rt) c := by
  have hmono : ∀ {n m : ℕ} {c : CompiledSchema}, n ≤ m →
      Knows ((machine rt heap overrun).judge n) (denote rt) c →
        Knows ((machine rt heap overrun).judge m) (denote rt) c := by
    intro n m c hnm hc d
    rw [(machine rt heap overrun).judge_mono hnm true (c, d) (hc d).ne_starved]
    exact hc d
  induction css with
  | nil => exact ⟨0, fun c hc => absurd hc List.not_mem_nil⟩
  | cons c css ih =>
    have ⟨⟨n, hn⟩, hcss⟩ := List.forall_mem_cons.1 h
    obtain ⟨m, hm⟩ := ih hcss
    exact ⟨max n m, List.forall_mem_cons.2 ⟨hmono (le_max_left n m) hn,
      fun c hc => hmono (le_max_right n m) (hm c hc)⟩⟩

/-- The judgement of a schema without references decides its meaning. -/
theorem judge_decides (cs : CompiledSchema) :
    cs.RefFree → ∃ n, Knows ((machine rt heap overrun).judge n) (denote rt) cs := by
  induction cs using CompiledSchema.induct with
  | h cs ih =>
    intro hcs
    obtain ⟨n, hn⟩ := exists_fuel fun c hc => ih c hc (hcs.child hc)
    exact ⟨n + 1, fun d => body_decides (hcs.validationFunction cs .root)
      (hcs.typeValidationFunction cs .root) hn⟩

/-- **The verdict of `is_valid` is the meaning of the schema.** For a schema without references,
from a context within `context->path` and as long as the run stays within it, `is_valid` ends, and
unless a check of a single value raises an exception or traps, it returns the meaning of the schema
on the value. -/
theorem isValid_denote {context : Context Token} {d : Datum} (hcs : cs.RefFree)
    (hw : (machine rt heap overrun).Within (context.depth + 1) (start context))
    (hs : ∀ n, (machine rt heap overrun).Safe
      ((machine rt heap overrun).run n (cs, d) ((start context).mode true)).2) :
    ∃ r, IsValid rt heap overrun (cs, d) context r ∧
      ((∃ x, r.1 = .raised x) ∨ r.1 = .crashed ∨ r.verdict = some (denote rt cs d.value)) := by
  obtain ⟨n, hn⟩ : ∃ n, Knows ((machine rt heap overrun).judge n) (denote rt) cs :=
    judge_decides cs hcs
  have hw' : (machine rt heap overrun).Within (((start context).mode true).depth + 1)
      ((start context).mode true) := ⟨hw.safe, hw.nonneg, hw.lt, hw.filled⟩
  obtain ⟨hne, hr⟩ := Machine.run_decides hw' rfl (hn d) (hs n)
  exact ⟨_, ⟨n, rfl, hne⟩, hr⟩

theorem isValid_denote_itemsNotNotFalse : ∃ r,
    IsValid .bare (fun _ => none) noOverrun (itemsNotNotFalse, .root (.arr [.nil]))
        createContext r ∧
      ((∃ x, r.1 = .raised x) ∨ r.1 = .crashed ∨
        r.verdict = some (denote .bare itemsNotNotFalse (.arr [.nil]))) := by
  refine isValid_denote ?_ (within_createContext false) fun n => ?_
  · refine .node (by decide) (by decide) fun c hc => ?_
    obtain rfl : c = _ := List.mem_singleton.1 hc
    refine .node (by decide) (by decide) fun c hc => ?_
    obtain rfl : c = _ := List.mem_singleton.1 hc
    refine .node (by decide) (by decide) fun c hc => ?_
    obtain rfl : c = _ := List.mem_singleton.1 hc
    exact .node (by decide) (by decide) fun c hc => absurd hc List.not_mem_nil
  · refine safe_evaluate_iff.2 ?_
    rcases le_or_gt 4 n with hn | hn
    · rw [Machine.judge_mono _ hn _ _ (by decide)]
      decide
    · obtain rfl | rfl | rfl | rfl : n = 0 ∨ n = 1 ∨ n = 2 ∨ n = 3 := by omega
      all_goals decide

end Run

end FastJsonSchema
