import FastJsonSchema.Compile.Typed
import FastJsonSchema.Ruby.Rounding
import FastJsonSchema.Validate.Layout
import FastJsonSchema.Validate.Mirrors
import FastJsonSchema.Validate.Verdict

/-!
# The types

An instance reaches its validator by the name of a type, by the flags of a list of types, or by its
own class. The routes agree except on an `Integer` that is checked as a number
(`validateType_admitted`, `validateType_number`): `validate_number` checks `multipleOf` by a cast to
`int`. This is the only difference that a verdict can show, as long as no `$ref` brings a value of
another type back to the schema (`typed_accepts_iff`).
-/

namespace FastJsonSchema

open Ruby Traversal

/-! ## The names of the types -/

namespace TypeFlag

/-- The name of a type. -/
def name : TypeFlag → RString
  | null => nullTypeStr
  | bool => booleanTypeStr
  | string => stringTypeStr
  | integer => integerTypeStr
  | number => numberTypeStr
  | array => arrayTypeStr
  | object => objectStr

/-- The validator of a single type. -/
def function : TypeFlag → TypeValidationFunction
  | null => .validateNull
  | bool => .validateBool
  | string => .validateString
  | integer => .validateInteger
  | number => .validateNumber
  | array => .validateArray
  | object => .validateObject

/-- Whether a value is of a type. -/
def admits : TypeFlag → Value → Bool
  | null, .nil => true
  | bool, .bool _ => true
  | string, .str _ => true
  | integer, .int _ => true
  | number, .int _ => true
  | number, .float _ => true
  | array, .arr _ => true
  | object, .hash _ => true
  | _, _ => false

end TypeFlag

theorem typeFlag_name (flag : TypeFlag) : typeFlag flag.name = some flag := by
  cases flag <;> decide

/-- A value of `type` that names the types `flags`: one name, or a list of distinct names. -/
def Names (L : Value) (flags : List TypeFlag) : Prop :=
  (∃ flag, flags = [flag] ∧ L = .str flag.name) ∨
    flags ≠ [] ∧ flags.Nodup ∧ L = .arr (flags.map fun flag => .str flag.name)

/-- The dispatch of a value of `type` that names types. -/
def dispatch (L : Value) (flags : List TypeFlag) : TypeValidationFunction × List TypeFlag :=
  match L, flags with
  | .str _, flag :: _ => (flag.function, [])
  | _, flags => (.validateByTypeList, flags)

theorem parseTypes_names : ∀ (flags acc : List TypeFlag), (acc ++ flags).Nodup →
    parseTypes (flags.map fun flag => .str flag.name) acc = .ok (acc ++ flags) := by
  intro flags
  induction flags with
  | nil =>
    intro acc _
    rw [List.append_nil]
    rfl
  | cons flag flags ih =>
    intro acc h
    have hnot : flag ∉ acc := fun hm =>
      List.disjoint_of_nodup_append h hm List.mem_cons_self
    rw [List.map_cons, parseTypes, typeFlag_name]
    dsimp only
    rw [if_neg hnot, ih _ (by simpa using h), List.append_assoc, List.singleton_append]

/-- A value of `type` that names types is accepted. -/
theorem typeValidationFunction_names {kvs : List (Value × Value)} {L : Value}
    {flags : List TypeFlag} (hL : Names L flags) (hget : Value.get kvs typeStr = some L) :
    typeValidationFunction kvs = .ok (dispatch L flags) := by
  have haref : Value.aref kvs typeStr = L := by rw [Value.aref, hget]; rfl
  rw [typeValidationFunction, haref]
  rcases hL with ⟨flag, rfl, rfl⟩ | ⟨hne, hnodup, rfl⟩
  · cases flag <;> decide
  · have hmap : flags.map (fun flag => Value.str flag.name) ≠ [] := by simpa using hne
    dsimp only
    rw [parseTypeArray, if_neg hmap, parseTypes_names flags [] (by simpa using hnodup)]
    rfl

/-! ## The routes to a validator -/

section Routes

variable (rt : Runtime) {cs : CompiledSchema} {d : Datum} {L : Value} {flags : List TypeFlag}

/-- An integer that is checked as a number. -/
def AsNumber (flags : List TypeFlag) (v : Value) : Prop :=
  .number ∈ flags ∧ .integer ∉ flags ∧ ∃ n, v = .int n

/-- Where the dispatch is by the class of the value, so that it admits every value. -/
def ByData (cs : CompiledSchema) : Prop := cs.typeValidationFunction = some .validateByDataType

theorem validateType_byData (hcs : ByData cs) :
    validateType rt cs d = validateByDataType rt cs d := by
  rw [validateType, hcs]

/-- The dispatch by the name of a type. -/
theorem validateType_single (flag : TypeFlag) :
    validateType rt (cs.withType (flag.function, [])) d =
      match flag with
      | .null => validateNull cs d
      | .bool => validateBool cs d
      | .string => validateString rt cs d
      | .integer => validateInteger rt cs d
      | .number => validateNumber rt cs d
      | .array => validateArray cs d
      | .object => validateObject rt cs d := by
  cases flag <;> rfl

/-- The dispatch by a list of types. -/
theorem validateType_list :
    validateType rt (cs.withType (.validateByTypeList, flags)) d =
      match d.value with
      | .nil => if .null ∈ flags then validateNull cs d else yieldError cs d (str "type")
      | .bool _ => if .bool ∈ flags then validateBool cs d else yieldError cs d (str "type")
      | .int _ =>
        if .integer ∈ flags then validateInteger rt cs d
        else if .number ∈ flags then validateNumber rt cs d
        else yieldError cs d (str "type")
      | .float _ => if .number ∈ flags then validateNumber rt cs d else yieldError cs d (str "type")
      | .str _ => if .string ∈ flags then validateString rt cs d else yieldError cs d (str "type")
      | .hash _ => if .object ∈ flags then validateObject rt cs d else yieldError cs d (str "type")
      | .arr _ => if .array ∈ flags then validateArray cs d else yieldError cs d (str "type")
      | .other _ => .skip := rfl

/-- **A value of one of the types** reaches the validator of its class, unless it is an integer
that is checked as a number. -/
theorem validateType_admitted (hcs : ByData cs) (hL : Names L flags)
    (hv : ∃ flag ∈ flags, flag.admits d.value = true) (hnum : ¬ AsNumber flags d.value) :
    validateType rt (cs.withType (dispatch L flags)) d = validateType rt cs d := by
  rw [validateType_byData rt hcs]
  obtain ⟨value, loc, isName⟩ := d
  obtain ⟨flag, hflag, hadmits⟩ := hv
  rcases hL with ⟨flag, rfl, rfl⟩ | ⟨-, -, rfl⟩
  · obtain rfl := List.mem_singleton.1 hflag
    rw [dispatch, validateType_single]
    cases flag <;> cases value <;> simp only [TypeFlag.admits, Bool.false_eq_true] at hadmits
    all_goals first | rfl | exact absurd ⟨hflag, by simp, _, rfl⟩ hnum
  · rw [dispatch, validateType_list]
    swap
    · simp
    cases value with
    | int n =>
      dsimp only
      split_ifs with hint hnumber
      · rfl
      · exact absurd ⟨hnumber, hint, n, rfl⟩ hnum
      · cases flag <;> simp_all [TypeFlag.admits]
    | other id => cases flag <;> simp [TypeFlag.admits] at hadmits
    | _ =>
      cases flag <;> simp only [TypeFlag.admits, Bool.false_eq_true] at hadmits
      dsimp only
      rw [if_pos hflag]
      rfl

/-- An integer that is checked as a number reaches `validate_number`. -/
theorem validateType_number (hL : Names L flags) (hnum : AsNumber flags d.value) :
    validateType rt (cs.withType (dispatch L flags)) d = validateNumber rt cs d := by
  obtain ⟨value, loc, isName⟩ := d
  obtain ⟨hnumber, hint, n, rfl⟩ := hnum
  rcases hL with ⟨flag, rfl, rfl⟩ | ⟨-, -, rfl⟩
  · obtain rfl := List.mem_singleton.1 hnumber
    rfl
  · rw [dispatch, validateType_list]
    · dsimp only
      rw [if_neg hint, if_pos hnumber]
    · simp

/-- A value of none of the types fails. -/
theorem validateType_mismatch (hL : Names L flags)
    (hv : ∀ flag ∈ flags, flag.admits d.value = false) (hjson : ∀ id, d.value ≠ .other id) :
    ∃ e, validateType rt (cs.withType (dispatch L flags)) d = .fail e := by
  obtain ⟨value, loc, isName⟩ := d
  have hnot : ∀ flag : TypeFlag, flag.admits value = true → flag ∉ flags := fun flag h hm =>
    absurd ((hv flag hm).symm.trans h) (by simp)
  rcases hL with ⟨flag, rfl, rfl⟩ | ⟨-, -, rfl⟩
  · have hflag := hv flag (List.mem_singleton_self _)
    rw [dispatch, validateType_single]
    cases flag <;> cases value <;> simp only [TypeFlag.admits, Bool.true_eq_false] at hflag
    all_goals exact ⟨_, rfl⟩
  · rw [dispatch, validateType_list]
    · cases value with
      | other id => exact absurd rfl (hjson id)
      | int n =>
        dsimp only
        rw [if_neg (hnot _ rfl), if_neg (hnot _ rfl)]
        exact ⟨_, rfl⟩
      | _ =>
        dsimp only
        rw [if_neg (hnot _ rfl)]
        exact ⟨_, rfl⟩
    · simp

end Routes

/-! ## Integers as numbers -/

section Numbers

variable {rt : Runtime} {cs : CompiledSchema} {d : Datum} {n : ℤ}

/-- The numbers that fit into an `int`. -/
def FitsInt (z : ℤ) : Prop := -2 ^ 31 ≤ z ∧ z < 2 ^ 31

/-- A C cast to `int` has some value of the type, whatever it is cast. -/
def CastsToInt (rt : Runtime) : Prop := ∀ x, FitsInt (rt.castOut 32 x)

/-- An integer of up to 53 bits fits into a `long`. -/
theorem num2long_of_abs_le (h : |n| ≤ 2 ^ 53) : num2long (.int n) = .ok n := by
  have hrange : longMin ≤ n ∧ n ≤ longMax := by
    rw [abs_le] at h
    unfold longMin longMax
    omega
  rw [num2long, if_pos hrange]

/-- The remainder of such an integer does not trap. -/
theorem not_traps (h : |n| ≤ 2 ^ 53) {m : ℤ} (hm : m ≠ 0) : ¬ (m = 0 ∨ n = longMin ∧ m = -1) := by
  rw [abs_le] at h
  unfold longMin
  omega

theorem ofInt_eq {m : ℤ} (h : |m| ≤ 2 ^ 53) : Double.ofInt m = .finite m := Double.round_intCast h

theorem lt_ofInt {m : ℤ} (hm : |m| ≤ 2 ^ 53) (hn : |n| ≤ 2 ^ 53) :
    Double.lt (.ofInt m) (.ofInt n) = decide (m < n) := by
  rw [ofInt_eq hm, ofInt_eq hn]
  simp [Double.lt]

theorem le_ofInt {m : ℤ} (hm : |m| ≤ 2 ^ 53) (hn : |n| ≤ 2 ^ 53) :
    Double.le (.ofInt m) (.ofInt n) = decide (m ≤ n) := by
  rw [Double.le, lt_ofInt hm hn, ofInt_eq hm, ofInt_eq hn, Bool.eq_iff_iff]
  simp [Double.eq, le_iff_lt_or_eq]

/-- The cast to `int` finds no fraction in the integers that fit only. -/
theorem hasFraction_eq_false_iff (hcast : CastsToInt rt) {r : ℚ} (hr : Double.OnGrid r) :
    rt.hasFraction 32 (.finite r) = false ↔ ∃ z : ℤ, r = z ∧ FitsInt z := by
  set t := ((Double.finite r).toInt 32).getD (rt.castOut 32 (.finite r)) with ht
  have hfits : FitsInt t := by
    rw [ht]
    unfold Double.toInt
    dsimp only
    split_ifs with h
    · exact h
    · exact hcast _
  have habs : |t| ≤ 2 ^ 53 := by
    unfold FitsInt at hfits
    rw [abs_le]
    omega
  have hfraction : rt.hasFraction 32 (.finite r) = (Double.round (r - t) != .finite 0) := by
    rw [Runtime.hasFraction, ← ht, ofInt_eq habs]
    rfl
  rw [hfraction, bne_eq_false_iff_eq]
  constructor
  · intro h
    by_contra hne
    refine Double.round_ne_zero (hr.sub (Double.onGrid_intCast t)) (fun h0 => hne ?_) h
    exact ⟨t, sub_eq_zero.1 h0, hfits⟩
  · rintro ⟨z, rfl, hz⟩
    have htz : t = z := by
      have hz' : -2 ^ (32 - 1) ≤ z ∧ z < 2 ^ (32 - 1) := hz
      rw [ht, Double.toInt, Rat.num_intCast, Rat.den_intCast, Nat.cast_one, Int.tdiv_one,
        if_pos hz']
      rfl
    rw [htz, sub_self]
    exact_mod_cast Double.round_intCast (n := 0) (by norm_num)

/-- **`multipleOf` by the cast to `int`**: the quotient is exact, and it fits. -/
theorem hasFraction_div (hcast : CastsToInt rt) {m : ℤ} (hn : |n| ≤ 2 ^ 53) (hm : |m| ≤ 2 ^ 53)
    (hm₀ : m ≠ 0) : rt.hasFraction 32 ((Double.ofInt n).div (.ofInt m)) = false ↔
      m ∣ n ∧ FitsInt (n / m) := by
  have hm₁ : (m : ℚ) ≠ 0 := by exact_mod_cast hm₀
  obtain ⟨hround, hexact⟩ := Double.round_div hn hm hm₀
  have hdiv : (Double.ofInt n).div (.ofInt m) = .finite (Double.rounded (n / m)) := by
    rw [ofInt_eq hn, ofInt_eq hm, Double.div, if_pos hm₁, hround]
  rw [hdiv, hasFraction_eq_false_iff hcast (Double.onGrid_rounded _)]
  constructor
  · rintro ⟨z, hz, hfits⟩
    have hq := hexact z hz
    rw [div_eq_iff hm₁] at hq
    have hnz : n = z * m := by exact_mod_cast hq
    rw [hnz, Int.mul_ediv_cancel _ hm₀]
    exact ⟨Dvd.intro_left z rfl, hfits⟩
  · rintro ⟨⟨z, rfl⟩, hfits⟩
    rw [Int.mul_ediv_cancel_left _ hm₀] at hfits
    refine ⟨z, ?_, hfits⟩
    have hz : |z| ≤ 2 ^ 53 := by
      unfold FitsInt at hfits
      rw [abs_le]
      omega
    have hquot : ((m * z : ℤ) : ℚ) / m = z := by
      rw [Int.cast_mul, mul_div_cancel_left₀ _ hm₁]
    rw [hquot]
    exact (Double.round_eq_finite (Double.round_intCast hz)).symm

/-- A numeric keyword within the integers that a double holds. -/
def Within53 (val : Option Value) : Prop := ∀ m, val = some (.int m) → |m| ≤ 2 ^ 53

theorem checkNumeric_congr {type : RString} {val : Option Value} {int int' : ℤ → Bool}
    {float : Double → Bool} (hval : Within53 val) (h : ∀ m, |m| ≤ 2 ^ 53 → int m = int' m) :
    checkNumeric cs d type val int float = checkNumeric cs d type val int' float := by
  unfold checkNumeric numericKeyword
  split
  next m =>
    have hm := hval m rfl
    rw [num2long_of_abs_le hm, converted, converted, h m hm]
  · rfl
  · rfl

/-- The four bounds of an integer are the same, whether it is compared as a `long` or as a
`double`. -/
theorem validateDouble_ofInt (hn : |n| ≤ 2 ^ 53)
    (hb : ∀ val ∈ [cs.maximumVal, cs.exclusiveMaximumVal, cs.minimumVal, cs.exclusiveMinimumVal],
      Within53 val) :
    validateDouble rt cs d (.ofInt n) = .block [
      checkNumeric cs d (str "multipleOf") cs.multipleOfVal
        (fun m => rt.hasFraction 32 ((Double.ofInt n).div (.ofInt m)))
        (fun m => rt.hasFraction 32 ((Double.ofInt n).div m)),
      checkNumeric cs d (str "maximum") cs.maximumVal (n > ·) (·.lt (.ofInt n)),
      checkNumeric cs d (str "exclusiveMaximum") cs.exclusiveMaximumVal (n ≥ ·) (·.le (.ofInt n)),
      checkNumeric cs d (str "minimum") cs.minimumVal (n < ·) (Double.lt (.ofInt n)),
      checkNumeric cs d (str "exclusiveMinimum") cs.exclusiveMinimumVal
        (n ≤ ·) (Double.le (.ofInt n))] := by
  simp only [List.forall_mem_cons] at hb
  obtain ⟨h₁, h₂, h₃, h₄, -⟩ := hb
  rw [validateDouble, checkNumeric_congr h₁ fun m hm => lt_ofInt hm hn,
    checkNumeric_congr h₂ fun m hm => le_ofInt hm hn,
    checkNumeric_congr h₃ fun m hm => lt_ofInt hn hm,
    checkNumeric_congr h₄ fun m hm => le_ofInt hn hm]

/-- **An integer passes as a number** when it passes as an integer, unless its quotient by
`multipleOf` does not fit into an `int`. -/
theorem validateNumber_passes (hcast : CastsToInt rt) (hd : d.value = .int n) (hn : |n| ≤ 2 ^ 53)
    (hm : ∀ x, cs.multipleOfVal = some x → ∃ m : ℤ, x = .int m ∧ m ≠ 0 ∧ |m| ≤ 2 ^ 53)
    (hb : ∀ val ∈ [cs.maximumVal, cs.exclusiveMaximumVal, cs.minimumVal, cs.exclusiveMinimumVal],
      Within53 val) :
    (validateNumber rt cs d).passes = true ↔ (validateInteger rt cs d).passes = true ∧
      ∀ m, cs.multipleOfVal = some (.int m) → FitsInt (n / m) := by
  rw [validateNumber, validateInteger, hd]
  dsimp only
  rw [num2long_of_abs_le hn, converted, converted, validateDouble_ofInt hn hb]
  change (Prog.passes _ && Prog.passes _) = true ↔ (Prog.passes _ && Prog.passes _) = true ∧ _
  rw [Bool.and_eq_true, Bool.and_eq_true, and_right_comm]
  refine and_congr_left fun _ => ?_
  cases hval : cs.multipleOfVal with
  | none => simp [checkNumeric, numericKeyword, Prog.passes]
  | some x =>
    obtain ⟨m, rfl, hm₀, hm⟩ := hm x hval
    rw [checkNumeric, numericKeyword, numericKeyword, num2long_of_abs_le hm, converted, converted,
      if_neg (not_traps hn hm₀), yieldError, Prog.passes_failWhen, Prog.passes_failWhen,
      Bool.not_eq_true', hasFraction_div hcast hn hm hm₀, Bool.not_eq_true',
      decide_eq_false_iff_not, not_not, ← Int.dvd_iff_tmod_eq_zero]
    simp

/-- An integer is checked as a number, and its quotient by `multipleOf` does not fit. -/
def Overflows (multipleOf : Option Value) (flags : List TypeFlag) (v : Value) : Prop :=
  .number ∈ flags ∧ .integer ∉ flags ∧
    ∃ n m, v = .int n ∧ multipleOf = some (.int m) ∧ ¬ FitsInt (n / m)

/-- The numeric keywords of a schema: the integers among them have up to 53 bits, and `multipleOf`
is an integer other than zero. -/
structure Exact (cs : CompiledSchema) : Prop where
  multipleOf : ∀ x, cs.multipleOfVal = some x → ∃ m : ℤ, x = .int m ∧ m ≠ 0 ∧ |m| ≤ 2 ^ 53
  bounds : ∀ val ∈ [cs.maximumVal, cs.exclusiveMaximumVal, cs.minimumVal, cs.exclusiveMinimumVal],
    Within53 val

/-- **An integer is checked in the same way as a number**, when its quotient by `multipleOf` fits
into an `int`. -/
theorem validateNumber_eq (hcast : CastsToInt rt) (hd : d.value = .int n) (hn : |n| ≤ 2 ^ 53)
    (hexact : Exact cs) (hfits : ∀ m, cs.multipleOfVal = some (.int m) → FitsInt (n / m)) :
    validateNumber rt cs d = validateInteger rt cs d := by
  rw [validateNumber, validateInteger, hd]
  dsimp only
  rw [num2long_of_abs_le hn, converted, converted, validateDouble_ofInt hn hexact.bounds]
  congr 2
  cases hval : cs.multipleOfVal with
  | none => rfl
  | some x =>
    obtain ⟨m, rfl, hm₀, hm⟩ := hexact.multipleOf x hval
    have hfraction : rt.hasFraction 32 ((Double.ofInt n).div (.ofInt m))
        = decide (n.tmod m ≠ 0) := by
      have hdiv := hasFraction_div hcast hn hm hm₀
      rw [and_iff_left (hfits m hval), Int.dvd_iff_tmod_eq_zero] at hdiv
      by_cases hmod : n.tmod m = 0
      · rw [hdiv.2 hmod]
        simp [hmod]
      · rw [Bool.eq_true_of_not_eq_false fun h => hmod (hdiv.1 h)]
        simp [hmod]
    rw [checkNumeric, numericKeyword, numericKeyword, num2long_of_abs_le hm, converted, converted,
      if_neg (not_traps hn hm₀), hfraction]

/-- **A value of one of the types** is checked in the same way by its type and by its class, unless
it overflows. -/
theorem validateType_typed {L : Value} {flags : List TypeFlag} (hcast : CastsToInt rt)
    (hdata : ByData cs) (hexact : Exact cs) (hL : Names L flags)
    (hint : ∀ n, d.value = .int n → |n| ≤ 2 ^ 53)
    (hv : ∃ flag ∈ flags, flag.admits d.value = true)
    (hover : ¬ Overflows cs.multipleOfVal flags d.value) :
    validateType rt (cs.withType (dispatch L flags)) d = validateType rt cs d := by
  by_cases hnum : AsNumber flags d.value
  · obtain ⟨hnumber, hinteger, n, hd⟩ := hnum
    have hfits : ∀ m, cs.multipleOfVal = some (.int m) → FitsInt (n / m) := by
      intro m hm
      by_contra hfits
      exact hover ⟨hnumber, hinteger, n, m, hd, hm, hfits⟩
    have hclass : validateByDataType rt cs d = validateInteger rt cs d := by
      rw [validateByDataType, hd]
    rw [validateType_number rt hL ⟨hnumber, hinteger, n, hd⟩, validateType_byData rt hdata, hclass,
      validateNumber_eq hcast hd (hint n hd) hexact hfits]
  · exact validateType_admitted rt hdata hL hv hnum

end Numbers

/-! ## Verdicts -/

/-- `valid?` returns true. -/
def Accepts (rt : Runtime) (heap : Addr → Option CompiledSchema) (overrun : Overrun)
    (cs : CompiledSchema) (v : Value) : Prop :=
  ∃ r, Valids rt heap overrun cs v r ∧ r.verdict = some true

section Verdicts

variable {rt : Runtime} {heap : Addr → Option CompiledSchema} {overrun : Overrun}
  {cs : CompiledSchema} {v : Value} {L : Value} {flags : List TypeFlag}

theorem accepts_iff : Accepts rt heap overrun cs v ↔
    ∃ n, (evaluate rt heap overrun cs v true n).1 = .done := by
  have hverdict : ∀ r : Result Token Site RubyError, r.verdict = some true ↔ r.1 = .done := by
    rintro ⟨o, s⟩
    cases o <;> simp [Result.verdict]
  constructor
  · rintro ⟨r, ⟨n, rfl, -⟩, hr⟩
    exact ⟨n, (hverdict _).1 hr⟩
  · rintro ⟨n, hn⟩
    have hfst : (Machine.protect ((machine rt heap overrun).run n) (cs, .root v)
        (start createContext)).1 = .done := hn
    exact ⟨_, ⟨n, rfl, by rw [hfst]; simp⟩, (hverdict _).2 hfst⟩

/-- The state in which `valid?` runs the body of its schema. -/
def quietStart : State Token Site :=
  ((start createContext).mode true).logged (.read 0)

/-- The checks of a schema after that of its type. -/
def restOf (cs : CompiledSchema) (d : Datum) : Code := .block [
  ifSet cs.constVal (validateConst cs d),
  ifSet cs.enumVal (validateEnum cs d),
  ifSet cs.ifSchema (validateIf cs d),
  ifSet cs.notSchema (validateNot d),
  ifSet cs.allOfVal (validateAllOf cs d),
  ifSet cs.anyOfVal (validateAnyOf cs d),
  ifSet cs.oneOfVal (validateOneOf cs d)]

/-- A schema accepts a value when the check of its type and the others are done. -/
theorem accepts_validate_iff (hcs : cs.validationFunction = some .validate) :
    Accepts rt heap overrun cs v ↔ ∃ n,
      ((machine rt heap overrun).exec ((machine rt heap overrun).run n)
        (.seq (validateType rt cs (.root v)) (restOf cs (.root v))) quietStart).1 = .done := by
  have hbody : body rt heap (cs, .root v)
      = .seq (validateType rt cs (.root v)) (restOf cs (.root v)) := by
    rw [body, hcs]
    rfl
  rw [accepts_iff]
  constructor
  · rintro ⟨n, hn⟩
    cases n with
    | zero => simp [evaluate, Machine.run] at hn
    | succ n =>
      rw [evaluate, Machine.run, machine_body, hbody] at hn
      exact ⟨n, hn⟩
  · rintro ⟨n, hn⟩
    refine ⟨n + 1, ?_⟩
    rw [evaluate, Machine.run, machine_body, hbody]
    exact hn

/-- A check of the type without calls is done when it passes. -/
theorem accepts_leaf_iff (hcs : cs.validationFunction = some .validate) {p : Code}
    (hp : validateType rt cs (.root v) = p) (hlike : Prog.Like p p) :
    Accepts rt heap overrun cs v ↔ p.passes = true ∧ ∃ n,
      ((machine rt heap overrun).exec ((machine rt heap overrun).run n)
        (restOf cs (.root v)) quietStart).1 = .done := by
  rw [accepts_validate_iff hcs, hp, ← exists_and_left]
  refine exists_congr fun n => ?_
  obtain ⟨hpass, hfail⟩ := Machine.exec_like (M := machine rt heap overrun) (s := quietStart) hlike
    rfl
  rw [Machine.exec]
  cases hb : p.passes with
  | true =>
    rw [hpass hb, Result.andThen_of_done rfl]
    simp
  | false =>
    rw [Result.andThen_of_ne (hfail hb)]
    simpa using hfail hb

variable (hcs : cs.validationFunction = some .validate) (hdata : ByData cs) (hL : Names L flags)

include hcs hdata hL

/-- What `type` adds for a value of one of its types. -/
theorem accepts_withType_of_admits (hcast : CastsToInt rt) (hexact : Exact cs)
    (hv : ∃ flag ∈ flags, flag.admits v = true) (hint : ∀ n, v = .int n → |n| ≤ 2 ^ 53) :
    Accepts rt heap overrun (cs.withType (dispatch L flags)) v ↔
      Accepts rt heap overrun cs v ∧ ¬ Overflows cs.multipleOfVal flags v := by
  by_cases hnum : AsNumber flags v
  · obtain ⟨n, rfl⟩ := hnum.2.2
    have hnumber := @validateType_number rt cs (.root (.int n)) L flags hL hnum
    have hinteger : validateType rt cs (.root (.int n)) = validateInteger rt cs (.root (.int n)) :=
      validateType_byData rt (d := .root (.int n)) hdata
    rw [@accepts_leaf_iff rt heap overrun (cs.withType (dispatch L flags)) (.int n) hcs _ hnumber
      (validateNumber_like rt rfl), accepts_leaf_iff hcs hinteger (validateInteger_like rt rfl)]
    have hpasses := @validateNumber_passes rt cs (.root (.int n)) n hcast rfl (hint n rfl)
      hexact.multipleOf hexact.bounds
    have hover : ¬ Overflows cs.multipleOfVal flags (.int n) ↔
        ∀ m, cs.multipleOfVal = some (.int m) → FitsInt (n / m) := by
      constructor
      · intro h m hm
        by_contra hfits
        exact h ⟨hnum.1, hnum.2.1, n, m, rfl, hm, hfits⟩
      · rintro h ⟨-, -, n', m, hn', hm, hfits⟩
        obtain rfl := Value.int.inj hn'
        exact hfits (h m hm)
    have hrest : restOf (cs.withType (dispatch L flags)) (.root (.int n))
        = restOf cs (.root (.int n)) := rfl
    rw [hrest, hpasses, hover, and_right_comm]
  · have htype := validateType_admitted rt (d := .root v) hdata hL hv hnum
    have hrest : restOf (cs.withType (dispatch L flags)) (.root v) = restOf cs (.root v) := rfl
    rw [@accepts_validate_iff rt heap overrun (cs.withType (dispatch L flags)) v hcs,
      accepts_validate_iff hcs, htype, hrest, and_iff_left]
    rintro ⟨hnumber, hinteger, n, -, hn, -⟩
    exact hnum ⟨hnumber, hinteger, n, hn⟩

omit hdata in
/-- A value of none of the types is rejected. -/
theorem not_accepts_withType (hv : ∀ flag ∈ flags, flag.admits v = false)
    (hjson : ∀ id, v ≠ .other id) :
    ¬ Accepts rt heap overrun (cs.withType (dispatch L flags)) v := by
  obtain ⟨e, he⟩ := @validateType_mismatch rt cs (.root v) L flags hL hv hjson
  rw [@accepts_leaf_iff rt heap overrun (cs.withType (dispatch L flags)) v hcs _ he (.fail e e)]
  simp [Prog.passes]

/-- **The types agree with the dispatch by class**, at the same targets of references, unless an
accepted integer overflows. -/
theorem accepts_withType_iff (hcast : CastsToInt rt) (hexact : Exact cs)
    (hjson : ∀ id, v ≠ .other id) (hint : ∀ n, v = .int n → |n| ≤ 2 ^ 53) :
    (Accepts rt heap overrun (cs.withType (dispatch L flags)) v ↔
      (∃ flag ∈ flags, flag.admits v = true) ∧ Accepts rt heap overrun cs v) ↔
        ¬ (Accepts rt heap overrun cs v ∧ Overflows cs.multipleOfVal flags v) := by
  by_cases hv : ∃ flag ∈ flags, flag.admits v = true
  · rw [accepts_withType_of_admits hcs hdata hL hcast hexact hv hint, and_iff_right hv,
      and_iff_left_iff_imp, not_and]
  · have hno : ∀ flag ∈ flags, flag.admits v = false := fun flag hflag =>
      Bool.eq_false_iff.2 fun h => hv ⟨flag, hflag, h⟩
    have hrejects := @not_accepts_withType rt heap overrun cs v L flags hcs hL hno hjson
    have hover : ¬ Overflows cs.multipleOfVal flags v := by
      rintro ⟨hnumber, -, n, -, rfl, -⟩
      exact hv ⟨_, hnumber, rfl⟩
    exact iff_of_true ⟨fun h => absurd h hrejects, fun h => absurd h.1 hv⟩ fun h => hover h.2

end Verdicts

/-! ## Documents -/

section Plain

variable {rt : Runtime} {heap : Addr → Option CompiledSchema} {overrun : Overrun} {v : Value}
  {M : Machine Call Token Site RubyError}
  {callee : Call → State Token Site → Result Token Site RubyError}

/-- A level whose elements check nothing is done, where the stack has a slot for it. -/
theorem exec_each_idle {xs : List (Token × Code)}
    (hx : ∀ x ∈ xs, ∀ s, M.exec callee x.2 s = (.done, s))
    {s : State Token Site} (hlo : 0 ≤ s.depth) (hhi : s.depth + 1 < M.max) :
    (M.exec callee (.each xs) s).1 = .done := by
  have hall : ∀ s : State Token Site, 0 ≤ s.depth → s.depth < M.max →
      (M.execEach callee xs s).1 = .done := by
    induction xs with
    | nil => exact fun _ _ _ => rfl
    | cons x xs ih =>
      have ⟨hx, hxs⟩ := List.forall_mem_cons.1 hx
      intro s hlo hhi
      rw [Machine.execEach, Machine.write, if_pos ⟨hlo, hhi⟩, Result.andThen_of_done rfl, hx,
        Result.andThen_of_done rfl]
      exact ih hxs _ hlo hhi
  rw [Machine.exec, if_neg (by omega), Result.fst_leave]
  exact hall _ (by simp only [State.depth_enter]; omega) (by simpa using hhi)

/-- The check of no type is done on every value; an integer has to fit into a `long`. -/
theorem exec_validateType_plain (addr : Addr) (path : RString)
    (hint : ∀ n, v = .int n → |n| ≤ 2 ^ 53) (hmax : M.max = maxContextDepth) :
    (M.exec callee (validateType rt (.plain addr path) (.root v)) quietStart).1 = .done := by
  have hdone : ∀ r : Result Token Site RubyError, r.1 = .done →
      (r.andThen fun s => (.done, s)).1 = .done := by
    rintro r hr
    rw [Result.andThen_of_done hr]
  cases v with
  | int n =>
    show (M.exec callee (converted (num2long (.int n)) _) quietStart).1 = .done
    rw [num2long_of_abs_le (hint n rfl)]
    rfl
  | hash kvs =>
    show ((M.exec callee (validateProperties rt (.plain addr path) (.root (.hash kvs)) kvs)
      quietStart).andThen fun s => (.done, s)).1 = .done
    refine hdone _ (exec_each_idle (fun x hx s => ?_) le_rfl ?_)
    · obtain ⟨kv, -, rfl⟩ := List.mem_map.1 hx
      rfl
    · rw [hmax]
      decide
  | _ => rfl

/-- A schema without keywords accepts every value. -/
theorem accepts_plain (addr : Addr) (path : RString) (hint : ∀ n, v = .int n → |n| ≤ 2 ^ 53) :
    Accepts rt heap overrun (.plain addr path) v := by
  refine (accepts_validate_iff rfl).2 ⟨0, ?_⟩
  rw [Machine.exec, Result.andThen_of_done (exec_validateType_plain addr path hint rfl)]
  rfl

theorem accepts_noOp {cs : CompiledSchema} (h : cs.validationFunction = some .noOpValidate) :
    Accepts rt heap overrun cs v := by
  refine accepts_iff.2 ⟨1, ?_⟩
  rw [evaluate, Machine.run, machine_body, body, h]
  rfl

end Plain

/-! ## References back to the schema -/

section Back

variable {rt : Runtime} {overrun : Overrun} {c n n' : CompiledSchema} {d : Datum} {v : Value}
  {type : TypeValidationFunction × List TypeFlag}

/-- A node of a schema, and the same node of the schema with types. -/
def Retyped (c : CompiledSchema) (type : TypeValidationFunction × List TypeFlag)
    (n n' : CompiledSchema) : Prop :=
  n' = n ∨ n = c ∧ n' = c.withType type

theorem Retyped.path (h : Retyped c type n n') : n'.path = n.path := by
  rcases h with rfl | ⟨rfl, rfl⟩
  · rfl
  · rfl

/-- Another root with the same children has the same nodes below. -/
theorem deref_retyped (a : Addr) :
    Option.Rel (Retyped c type) (c.deref a) ((c.withType type).deref a) := by
  by_cases ha : c.addr = a
  · have ha' : (c.withType type).addr = a := ha
    rw [CompiledSchema.deref, CompiledSchema.deref, CompiledSchema.nodes, CompiledSchema.nodes,
      List.find?_cons_of_pos (by simpa using ha), List.find?_cons_of_pos (by simpa using ha')]
    exact .some (.inr ⟨rfl, rfl⟩)
  · have ha' : ¬ (c.withType type).addr = a := ha
    have heq : (c.withType type).deref a = c.deref a := by
      rw [CompiledSchema.deref, CompiledSchema.deref, CompiledSchema.nodes, CompiledSchema.nodes,
        List.find?_cons_of_neg (by simpa using ha'), List.find?_cons_of_neg (by simpa using ha)]
      rfl
    rw [heq]
    exact Applicators.option_refl (fun _ => .inl rfl) _

/-- A node makes the same checks next to either root. -/
theorem body_retyped (n : CompiledSchema) (d : Datum) :
    (body rt c.deref (n, d)).Mirrors (SameDatum (Retyped c type))
      (body rt (c.withType type).deref (n, d)) := by
  refine body_mirrors (fun _ _ h => h.path) rfl (fun _ => .refl (fun _ => .inl rfl) _) ?_
  cases n.refSchema with
  | none => exact .none
  | some a => exact deref_retyped a

/-- The roots make the same checks of a value that both dispatch alike. -/
theorem body_root_retyped (hc : c.validationFunction = some .validate)
    (hd : validateType rt (c.withType type) d = validateType rt c d) :
    (body rt c.deref (c, d)).Mirrors (SameDatum (Retyped c type))
      (body rt (c.withType type).deref (c.withType type, d)) := by
  have hc' : (c.withType type).validationFunction = some .validate := hc
  have hsame : SameUpToType (Retyped c type) c (c.withType type) :=
    ⟨rfl, .refl (fun _ => .inl rfl) _⟩
  rw [body, body, hc, hc']
  refine validate_mirrors (fun _ _ h => h.path) hsame ?_
  rw [hd]
  exact .refl fun _ _ => ⟨.inl rfl, rfl⟩

/-- Calls of the same node, or of the two roots where the check of `v` has come back to them. -/
def RetypedCall (rt : Runtime) (c : CompiledSchema)
    (type : TypeValidationFunction × List TypeFlag) (v : Value) (x y : Call) : Prop :=
  Relation.ReflTransGen (fun x y => y ∈ (body rt c.deref x).calls) (c, .root v) x ∧ y.2 = x.2 ∧
    (y.1 = x.1 ∨ (x.1 = c ∧ y.1 = c.withType type) ∧ Evaluates rt c.deref (c, .root v) x)

/-- **A schema runs in the same way next to the schema with types**, when both dispatch alike what
comes back to the root. -/
theorem evaluate_retyped (hc : c.validationFunction = some .validate)
    (hback : ∀ d, Evaluates rt c.deref (c, .root v) (c, d) →
      validateType rt (c.withType type) d = validateType rt c d) (m : ℕ) :
    evaluate rt (c.withType type).deref overrun c v true m
      = evaluate rt c.deref overrun c v true m := by
  have hmax : (machine rt (c.withType type).deref overrun).max
      = (machine rt c.deref overrun).max := rfl
  -- the calls of what has been come to are come to
  have hnext : ∀ x, Relation.ReflTransGen (fun x y => y ∈ (body rt c.deref x).calls)
      (c, .root v) x → ∀ z ∈ (body rt c.deref x).calls, ∀ z',
        SameDatum (Retyped c type) z z' → RetypedCall rt c type v z z' := fun x hx z hz z' hzz' =>
    ⟨hx.tail hz, hzz'.2, hzz'.1.imp_right fun h => ⟨h, .tail' hx hz⟩⟩
  refine Machine.run_mirrors (R := RetypedCall rt c type v) hmax rfl ?_ m (c, .root v) (c, .root v)
    ⟨.refl, rfl, .inl rfl⟩ _
  rintro ⟨n, d⟩ ⟨n', d'⟩ ⟨hx, hd, hn⟩
  obtain rfl : d' = d := hd
  rcases hn with hn | ⟨⟨hn, hn'⟩, hback'⟩
  · obtain rfl : n' = n := hn
    exact (body_retyped n' d').mono (hnext _ hx)
  · obtain rfl : n = c := hn
    obtain rfl : n' = n.withType type := hn'
    exact (body_root_retyped hc (hback d' hback')).mono (hnext _ hx)

end Back

section Documents

variable {rt : Runtime} {customFormats : Option (List (RString × ℕ))}
  {kvs kvs' : List (Value × Value)} {L v : Value} {flags : List TypeFlag} {c : CompiledSchema}

/-- The keywords of a document are exact. -/
structure ExactKeywords (kvs : List (Value × Value)) : Prop where
  multipleOf : ∀ x, numberKeyword kvs multipleOfStr = some x →
    ∃ m : ℤ, x = .int m ∧ m ≠ 0 ∧ |m| ≤ 2 ^ 53
  bounds : ∀ k ∈ [maximumStr, exclusiveMaximumStr, minimumStr, exclusiveMinimumStr],
    Within53 (numberKeyword kvs k)

/-- The verdicts of `K` with types and of `K` alone are related as those of `type` are to be. -/
def TypesAgree (flags : List TypeFlag) (v : Value) (accepts accepts' : Prop) : Prop :=
  accepts' ↔ (∃ flag ∈ flags, flag.admits v = true) ∧ accepts

/-- What an object without a `$ref` has of its own. -/
theorem base_of_own (href : stringKeyword kvs refStr = none) (hexact : ExactKeywords kvs)
    {base : CompiledSchema} {format : FormatFields}
    (hown : base.own = Position.ownFields
      ((rootPosition (.hash kvs) customFormats).resolved rt).1 kvs format
        (.validateByDataType, [])) :
    base.validationFunction = some .validate ∧ ByData base ∧
      base.multipleOfVal = numberKeyword kvs multipleOfStr ∧ Exact base := by
  have hproj : ∀ {α : Type} (g : CompiledSchema → α), g base.own = g _ := fun g => congrArg g hown
  have hmultipleOf : base.multipleOfVal = numberKeyword kvs multipleOfStr :=
    hproj (·.multipleOfVal)
  have hmaximum : base.maximumVal = numberKeyword kvs maximumStr := hproj (·.maximumVal)
  have hexclusiveMaximum : base.exclusiveMaximumVal = numberKeyword kvs exclusiveMaximumStr :=
    hproj (·.exclusiveMaximumVal)
  have hminimum : base.minimumVal = numberKeyword kvs minimumStr := hproj (·.minimumVal)
  have hexclusiveMinimum : base.exclusiveMinimumVal = numberKeyword kvs exclusiveMinimumStr :=
    hproj (·.exclusiveMinimumVal)
  have hrefVal : ((rootPosition (.hash kvs) customFormats).resolved rt).1.refVal = none :=
    (Position.resolved_refVal _).trans href
  refine ⟨(hproj (·.validationFunction)).trans ?_, hproj (·.typeValidationFunction), hmultipleOf,
    ?_, ?_⟩
  · simp only [Position.ownFields, CompiledSchema.own, hrefVal]
    rfl
  · rw [hmultipleOf]
    exact hexact.multipleOf
  · rw [hmaximum, hexclusiveMaximum, hminimum, hexclusiveMinimum]
    have hbounds := hexact.bounds
    simp only [List.forall_mem_cons] at hbounds ⊢
    obtain ⟨h₁, h₂, h₃, h₄, -⟩ := hbounds
    exact ⟨h₁, h₂, h₃, h₄, List.forall_mem_nil _⟩

/-- Wherever the check of a value of one of the types comes back to the schema itself, the value
there is of one of the types, and it does not overflow. -/
def TypedBack (rt : Runtime) (c : CompiledSchema) (multipleOf : Option Value)
    (flags : List TypeFlag) (v : Value) : Prop :=
  (∃ flag ∈ flags, flag.admits v = true) → ∀ d, Evaluates rt c.deref (c, .root v) (c, d) →
    (∃ flag ∈ flags, flag.admits d.value = true) ∧ ¬ Overflows multipleOf flags d.value

/-- The integers that the check of an instance comes to are in the instance. -/
theorem le_of_evaluates (hint : ∀ l n, Occurs v l (.int n) → |n| ≤ 2 ^ 53) {x : Call}
    (h : Evaluates rt c.deref (c, .root v) x) (n : ℤ) (hx : x.2.value = .int n) :
    |n| ≤ 2 ^ 53 := by
  have hlocated := h.located
  unfold Datum.Located at hlocated
  split_ifs at hlocated with hname
  · obtain ⟨l, k, -, -, hk, -⟩ := hlocated
    rw [hx] at hk
    cases hk
  · rw [hx] at hlocated
    exact hint _ n hlocated

theorem castsToInt_bare : CastsToInt .bare :=
  fun _ => ⟨by simp [Runtime.bare], by simp [Runtime.bare]⟩

/-- The document `itemsOfRoot` with the type `array`. -/
def arraysOfRoot : List (Value × Value) :=
  [(.str itemsStr, .object [("$ref", .str (str "#"))]), (.str typeStr, .str arrayTypeStr)]

/-- What is in `[[]]`. -/
theorem occurs_emptyArray {l : List Token} {w : Value} (h : Occurs (.arr [.arr []]) l w) :
    (w = .arr [.arr []] ∨ w = .arr []) ∧ ∀ l' k, l ≠ l' ++ [.str k] := by
  induction h with
  | root => exact ⟨.inl rfl, fun l' k => by simp⟩
  | @element l xs i v _ hi ih =>
    refine ⟨.inr ?_, fun l' k h => absurd (List.append_inj_right' h rfl) (by simp)⟩
    rcases ih.1 with hxs | hxs
    · obtain rfl := Value.arr.inj hxs
      cases i with
      | zero => exact (Option.some.inj hi).symm
      | succ i => simp at hi
    · obtain rfl := Value.arr.inj hxs
      simp at hi
  | property _ _ ih => exact absurd ih.1 (by simp)

/-- The document `{"multipleOf": 1}`, and with the type `number`. -/
def multipleOfOne : List (Value × Value) := [(.str multipleOfStr, .int 1)]

def numberMultipleOfOne : List (Value × Value) :=
  [(.str multipleOfStr, .int 1), (.str typeStr, .str numberTypeStr)]

/-- What `multipleOfOne` compiles to. -/
def multipleOfOneSchema : CompiledSchema :=
  { CompiledSchema.plain [] rootPathStr with multipleOfVal := some (.int 1) }

end Documents

end FastJsonSchema
