import FastJsonSchema.Traversal.Reports
import FastJsonSchema.Validate.Context

/-!
# What the numeric keywords report

The `multipleOf` check of `validate_integer` and the checks of the size keywords, each by itself:
when it ends normally and reports its error exactly when the value violates the keyword
(`multipleOf_reports_iff`, `SizeKeyword.reports_iff`). The size keywords share one filter at compile
time, but a bound is read back as a `long`, as an `unsigned long`, or only if it is an `Integer`.
-/

namespace FastJsonSchema

open Ruby Traversal

variable {rt : Runtime} {heap : Addr → Option CompiledSchema} {overrun : Overrun}
  {cs contains : CompiledSchema} {d : Datum} {b size : ℕ} {m n : ℤ} {v : Value}

/-- The start of `validate` is a state in which a check may start. -/
theorem ready_start : (machine rt heap overrun).Ready (start createContext) :=
  ⟨rfl, within_createContext false⟩

/-! ## `multipleOf` -/

/-- The `multipleOf` check of `validate_integer`. -/
def checkMultipleOf (rt : Runtime) (cs : CompiledSchema) (d : Datum) (dataC : ℤ) : Code :=
  numericKeyword cs.multipleOfVal
    (fun m =>
      if m = 0 ∨ dataC = longMin ∧ m = -1 then .crash
      else .when (dataC.tmod m ≠ 0) (yieldError cs d (str "multipleOf")))
    (fun m =>
      .when (rt.hasFraction 64 ((Double.ofInt dataC).div m)) (yieldError cs d (str "multipleOf")))

/-- `validate_integer` starts with the check of `multipleOf`. -/
theorem validateInteger_eq (hd : d.value = .int n) (hn : longMin ≤ n ∧ n ≤ longMax) :
    validateInteger rt cs d = .block [checkMultipleOf rt cs d n,
      checkNumeric cs d (str "maximum") cs.maximumVal (n > ·) (·.lt (.ofInt n)),
      checkNumeric cs d (str "exclusiveMaximum") cs.exclusiveMaximumVal (n ≥ ·) (·.le (.ofInt n)),
      checkNumeric cs d (str "minimum") cs.minimumVal (n < ·) (Double.lt (.ofInt n)),
      checkNumeric cs d (str "exclusiveMinimum") cs.exclusiveMinimumVal
        (n ≤ ·) (Double.le (.ofInt n))] := by
  rw [validateInteger, hd]
  dsimp only
  rw [num2long, if_pos hn]
  rfl

theorem checkMultipleOf_reports_iff (hval : cs.multipleOfVal = some (.int m))
    (hm : longMin ≤ m ∧ m ≤ longMax) :
    (machine rt heap overrun).Reports (checkMultipleOf rt cs d n) (¬ m ∣ n)
        ⟨cs.path, d, str "multipleOf"⟩ ↔ m ≠ 0 ∧ ¬ (n = longMin ∧ m = -1) := by
  rw [checkMultipleOf, hval, numericKeyword, num2long, if_pos hm, converted]
  by_cases htrap : m = 0 ∨ n = longMin ∧ m = -1
  · rw [if_pos htrap, ← not_or]
    exact iff_of_false (Machine.not_reports_crash ready_start) (not_not.2 htrap)
  · rw [if_neg htrap, ← not_or, yieldError, Machine.reports_failWhen_iff ready_start]
    refine iff_of_true ?_ htrap
    simp [Int.dvd_iff_tmod_eq_zero]

/-- **The check of `multipleOf`** by an `Integer`, which `validate_integer` starts with, ends
normally and reports its error exactly when the value is not a multiple, but for the remainders that
trap. -/
theorem multipleOf_reports_iff (rt : Runtime) (heap : Addr → Option CompiledSchema)
    (overrun : Overrun) (hval : cs.multipleOfVal = some (.int m)) (hd : d.value = .int n)
    (hm : longMin ≤ m ∧ m ≤ longMax) (hn : longMin ≤ n ∧ n ≤ longMax) :
    ∃ check checks, validateInteger rt cs d = .block (check :: checks) ∧
      ((machine rt heap overrun).Reports check (¬ m ∣ n) ⟨cs.path, d, str "multipleOf"⟩ ↔
        m ≠ 0 ∧ ¬ (n = longMin ∧ m = -1)) :=
  ⟨_, _, validateInteger_eq hd hn, checkMultipleOf_reports_iff hval hm⟩

/-- The schema `{"multipleOf": m}`. -/
def multiplesOf (m : ℤ) : CompiledSchema :=
  { CompiledSchema.plain [] rootPathStr with multipleOfVal := some (.int m) }

theorem multipleOf_reports_iff_six : ∃ check checks,
    validateInteger .bare (multiplesOf 2) (.root (.int 6)) = .block (check :: checks) ∧
      ((machine .bare (fun _ => none) noOverrun).Reports check (¬ (2 : ℤ) ∣ 6)
          ⟨(multiplesOf 2).path, .root (.int 6), str "multipleOf"⟩ ↔
        (2 : ℤ) ≠ 0 ∧ ¬ ((6 : ℤ) = longMin ∧ (2 : ℤ) = -1)) :=
  multipleOf_reports_iff .bare _ noOverrun (m := 2) (n := 6) rfl rfl (by decide) (by decide)

/-- The remainders by zero, and of the smallest `long` by `-1`, end the process. -/
theorem multipleOf_traps : (∀ n ∈ [0, 7], (evaluate .bare (fun _ => none) noOverrun (multiplesOf 0)
      (.int n) false 1).1 = .crashed) ∧
    (evaluate .bare (fun _ => none) noOverrun (multiplesOf (-1)) (.int longMin) false 1).1 =
      .crashed := by
  decide

/-! ## Size keywords -/

/-- The keywords that bound a size. -/
inductive SizeKeyword
  | maxLength | minLength | maxItems | minItems | maxProperties | minProperties
  | maxContains | minContains
  deriving DecidableEq

namespace SizeKeyword

/-- The bound of a keyword. -/
def bound : SizeKeyword → CompiledSchema → Option Value
  | .maxLength, cs => cs.maxLengthVal
  | .minLength, cs => cs.minLengthVal
  | .maxItems, cs => cs.maxItemsVal
  | .minItems, cs => cs.minItemsVal
  | .maxProperties, cs => cs.maxPropertiesVal
  | .minProperties, cs => cs.minPropertiesVal
  | .maxContains, cs => cs.maxContainsVal
  | .minContains, cs => cs.minContainsVal

/-- The error of a keyword. -/
def error : SizeKeyword → RString
  | .maxLength => str "maxLength"
  | .minLength => str "minLength"
  | .maxItems => str "maxItems"
  | .minItems => str "minItems"
  | .maxProperties => str "maxProperties"
  | .minProperties => str "minProperties"
  | .maxContains => str "maxContains"
  | .minContains => str "minContains"

/-- The size violates the bound. -/
def Violated : SizeKeyword → ℕ → ℕ → Prop
  | .maxLength, size, b | .maxItems, size, b | .maxProperties, size, b
  | .maxContains, size, b => b < size
  | .minLength, size, b | .minItems, size, b | .minProperties, size, b
  | .minContains, size, b => size < b

/-- The check of a keyword, for an instance of the given size. For a `minContains` that is no
`Integer` it is the default of `contains`. -/
def check (cs contains : CompiledSchema) (d : Datum) (size : ℕ) : SizeKeyword → Code
  | .maxLength => checkSize cs d (str "maxLength") num2long cs.maxLengthVal (size > ·)
  | .minLength => checkSize cs d (str "minLength") num2long cs.minLengthVal (size < ·)
  | .maxItems => checkSize cs d (str "maxItems") num2long cs.maxItemsVal (size > ·)
  | .minItems => checkSize cs d (str "minItems") num2long cs.minItemsVal (size < ·)
  | .maxProperties =>
    checkSize cs d (str "maxProperties") num2ulong cs.maxPropertiesVal (size > ·)
  | .minProperties =>
    checkSize cs d (str "minProperties") num2ulong cs.minPropertiesVal (size < ·)
  | .maxContains =>
    match cs.maxContainsVal with
    | some (.int n) => converted (num2long (.int n)) fun m =>
        .when (size > m) (yieldError cs d (str "maxContains"))
    | _ => .skip
  | .minContains =>
    match cs.minContainsVal with
    | some (.int n) => converted (num2long (.int n)) fun m =>
        .when (size < m) (yieldError cs d (str "minContains"))
    | _ => .when (size = 0) (yieldError contains d (str "contains"))

/-- A whole number, as an `Integer` or as a `Float`. -/
def IsBound (v : Value) (b : ℕ) : Prop := v = .int b ∨ v = .float (.finite b)

/-- The bound reaches the comparison, or its loss makes no difference. -/
def Compared (v : Value) (b size : ℕ) : SizeKeyword → Prop
  | .maxLength | .minLength | .maxItems | .minItems => b < 2 ^ 63
  | .maxProperties | .minProperties => b < 2 ^ 64
  | .maxContains =>
    match v with
    | .int _ => b < 2 ^ 63
    | _ => size ≤ b
  | .minContains =>
    match v with
    | .int _ => b < 2 ^ 63
    | _ => b ≤ size

/-- The function that checks a keyword. -/
def validator (rt : Runtime) (cs : CompiledSchema) (d : Datum) : SizeKeyword → Code
  | .maxLength | .minLength => validateString rt cs d
  | .maxItems | .minItems | .maxContains | .minContains => validateArray cs d
  | .maxProperties | .minProperties => validateObject rt cs d

/-- The size that a keyword measures: the length of a string, the number of elements, of members, or
of the elements that the schema under `contains` accepts. -/
def Measures (M : Machine Call Token Site RubyError) (cs contains : CompiledSchema) (d : Datum)
    (size : ℕ) : SizeKeyword → Prop
  | .maxLength | .minLength => ∃ s, d.value = .str s ∧ size = RString.length s
  | .maxItems | .minItems => ∃ xs, d.value = .arr xs ∧ size = xs.length
  | .maxProperties | .minProperties => ∃ kvs, d.value = .hash kvs ∧ size = kvs.length
  | .maxContains | .minContains => cs.containsSchema = some contains ∧ ∃ xs, d.value = .arr xs ∧
      ∃ valid : Token × Datum → Bool, (∀ x ∈ d.elements xs, M.Gives (contains, x.2) (valid x)) ∧
        size = (d.elements xs).countP valid

/-- A loop over guarded calls comes to what follows it, with the number of the calls that are
valid. -/
theorem comesTo_countValid {M : Machine Call Token Site RubyError} {α : Type} {f : α → Call}
    {valid : α → Bool} {l : List α} {q : Code} {k : ℕ → Code}
    (h : ∀ a ∈ l, M.Gives (f a) (valid a)) :
    ∀ n, M.ComesTo q (k (n + l.countP valid)) → M.ComesTo q (countValid (l.map f) n k) := by
  induction l with
  | nil => exact fun n hq => hq
  | cons a l ih =>
    obtain ⟨ha, hl⟩ := List.forall_mem_cons.1 h
    intro n hq
    refine .guarded ha (ih hl _ ?_)
    rw [List.countP_cons] at hq
    cases hvalid : valid a with
    | true =>
      rw [hvalid, if_pos rfl, ← Nat.add_assoc, Nat.add_right_comm] at hq
      exact hq
    | false =>
      rw [hvalid, if_neg Bool.false_ne_true, Nat.add_zero] at hq
      exact hq

/-- **Where a size keyword is checked**: its check is a piece of the validator of the instance, and
is given the size of the instance. -/
theorem check_comesTo {M : Machine Call Token Site RubyError} (k : SizeKeyword)
    (hsize : k.Measures M cs contains d size) :
    M.ComesTo (k.check cs contains d size) (k.validator rt cs d) := by
  cases k with
  | maxLength | minLength =>
    obtain ⟨s, hd, rfl⟩ := hsize
    rw [validator, validateString, hd]
    exact .block (by simp [check]) .here
  | maxItems | minItems =>
    obtain ⟨xs, hd, rfl⟩ := hsize
    rw [validator, validateArray, hd]
    exact .left (.block (by simp [check]) .here)
  | maxProperties | minProperties =>
    obtain ⟨kvs, hd, rfl⟩ := hsize
    rw [validator, validateObject, hd]
    exact .left (.block (by simp [check]) .here)
  | maxContains =>
    obtain ⟨hcontains, xs, hd, valid, hvalid, rfl⟩ := hsize
    rw [validator, validateArray, hd]
    dsimp only
    rw [hcontains]
    refine .right (.right (.left (comesTo_countValid hvalid 0 ?_)))
    rw [Nat.zero_add]
    exact .left .here
  | minContains =>
    obtain ⟨hcontains, xs, hd, valid, hvalid, rfl⟩ := hsize
    rw [validator, validateArray, hd]
    dsimp only
    rw [hcontains]
    refine .right (.right (.left (comesTo_countValid hvalid 0 ?_)))
    rw [Nat.zero_add]
    exact .right (.left .here)

theorem num2long_of_isBound (hv : IsBound v b) :
    num2long v = if b < 2 ^ 63 then .ok (b : ℤ) else .error .rangeError := by
  have hbits : -2 ^ (64 - 1) ≤ (b : ℤ) ∧ (b : ℤ) < 2 ^ (64 - 1) ↔ b < 2 ^ 63 := by omega
  rcases hv with rfl | rfl
  · have hrange : longMin ≤ (b : ℤ) ∧ (b : ℤ) ≤ longMax ↔ b < 2 ^ 63 := by
      rw [longMin, longMax]
      omega
    rw [num2long]
    simp only [hrange]
  · rw [num2long, Double.toInt]
    simp only [Rat.num_natCast, Rat.den_natCast, Nat.cast_one, Int.tdiv_one, hbits]
    split_ifs <;> rfl

theorem num2ulong_of_isBound (hv : IsBound v b) :
    num2ulong v = if b < 2 ^ 64 then .ok (b : ℤ) else .error .rangeError := by
  have hrange : longMin ≤ (b : ℤ) ∧ (b : ℤ) < 2 ^ 64 ↔ b < 2 ^ 64 := by
    rw [longMin]
    omega
  have hwrap : b < 2 ^ 64 → (b : ℤ) % 2 ^ 64 = b := by omega
  rcases hv with rfl | rfl
  · rw [num2ulong]
    simp only [hrange]
    split_ifs with h
    · rw [hwrap h]
    · rfl
  · rw [num2ulong]
    simp only [Rat.num_natCast, Rat.den_natCast, Nat.cast_one, Int.tdiv_one, hrange]
    split_ifs with h
    · rw [hwrap h]
    · rfl

theorem checkSize_reports_iff {type : RString} {num : Value → Except RubyError ℤ}
    {violated : ℤ → Bool} {P Q : Prop} [Decidable P]
    (hnum : num v = if P then .ok (b : ℤ) else .error .rangeError)
    (hviolated : violated b = true ↔ Q) :
    (machine rt heap overrun).Reports (checkSize cs d type num (some v) violated) Q
      ⟨cs.path, d, type⟩ ↔ P := by
  rw [checkSize, hnum]
  by_cases hP : P
  · rw [if_pos hP, converted, yieldError, Machine.reports_failWhen_iff ready_start]
    exact iff_of_true (by rw [hviolated, and_iff_right rfl]) hP
  · rw [if_neg hP, converted]
    exact iff_of_false (Machine.not_reports_raise ready_start) hP

theorem check_reports_iff (k : SizeKeyword) (hb : IsBound v b) (hk : k.bound cs = some v) :
    (machine rt heap overrun).Reports (k.check cs contains d size) (k.Violated size b)
      ⟨cs.path, d, k.error⟩ ↔ k.Compared v b size := by
  have hlong := num2long_of_isBound hb
  have hgreater : decide ((size : ℤ) > (b : ℤ)) = true ↔ b < size := by simp
  have hless : decide ((size : ℤ) < (b : ℤ)) = true ↔ size < b := by simp
  cases k with
  | maxLength | maxItems =>
    rw [bound] at hk
    rw [check, hk]
    exact checkSize_reports_iff (P := b < 2 ^ 63) hlong hgreater
  | minLength | minItems =>
    rw [bound] at hk
    rw [check, hk]
    exact checkSize_reports_iff (P := b < 2 ^ 63) hlong hless
  | maxProperties =>
    rw [bound] at hk
    rw [check, hk]
    exact checkSize_reports_iff (P := b < 2 ^ 64) (num2ulong_of_isBound hb) hgreater
  | minProperties =>
    rw [bound] at hk
    rw [check, hk]
    exact checkSize_reports_iff (P := b < 2 ^ 64) (num2ulong_of_isBound hb) hless
  | maxContains =>
    rw [bound] at hk
    rw [check, hk]
    rcases hb with rfl | rfl
    · exact checkSize_reports_iff (P := b < 2 ^ 63) hlong hgreater
    · exact (Machine.reports_skip_iff ready_start).trans Nat.not_lt
  | minContains =>
    rw [bound] at hk
    rw [check, hk]
    rcases hb with rfl | rfl
    · exact checkSize_reports_iff (P := b < 2 ^ 63) hlong hless
    · -- the default of `contains` has an error of its own
      have htype : str "minContains" ≠ str "contains" := by decide
      have hne : (⟨cs.path, d, str "minContains"⟩ : Site) ≠ ⟨contains.path, d, str "contains"⟩ :=
        fun h => htype (congrArg Site.type h)
      refine (Machine.reports_failWhen_iff ready_start).trans ?_
      constructor
      · intro h
        exact Nat.not_lt.1 fun hlt => hne (h.2 hlt).1
      · intro h
        exact ⟨fun h' => absurd h'.1 hne, fun hlt => absurd hlt (Nat.not_lt.2 h)⟩

/-- The schema `{"maxLength": 3}`. -/
def upToThree : CompiledSchema :=
  { CompiledSchema.plain [] rootPathStr with maxLengthVal := some (.int 3) }

/-- The string `"hello"`. -/
def hello : Datum := .root (.str (str "hello"))

/-- The schema `{"const": 1}`. -/
def isOne : CompiledSchema :=
  { CompiledSchema.plain [] rootPathStr with constVal := some (.int 1) }

/-- One of the elements of `[1, 2]` is valid for `{"const": 1}`. -/
example : maxContains.Measures (machine .bare (fun _ => none) noOverrun)
    { CompiledSchema.plain [] rootPathStr with containsSchema := some isOne } isOne
    (.root (.arr [.int 1, .int 2])) 1 := by
  refine ⟨rfl, _, rfl, fun x => x.1 == .index 0, ?_, by decide⟩
  simp only [Datum.elements, List.zipIdx_cons, List.zipIdx_nil, List.map_cons, List.map_nil,
    List.forall_mem_cons, List.not_mem_nil, false_implies, implies_true, and_true]
  exact ⟨⟨_, ⟨2, rfl, by decide⟩, by decide⟩, ⟨_, ⟨2, rfl, by decide⟩, by decide⟩⟩

/-- **A violated bound is reported** by every loud run of the validator that stays within the stack
and ends normally, when the bound is compared. -/
theorem reported_of_violated (k : SizeKeyword) (hb : IsBound v b) (hk : k.bound cs = some v)
    (hsize : k.Measures (machine rt heap overrun) cs contains d size) (hc : k.Compared v b size)
    (hv : k.Violated size b) {s : State Token Site} (hs : (machine rt heap overrun).Ready s) {n : ℕ}
    (hsafe : (machine rt heap overrun).Safe ((machine rt heap overrun).exec
      ((machine rt heap overrun).run n) (k.validator rt cs d) s).2)
    (hdone : ((machine rt heap overrun).exec ((machine rt heap overrun).run n)
      (k.validator rt cs d) s).1 = .done) :
    ∃ ts, (⟨cs.path, d, k.error⟩, ts) ∈ ((machine rt heap overrun).exec
      ((machine rt heap overrun).run n) (k.validator rt cs d) s).2.errors := by
  obtain ⟨s', hs', -, herrors⟩ := (check_comesTo k hsize).exec hs hsafe hdone
  have hreports : (machine rt heap overrun).Reports (k.check cs contains d size)
      (k.Violated size b) ⟨cs.path, d, k.error⟩ := (check_reports_iff k hb hk).2 hc
  obtain ⟨ts, hts⟩ := (hreports s' ((machine rt heap overrun).run n) hs').reports.2 hv
  refine ⟨ts, herrors.subset ?_⟩
  rw [hts]
  exact List.mem_append_right _ (List.mem_singleton_self _)

end SizeKeyword

end FastJsonSchema
