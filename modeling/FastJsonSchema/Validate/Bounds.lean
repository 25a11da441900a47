import FastJsonSchema.Ruby.Monotone
import FastJsonSchema.Validate.Sizes

/-!
# How exact the bounds of numbers are

`validate_integer` compares an `Integer` bound exactly; everything else is compared after a
conversion to `double`. The conversion rounds, and rounding keeps the order, so a comparison can
only go wrong where a value and a different bound round to one double, and then in one direction:
`maximum` and `minimum` miss a violation, and their exclusive forms report one that there is not
(`BoundKeyword.bounds_exact_iff`).
-/

namespace FastJsonSchema

open Ruby Traversal Double

/-! ## Numbers and their doubles -/

/-- A number that the validators convert without an exception: an `Integer` in the range of a
`long`, or a `Float` that is a finite double. -/
inductive Number : Value → ℚ → Prop
  | int {n : ℤ} (h : longMin ≤ n ∧ n ≤ longMax) : Number (.int n) n
  | float {q : ℚ} (h : Double.round q = .finite q) : Number (.float (.finite q)) q

/-- The value after the conversion to `double`. -/
def toDouble : Value → Double
  | .int n => .ofInt n
  | .float x => x
  | _ => .nan

/-- A power of two is a double. -/
theorem rounded_two_zpow {e : ℤ} (he : -1022 ≤ e) : rounded (2 ^ e) = 2 ^ e := by
  have hlog : Int.log 2 |(2 : ℚ) ^ e| = e := by
    rw [abs_of_pos (two_zpow_pos e)]
    exact Int.log_zpow one_lt_two e
  refine rounded_of_abs_eq (by rwa [hlog]) ?_
  rw [hlog, abs_of_pos (two_zpow_pos e)]

/-- A `long` rounds to a finite double. -/
theorem ofInt_long {n : ℤ} (h : longMin ≤ n ∧ n ≤ longMax) :
    Double.ofInt n = .finite (rounded n) := by
  have hpow : rounded (2 ^ (63 : ℤ)) = 2 ^ (63 : ℤ) := rounded_two_zpow (by norm_num)
  have hlo : (-(2 ^ (63 : ℤ)) : ℚ) ≤ n := by exact_mod_cast h.1
  have hhi : (n : ℚ) ≤ 2 ^ (63 : ℤ) := by
    have : n ≤ 2 ^ 63 := h.2.trans (by decide)
    exact_mod_cast this
  have hlo := rounded_mono hlo
  have hhi := rounded_mono hhi
  rw [rounded_neg, hpow] at hlo
  rw [hpow] at hhi
  refine round_eq ((abs_le.2 ⟨hlo, hhi⟩).trans_lt ?_)
  exact_mod_cast pow_lt_pow_right₀ (one_lt_two : (1 : ℚ) < 2) (by norm_num : 63 < 1024)

theorem Number.toDouble {v : Value} {q : ℚ} (h : Number v q) :
    toDouble v = .finite (rounded q) := by
  cases h with
  | int h => exact ofInt_long h
  | float h => exact congrArg Double.finite (round_eq_finite h)

/-! ## Bounds -/

/-- The keywords that bound a number. -/
inductive BoundKeyword
  | maximum | exclusiveMaximum | minimum | exclusiveMinimum

namespace BoundKeyword

/-- The bound of a keyword. -/
def bound : BoundKeyword → CompiledSchema → Option Value
  | .maximum, cs => cs.maximumVal
  | .exclusiveMaximum, cs => cs.exclusiveMaximumVal
  | .minimum, cs => cs.minimumVal
  | .exclusiveMinimum, cs => cs.exclusiveMinimumVal

/-- The error of a keyword. -/
def error : BoundKeyword → RString
  | .maximum => str "maximum"
  | .exclusiveMaximum => str "exclusiveMaximum"
  | .minimum => str "minimum"
  | .exclusiveMinimum => str "exclusiveMinimum"

/-- A number violates the bound. -/
def Violated : BoundKeyword → ℚ → ℚ → Prop
  | .maximum, q, b => b < q
  | .exclusiveMaximum, q, b => b ≤ q
  | .minimum, q, b => q < b
  | .exclusiveMinimum, q, b => q ≤ b

/-- The comparison of a `long` with an `Integer` bound. -/
def compareLong : BoundKeyword → ℤ → ℤ → Bool
  | .maximum, n, m => n > m
  | .exclusiveMaximum, n, m => n ≥ m
  | .minimum, n, m => n < m
  | .exclusiveMinimum, n, m => n ≤ m

/-- The comparison of a `double` with a bound. -/
def compare : BoundKeyword → Double → Double → Bool
  | .maximum, x, m => m.lt x
  | .exclusiveMaximum, x, m => m.le x
  | .minimum, x, m => x.lt m
  | .exclusiveMinimum, x, m => x.le m

/-- The check of `validate_integer`. -/
def checkInteger (k : BoundKeyword) (cs : CompiledSchema) (d : Datum) (n : ℤ) : Code :=
  checkNumeric cs d k.error (k.bound cs) (k.compareLong n) (k.compare (.ofInt n))

/-- The check of `validate_number`. -/
def checkDouble (k : BoundKeyword) (cs : CompiledSchema) (d : Datum) (x : Double) : Code :=
  checkNumeric cs d k.error (k.bound cs) (fun m => k.compare x (.ofInt m)) (k.compare x)

/-- The number and a different bound round to one double, and the keyword takes them for equal where
it makes a difference. -/
def Blurred (k : BoundKeyword) (q b : ℚ) : Prop :=
  rounded q = rounded b ∧ match k with
    | .maximum | .exclusiveMinimum => b < q
    | .minimum | .exclusiveMaximum => q < b

variable {rt : Runtime} {heap : Addr → Option CompiledSchema} {overrun : Overrun}
  {cs : CompiledSchema} {d : Datum} {n : ℤ} {v w : Value} {q b : ℚ}

theorem validateInteger_checks (k : BoundKeyword) (rt : Runtime) (cs : CompiledSchema)
    (hd : d.value = .int n) (hn : longMin ≤ n ∧ n ≤ longMax) :
    ∃ checks, validateInteger rt cs d = .block checks ∧ k.checkInteger cs d n ∈ checks := by
  refine ⟨_, validateInteger_eq hd hn, List.mem_cons_of_mem _ ?_⟩
  cases k
  · exact .head _
  · exact .tail _ (.head _)
  · exact .tail _ (.tail _ (.head _))
  · exact .tail _ (.tail _ (.tail _ (.head _)))

theorem validateNumber_checks (k : BoundKeyword) (rt : Runtime) (cs : CompiledSchema)
    (hd : d.value = v) (hv : Number v q) :
    ∃ checks, validateNumber rt cs d = .block checks ∧
      k.checkDouble cs d (toDouble v) ∈ checks := by
  have hblock : validateNumber rt cs d = validateDouble rt cs d (toDouble v) := by
    rw [validateNumber, hd]
    cases hv with
    | int h =>
      dsimp only
      rw [num2long, if_pos h]
      rfl
    | float h => rfl
  refine ⟨_, hblock.trans rfl, List.mem_cons_of_mem _ ?_⟩
  cases k
  · exact .head _
  · exact .tail _ (.head _)
  · exact .tail _ (.tail _ (.head _))
  · exact .tail _ (.tail _ (.tail _ (.head _)))

/-- Rounding changes what a keyword sees where it blurs the bound, and only there. -/
theorem violated_rounded_iff (k : BoundKeyword) :
    (k.Violated (rounded q) (rounded b) ↔ k.Violated q b) ↔ ¬ k.Blurred q b := by
  rcases lt_trichotomy q b with h | rfl | h
  · have hle := rounded_mono h.le
    cases k with
    | maximum => simp [Violated, Blurred, not_lt.2 h.le, not_lt.2 hle]
    | exclusiveMaximum => simp [Violated, Blurred, h, not_le.2 h, hle.ge_iff_eq]
    | minimum => simp [Violated, Blurred, h, hle.lt_iff_ne]
    | exclusiveMinimum => simp [Violated, Blurred, h.le, hle]
  · have hself : ¬ k.Blurred q q := by
      cases k <;> simp [Blurred]
    refine iff_of_true ?_ hself
    cases k <;> simp [Violated]
  · have hle := rounded_mono h.le
    cases k with
    | maximum => simp [Violated, Blurred, h, hle.lt_iff_ne, eq_comm]
    | exclusiveMaximum => simp [Violated, Blurred, h.le, hle]
    | minimum => simp [Violated, Blurred, not_lt.2 h.le, not_lt.2 hle]
    | exclusiveMinimum => simp [Violated, Blurred, h, not_le.2 h, hle.ge_iff_eq, eq_comm]

theorem compareLong_iff (k : BoundKeyword) {m : ℤ} :
    k.compareLong n m = true ↔ k.Violated n m := by
  cases k <;> simp [compareLong, Violated]

theorem compare_finite_iff (k : BoundKeyword) {a c : ℚ} :
    k.compare (.finite a) (.finite c) = true ↔ k.Violated a c := by
  have hlt : ∀ {a c : ℚ}, (Double.finite a).lt (.finite c) = true ↔ a < c := by
    intro a c
    rw [Double.lt, decide_eq_true_eq]
  have hle : ∀ {a c : ℚ}, (Double.finite a).le (.finite c) = true ↔ a ≤ c := by
    intro a c
    rw [Double.le, Bool.or_eq_true, hlt, Double.eq, le_iff_lt_or_eq]
    simp
  cases k with
  | maximum | minimum => exact hlt
  | exclusiveMaximum | exclusiveMinimum => exact hle

/-- A check of a bound reports what its comparison says. -/
theorem checkNumeric_reports_iff {type : RString} {int : ℤ → Bool} {float : Double → Bool}
    {P Q : Prop} (hw : Number w b) (hint : ∀ m, w = .int m → (int m = true ↔ P))
    (hfloat : ∀ x, w = .float x → (float x = true ↔ P)) :
    (machine rt heap overrun).Reports (checkNumeric cs d type (some w) int float) Q
      ⟨cs.path, d, type⟩ ↔ (P ↔ Q) := by
  rw [checkNumeric]
  cases hw with
  | @int m h =>
    rw [numericKeyword, num2long, if_pos h, converted, yieldError,
      Machine.reports_failWhen_iff ready_start, hint m rfl, and_iff_right rfl]
  | float h =>
    rw [numericKeyword, yieldError, Machine.reports_failWhen_iff ready_start, hfloat _ rfl,
      and_iff_right rfl]

/-- The check of `validate_number` compares doubles. -/
theorem checkDouble_reports_iff (k : BoundKeyword) (hv : Number v q) (hw : Number w b)
    (hk : k.bound cs = some w) :
    (machine rt heap overrun).Reports (k.checkDouble cs d (toDouble v)) (k.Violated q b)
      ⟨cs.path, d, k.error⟩ ↔ ¬ k.Blurred q b := by
  rw [hv.toDouble, ← violated_rounded_iff, checkDouble, hk]
  refine checkNumeric_reports_iff hw ?_ ?_
  · rintro m rfl
    rw [show Double.ofInt m = .finite (rounded b) from hw.toDouble, compare_finite_iff]
  · rintro x rfl
    rw [show x = .finite (rounded b) from hw.toDouble, compare_finite_iff]

/-- The check of `validate_integer` compares an `Integer` bound exactly, and a `Float` bound as
`validate_number` does. -/
theorem checkInteger_reports_iff (k : BoundKeyword) (hn : longMin ≤ n ∧ n ≤ longMax)
    (hw : Number w b) (hk : k.bound cs = some w) :
    (machine rt heap overrun).Reports (k.checkInteger cs d n) (k.Violated n b)
      ⟨cs.path, d, k.error⟩ ↔ (∃ m, w = .int m) ∨ ¬ k.Blurred n b := by
  rw [checkInteger, hk]
  cases hw with
  | @int m hm =>
    refine iff_of_true ((checkNumeric_reports_iff (.int hm) ?_ nofun).2 Iff.rfl) (.inl ⟨m, rfl⟩)
    rintro m' h
    obtain rfl := Value.int.inj h
    exact k.compareLong_iff
  | @float b hb =>
    rw [or_iff_right (by rintro ⟨m, hm⟩; cases hm), ← violated_rounded_iff]
    refine checkNumeric_reports_iff (.float hb) nofun ?_
    rintro x h
    obtain rfl := Value.float.inj h
    have hself : Double.finite b = .finite (rounded b) := Number.toDouble (.float hb)
    rw [ofInt_long hn, hself, compare_finite_iff]

/-- **How exact the bounds of numbers are.** For a number and a bound that are converted without an
exception, the check in `validate_integer` ends normally and reports its error exactly when the
number violates the bound, if and only if the bound is an `Integer` or rounding does not blur it; in
`validate_number`, if and only if rounding does not blur it. -/
theorem bounds_exact_iff (k : BoundKeyword) (rt : Runtime) (heap : Addr → Option CompiledSchema)
    (overrun : Overrun) (hv : Number v q) (hw : Number w b) (hd : d.value = v)
    (hk : k.bound cs = some w) :
    (∀ n, v = .int n → ∃ checks, validateInteger rt cs d = .block checks ∧
      k.checkInteger cs d n ∈ checks ∧
        ((machine rt heap overrun).Reports (k.checkInteger cs d n) (k.Violated q b)
          ⟨cs.path, d, k.error⟩ ↔ (∃ m, w = .int m) ∨ ¬ k.Blurred q b)) ∧
      ∃ checks, validateNumber rt cs d = .block checks ∧
        k.checkDouble cs d (toDouble v) ∈ checks ∧
          ((machine rt heap overrun).Reports (k.checkDouble cs d (toDouble v)) (k.Violated q b)
            ⟨cs.path, d, k.error⟩ ↔ ¬ k.Blurred q b) := by
  constructor
  · rintro n rfl
    cases hv with
    | int hn =>
      obtain ⟨checks, hblock, hmem⟩ := k.validateInteger_checks rt cs hd hn
      exact ⟨checks, hblock, hmem, k.checkInteger_reports_iff hn hw hk⟩
  · obtain ⟨checks, hblock, hmem⟩ := k.validateNumber_checks rt cs hd hv
    exact ⟨checks, hblock, hmem, k.checkDouble_reports_iff hv hw hk⟩

/-- The schema `{"maximum": m}`. -/
def atMost (m : ℤ) : CompiledSchema :=
  { CompiledSchema.plain [] rootPathStr with maximumVal := some (.int m) }

theorem bounds_exact_iff_three :
    (∀ n, Value.int 5 = .int n → ∃ checks,
      validateInteger .bare (atMost 3) (.root (.int 5)) = .block checks ∧
        maximum.checkInteger (atMost 3) (.root (.int 5)) n ∈ checks ∧
          ((machine .bare (fun _ => none) noOverrun).Reports
            (maximum.checkInteger (atMost 3) (.root (.int 5)) n)
            (maximum.Violated (5 : ℤ) (3 : ℤ))
            ⟨(atMost 3).path, .root (.int 5), maximum.error⟩ ↔
              (∃ m, Value.int 3 = .int m) ∨ ¬ maximum.Blurred (5 : ℤ) (3 : ℤ))) ∧
      ∃ checks, validateNumber .bare (atMost 3) (.root (.int 5)) = .block checks ∧
        maximum.checkDouble (atMost 3) (.root (.int 5)) (toDouble (.int 5)) ∈ checks ∧
          ((machine .bare (fun _ => none) noOverrun).Reports
            (maximum.checkDouble (atMost 3) (.root (.int 5)) (toDouble (.int 5)))
            (maximum.Violated (5 : ℤ) (3 : ℤ))
            ⟨(atMost 3).path, .root (.int 5), maximum.error⟩ ↔
              ¬ maximum.Blurred (5 : ℤ) (3 : ℤ)) :=
  maximum.bounds_exact_iff .bare _ noOverrun (.int (by decide)) (.int (by decide)) rfl rfl

end BoundKeyword

end FastJsonSchema
