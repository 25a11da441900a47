import FastJsonSchema.Validate.Bounds
import FastJsonSchema.Validate.Types

/-!
# How exact `multipleOf` is

`validate_number` divides in `double` and compares the quotient with its cast to `int`. An integer
quotient that fits into an `int` is exact, so no multiple with such a quotient is rejected; any
other multiple is. What is no multiple passes where its quotient rounds to an integer that fits
(`multipleOf_exact_iff`). A cast of a quotient that does not fit may give any `int`.
-/

namespace FastJsonSchema

open Ruby Traversal Double

variable {rt : Runtime} {heap : Addr → Option CompiledSchema} {overrun : Overrun}
  {cs : CompiledSchema} {d : Datum} {v w : Value} {a b q m : ℚ}

/-- The check of `multipleOf` in `validate_number`. -/
def checkQuotient (rt : Runtime) (cs : CompiledSchema) (d : Datum) (dataC : Double) : Code :=
  checkNumeric cs d (str "multipleOf") cs.multipleOfVal
    (fun m => rt.hasFraction 32 (dataC.div (.ofInt m))) (fun m => rt.hasFraction 32 (dataC.div m))

/-- `validate_number` starts with the check of `multipleOf`. -/
theorem validateNumber_eq_cons (rt : Runtime) (cs : CompiledSchema) (hd : d.value = v)
    (hv : Number v q) :
    ∃ checks, validateNumber rt cs d = .block (checkQuotient rt cs d (toDouble v) :: checks) := by
  rw [validateNumber, hd]
  cases hv with
  | int h =>
    dsimp only
    rw [num2long, if_pos h]
    exact ⟨_, rfl⟩
  | float h => exact ⟨_, rfl⟩

theorem FitsInt.abs_le_pow {z : ℤ} (hz : FitsInt z) : |z| ≤ 2 ^ 53 := by
  obtain ⟨hlo, hhi⟩ := hz
  rw [abs_le]
  omega

/-- An integer that fits into an `int` is a double. -/
theorem FitsInt.rounded_eq {z : ℤ} (hz : FitsInt z) : rounded z = z :=
  (round_eq_finite (round_intCast hz.abs_le_pow)).symm

/-- No other integer rounds to one that fits. -/
theorem FitsInt.eq_of_rounded {k z : ℤ} (hz : FitsInt z) (h : rounded k = z) : k = z := by
  have hmono : ∀ {i j : ℤ}, i ≤ j → rounded i ≤ rounded j := fun hij =>
    rounded_mono (by exact_mod_cast hij)
  have hfits : FitsInt k := by
    constructor
    · by_contra hk
      have hround := hmono (show k ≤ -2 ^ 31 - 1 by omega)
      rw [h, (round_eq_finite (round_intCast (n := -2 ^ 31 - 1) (by norm_num))).symm] at hround
      have hle : z ≤ -2 ^ 31 - 1 := by exact_mod_cast hround
      exact absurd hz.1 (by omega)
    · by_contra hk
      have hround := hmono (not_lt.1 hk)
      rw [h, (round_eq_finite (round_intCast (n := 2 ^ 31) (by norm_num))).symm] at hround
      have hle : 2 ^ 31 ≤ z := by exact_mod_cast hround
      exact absurd hz.2 (by omega)
  rw [hfits.rounded_eq] at h
  exact_mod_cast h

/-- The quotient of two doubles has no fraction when it rounds to an integer that fits. -/
theorem hasFraction_quotient (hcast : CastsToInt rt) (hb : b ≠ 0) :
    rt.hasFraction 32 ((Double.finite a).div (.finite b)) = true ↔
      ¬ ∃ z : ℤ, rounded (a / b) = z ∧ FitsInt z := by
  rw [Double.div, if_pos hb]
  by_cases hfinite : |rounded (a / b)| < 2 ^ 1024
  · rw [round_eq hfinite, ← Bool.not_eq_false,
      hasFraction_eq_false_iff hcast (onGrid_rounded _)]
  · obtain ⟨s, hs⟩ : ∃ s, Double.round (a / b) = .infinite s := ⟨_, if_neg hfinite⟩
    rw [hs]
    refine iff_of_true ?_ ?_
    · have hfits : |((Double.infinite s).toInt 32).getD (rt.castOut 32 (.infinite s))| ≤ 2 ^ 53 :=
        (hcast (.infinite s)).abs_le_pow
      rw [Runtime.hasFraction, ofInt_eq hfits]
      rfl
    · rintro ⟨z, hz, hfits⟩
      have hle : |(z : ℚ)| ≤ 2 ^ 53 := by exact_mod_cast hfits.abs_le_pow
      rw [hz] at hfinite
      exact hfinite (hle.trans_lt (pow_lt_pow_right₀ one_lt_two (by norm_num)))

theorem Number.rounded_ne_zero (h : Number w m) (hm : m ≠ 0) : rounded m ≠ 0 := by
  cases h with
  | @int n h =>
    intro hzero
    have hround : Double.round n = .finite 0 :=
      (ofInt_long h).trans (congrArg Double.finite hzero)
    exact round_ne_zero (onGrid_intCast n) hm hround
  | float h =>
    rw [← round_eq_finite h]
    exact hm

/-- **How exact `multipleOf` is.** For a value and a non-zero `multipleOf` that are converted
without an exception, the check that `validate_number` starts with ends normally and reports its
error exactly when the double of the value is no multiple of the other one, if and only if the
quotient fits into an `int` where it is a multiple, and does not round to an integer that fits where
it is none. -/
theorem multipleOf_exact_iff (rt : Runtime) (heap : Addr → Option CompiledSchema)
    (overrun : Overrun) (hcast : CastsToInt rt) (hv : Number v q) (hw : Number w m) (hm : m ≠ 0)
    (hd : d.value = v) (hk : cs.multipleOfVal = some w) :
    ∃ checks, validateNumber rt cs d = .block (checkQuotient rt cs d (toDouble v) :: checks) ∧
      ((machine rt heap overrun).Reports (checkQuotient rt cs d (toDouble v))
          (¬ ∃ k : ℤ, rounded q = k * rounded m) ⟨cs.path, d, str "multipleOf"⟩ ↔
        (∀ k : ℤ, rounded q = k * rounded m → FitsInt k) ∧
          ∀ k : ℤ, rounded (rounded q / rounded m) = k → FitsInt k →
            rounded q = k * rounded m) := by
  obtain ⟨checks, hblock⟩ := validateNumber_eq_cons rt cs hd hv
  refine ⟨checks, hblock, ?_⟩
  have hb : rounded m ≠ 0 := hw.rounded_ne_zero hm
  have hquotient : ∀ k : ℤ, rounded q = k * rounded m → rounded q / rounded m = k := fun k h =>
    (div_eq_iff hb).2 h
  rw [checkQuotient, hk]
  refine (BoundKeyword.checkNumeric_reports_iff
    (P := ¬ ∃ z : ℤ, rounded (rounded q / rounded m) = z ∧ FitsInt z) hw ?_ ?_).trans ?_
  · rintro n rfl
    rw [hv.toDouble, show Double.ofInt n = .finite (rounded m) from hw.toDouble,
      hasFraction_quotient hcast hb]
  · rintro x rfl
    rw [hv.toDouble, show x = .finite (rounded m) from hw.toDouble,
      hasFraction_quotient hcast hb]
  rw [not_iff_not]
  constructor
  · intro h
    constructor
    · intro k hmultiple
      obtain ⟨z, hz, hfits⟩ := h.2 ⟨k, hmultiple⟩
      rw [hquotient k hmultiple] at hz
      rw [hfits.eq_of_rounded hz]
      exact hfits
    · intro k hround hfits
      obtain ⟨k', hmultiple⟩ := h.1 ⟨k, hround, hfits⟩
      rw [hquotient k' hmultiple] at hround
      rw [← hfits.eq_of_rounded hround]
      exact hmultiple
  · rintro ⟨hfits, hmultiple⟩
    constructor
    · rintro ⟨k, hround, hk⟩
      exact ⟨k, hmultiple k hround hk⟩
    · rintro ⟨k, h⟩
      rw [hquotient k h]
      exact ⟨k, (hfits k h).rounded_eq, hfits k h⟩

theorem multipleOf_exact_iff_six : ∃ checks,
    validateNumber .bare (multiplesOf 4) (.root (.int 6)) = .block
      (checkQuotient .bare (multiplesOf 4) (.root (.int 6)) (toDouble (.int 6)) :: checks) ∧
      ((machine .bare (fun _ => none) noOverrun).Reports
          (checkQuotient .bare (multiplesOf 4) (.root (.int 6)) (toDouble (.int 6)))
          (¬ ∃ k : ℤ, rounded (6 : ℤ) = k * rounded (4 : ℤ))
          ⟨(multiplesOf 4).path, .root (.int 6), str "multipleOf"⟩ ↔
        (∀ k : ℤ, rounded (6 : ℤ) = k * rounded (4 : ℤ) → FitsInt k) ∧
          ∀ k : ℤ, rounded (rounded (6 : ℤ) / rounded (4 : ℤ)) = k → FitsInt k →
            rounded (6 : ℤ) = k * rounded (4 : ℤ)) :=
  multipleOf_exact_iff .bare _ noOverrun castsToInt_bare (.int (by decide)) (.int (by decide))
    (by norm_num) rfl rfl

end FastJsonSchema
