import FastJsonSchema.Ruby.Double
import Mathlib.Tactic.FieldSimp
import Mathlib.Tactic.GCongr
import Mathlib.Tactic.Linarith
import Mathlib.Tactic.NormNum
import Mathlib.Tactic.Positivity
import Mathlib.Tactic.Ring

/-!
# Rounding

An integer of up to 53 bits is a double (`round_intCast`), a difference of doubles that is not zero
does not round to zero (`round_ne_zero`), and the rounded quotient of two integers of up to 53 bits
is an integer exactly when the quotient is one (`round_div`).
-/

namespace Ruby.Double

/-! ## The nearest integer -/

theorem nearest_intCast (z : ℤ) : nearest z = z := by
  rw [nearest, Int.floor_intCast, sub_self]
  simp

theorem abs_nearest_sub_le (q : ℚ) : |(nearest q : ℚ) - q| ≤ 1 / 2 := by
  have hlo := Int.floor_le q
  have hhi := Int.lt_floor_add_one q
  unfold nearest
  split_ifs with h
  · have hle : q - ⌊q⌋ ≤ 1 / 2 := by
      rcases h with h | ⟨h, -⟩
      · exact h.le
      · exact h.le
    rw [abs_sub_comm, abs_of_nonneg (by linarith)]
    exact hle
  · have hge : 1 / 2 ≤ q - ⌊q⌋ := by
      by_contra hlt
      exact h (.inl (not_le.1 hlt))
    push_cast
    rw [abs_of_nonneg (by linarith)]
    linarith

/-! ## The grid of doubles -/

/-- The exponent of the smallest positive double. -/
def minPlace : ℤ := -1074

/-- A multiple of the smallest positive double. -/
def OnGrid (q : ℚ) : Prop := ∃ k : ℤ, q = k * 2 ^ minPlace

theorem two_zpow_pos (e : ℤ) : (0 : ℚ) < 2 ^ e := zpow_pos two_pos e

theorem minPlace_le_lastPlace (q : ℚ) : minPlace ≤ lastPlace q := by
  unfold lastPlace minPlace
  have := le_max_right (Int.log 2 |q|) (-1022)
  omega

/-- A multiple of a power that is not below the smallest. -/
theorem onGrid_of_le (k : ℤ) {e : ℤ} (he : minPlace ≤ e) : OnGrid (k * 2 ^ e) := by
  obtain ⟨i, hi⟩ := Int.le.dest he
  refine ⟨k * 2 ^ i, ?_⟩
  rw [← hi, zpow_add₀ two_ne_zero, zpow_natCast]
  push_cast
  ring

theorem onGrid_intCast (z : ℤ) : OnGrid z := by
  have h := onGrid_of_le z (e := 0) (by decide)
  rwa [zpow_zero, mul_one] at h

theorem OnGrid.sub {q q' : ℚ} (h : OnGrid q) (h' : OnGrid q') : OnGrid (q - q') := by
  obtain ⟨k, rfl⟩ := h
  obtain ⟨k', rfl⟩ := h'
  exact ⟨k - k', by rw [Int.cast_sub, sub_mul]⟩

theorem OnGrid.le_abs {q : ℚ} (h : OnGrid q) (hq : q ≠ 0) : (2 : ℚ) ^ minPlace ≤ |q| := by
  obtain ⟨k, rfl⟩ := h
  have hk : (1 : ℚ) ≤ |(k : ℚ)| := by
    have hne : k ≠ 0 := by
      rintro rfl
      simp at hq
    exact_mod_cast Int.one_le_abs hne
  rw [abs_mul, abs_of_pos (two_zpow_pos _)]
  exact le_mul_of_one_le_left (two_zpow_pos _).le hk

/-! ## Rounding -/

section Round

variable {q : ℚ}

/-- The value that `round` takes, unless it is too large. -/
def rounded (q : ℚ) : ℚ := nearest (q / 2 ^ lastPlace q) * 2 ^ lastPlace q

theorem round_eq (h : |rounded q| < 2 ^ 1024) : round q = .finite (rounded q) := if_pos h

theorem round_eq_finite {r : ℚ} (h : round q = .finite r) : r = rounded q := by
  unfold round at h
  dsimp only at h
  split_ifs at h
  exact (Double.finite.inj h).symm

theorem abs_rounded_sub_le (q : ℚ) : |rounded q - q| ≤ 2 ^ lastPlace q / 2 := by
  have hpos := two_zpow_pos (lastPlace q)
  have heq : rounded q - q
      = (nearest (q / 2 ^ lastPlace q) - q / 2 ^ lastPlace q) * 2 ^ lastPlace q := by
    rw [sub_mul, div_mul_cancel₀ _ hpos.ne', rounded]
  rw [heq, abs_mul, abs_of_pos hpos]
  calc |(nearest (q / 2 ^ lastPlace q) : ℚ) - q / 2 ^ lastPlace q| * 2 ^ lastPlace q
      ≤ 1 / 2 * 2 ^ lastPlace q :=
        mul_le_mul_of_nonneg_right (abs_nearest_sub_le _) hpos.le
    _ = 2 ^ lastPlace q / 2 := by ring

theorem onGrid_rounded (q : ℚ) : OnGrid (rounded q) := onGrid_of_le _ (minPlace_le_lastPlace q)

/-- A multiple of its last place is its own rounding. -/
theorem rounded_of_multiple {z : ℤ} (hz : |q| = z * 2 ^ lastPlace q) : rounded q = q := by
  have hself : ∀ y : ℤ, q = y * 2 ^ lastPlace q → rounded q = q := by
    intro y hy
    have hdiv : q / 2 ^ lastPlace q = y := by
      rw [div_eq_iff (two_zpow_pos _).ne']
      exact hy
    rw [rounded, hdiv, nearest_intCast]
    exact hy.symm
  rcases abs_choice q with habs | habs
  · exact hself z (by rw [← hz, habs])
  · refine hself (-z) ?_
    rw [Int.cast_neg, neg_mul, ← hz, habs, neg_neg]

/-- What is not zero does not round to zero. -/
theorem round_ne_zero (hgrid : OnGrid q) (hq : q ≠ 0) : round q ≠ .finite 0 := by
  have hpos := two_zpow_pos (lastPlace q)
  have hle : (2 : ℚ) ^ lastPlace q ≤ |q| := by
    unfold lastPlace
    rcases le_total (Int.log 2 |q|) (-1022) with h | h
    · rw [max_eq_right h]
      exact hgrid.le_abs hq
    · rw [max_eq_left h]
      have hlog := Int.zpow_log_le_self one_lt_two (abs_pos.2 hq)
      exact (zpow_le_zpow_right₀ one_le_two (sub_le_self _ (by norm_num))).trans hlog
  have hone : 1 ≤ |q / 2 ^ lastPlace q| := by
    rw [abs_div, abs_of_pos hpos, le_div_iff₀ hpos, one_mul]
    exact hle
  intro h
  have hzero := round_eq_finite h
  rw [rounded, eq_comm, mul_eq_zero, or_iff_left hpos.ne'] at hzero
  have hhalf := abs_nearest_sub_le (q / 2 ^ lastPlace q)
  rw [hzero, zero_sub, abs_neg] at hhalf
  linarith

theorem lastPlace_eq (h : -1022 ≤ Int.log 2 |q|) : lastPlace q = Int.log 2 |q| - 52 := by
  rw [lastPlace, max_eq_left h]

/-- The size of a number between `2⁻⁵³` and `2⁵³`. -/
theorem log_bounds (hlo : (2 : ℚ) ^ (-53 : ℤ) ≤ |q|) (hhi : |q| ≤ 2 ^ (53 : ℤ)) :
    -53 ≤ Int.log 2 |q| ∧ Int.log 2 |q| ≤ 53 := by
  have hpos : 0 < |q| := (two_zpow_pos _).trans_le hlo
  constructor
  · exact (Int.zpow_le_iff_le_log one_lt_two hpos).1 (by exact_mod_cast hlo)
  · have hlt : |q| < 2 ^ (54 : ℤ) := hhi.trans_lt (by norm_num)
    have := (Int.lt_zpow_iff_log_lt (b := 2) (x := 54) one_lt_two hpos).1 (by exact_mod_cast hlt)
    omega

/-- Up to the size of 53 bits, the value that `round` takes is not too large. -/
theorem round_of_le (hhi : |q| ≤ 2 ^ 53) (hlog : Int.log 2 |q| ≤ 53) :
    round q = .finite (rounded q) := by
  have hplace : (2 : ℚ) ^ lastPlace q ≤ 2 ^ (1 : ℤ) := by
    refine zpow_le_zpow_right₀ one_le_two ?_
    unfold lastPlace
    omega
  have herr := abs_rounded_sub_le q
  have habs := abs_sub_abs_le_abs_sub (rounded q) q
  refine round_eq ?_
  calc |rounded q| ≤ 2 ^ 53 + 1 := by
        rw [zpow_one] at hplace
        linarith
    _ < 2 ^ 54 := by norm_num
    _ < 2 ^ 1024 := pow_lt_pow_right₀ one_lt_two (by norm_num)

/-- A power of two is its own rounding. -/
theorem rounded_of_abs_eq (h : -1022 ≤ Int.log 2 |q|) (hq : |q| = 2 ^ Int.log 2 |q|) :
    rounded q = q := by
  refine rounded_of_multiple (z := 2 ^ 52) ?_
  have hsum : Int.log 2 |q| = (52 : ℕ) + lastPlace q := by
    rw [lastPlace_eq h]
    omega
  rw [Int.cast_pow, Int.cast_ofNat, ← zpow_natCast, ← zpow_add₀ two_ne_zero, ← hsum]
  exact hq

end Round

/-- **An integer of up to 53 bits is a double.** -/
theorem round_intCast {n : ℤ} (h : |n| ≤ 2 ^ 53) : round n = .finite n := by
  have hle : |(n : ℚ)| ≤ 2 ^ 53 := by exact_mod_cast h
  rcases eq_or_ne n 0 with rfl | hn
  · rw [Int.cast_zero, round_of_le (by norm_num) (by simp)]
    exact congrArg Double.finite (rounded_of_multiple (z := 0) (by simp))
  have hone : 1 ≤ |(n : ℚ)| := by exact_mod_cast Int.one_le_abs hn
  have hlo : (0 : ℤ) ≤ Int.log 2 |(n : ℚ)| :=
    (Int.zpow_le_iff_le_log one_lt_two (by linarith)).1 (by simpa using hone)
  have hhi := (log_bounds ((zpow_le_one_of_nonpos₀ one_le_two (by norm_num)).trans hone)
    (by exact_mod_cast hle)).2
  rw [round_of_le hle hhi]
  refine congrArg Double.finite ?_
  rcases lt_or_eq_of_le hhi with hlt | heq
  · -- the last place is a fraction
    obtain ⟨e, he⟩ := Int.eq_ofNat_of_zero_le (a := 52 - Int.log 2 |(n : ℚ)|) (by omega)
    refine rounded_of_multiple (z := |n| * 2 ^ e) ?_
    have hsum : (e : ℤ) + lastPlace n = 0 := by
      rw [lastPlace_eq (by omega)]
      omega
    push_cast
    rw [mul_assoc, ← zpow_natCast, ← zpow_add₀ two_ne_zero, hsum, zpow_zero, mul_one]
  · -- the largest power of two
    refine rounded_of_abs_eq (by omega) (le_antisymm ?_ ?_)
    · rw [heq]
      exact_mod_cast hle
    · have hpos : 0 < |(n : ℚ)| := by linarith
      exact Int.zpow_log_le_self one_lt_two hpos

/-- **The rounded quotient of two integers of up to 53 bits** is an integer only when it is
exact. -/
theorem round_div {n m : ℤ} (hn : |n| ≤ 2 ^ 53) (hm : |m| ≤ 2 ^ 53) (hm₀ : m ≠ 0) :
    round (n / m) = .finite (rounded (n / m)) ∧
      ∀ z : ℤ, rounded (n / m) = z → (n / m : ℚ) = z := by
  rcases eq_or_ne n 0 with rfl | hn₀
  · have h := round_intCast (n := 0) (by norm_num)
    rw [Int.cast_zero] at h
    rw [Int.cast_zero, zero_div, ← round_eq_finite h]
    exact ⟨h, fun z hz => hz⟩
  have hnq : |(n : ℚ)| ≤ 2 ^ 53 := by exact_mod_cast hn
  have hmq : |(m : ℚ)| ≤ 2 ^ 53 := by exact_mod_cast hm
  have hn₁ : 1 ≤ |(n : ℚ)| := by exact_mod_cast Int.one_le_abs hn₀
  have hm₁ : 1 ≤ |(m : ℚ)| := by exact_mod_cast Int.one_le_abs hm₀
  have hmpos : 0 < |(m : ℚ)| := by linarith
  set q : ℚ := n / m with hq
  have habs : |q| * |(m : ℚ)| = |(n : ℚ)| := by
    rw [hq, abs_div, div_mul_cancel₀ _ hmpos.ne']
  have hhi : |q| ≤ 2 ^ 53 := by nlinarith [abs_nonneg q]
  have hlo : (2 : ℚ) ^ (-53 : ℤ) ≤ |q| := by
    rw [hq, abs_div, le_div_iff₀ hmpos]
    have : (2 : ℚ) ^ (-53 : ℤ) * 2 ^ 53 = 1 := by norm_num
    nlinarith [two_zpow_pos (-53)]
  obtain ⟨hlog, hlog'⟩ := log_bounds hlo (by exact_mod_cast hhi)
  refine ⟨round_of_le hhi hlog', fun z hz => ?_⟩
  by_contra hne
  -- an integer other than the quotient is no nearer to it than `1 / |m|`
  have hfar : 1 ≤ |rounded q - q| * |(m : ℚ)| := by
    have hint : (rounded q - q) * m = ((z * m - n : ℤ) : ℚ) := by
      rw [hz, hq]
      push_cast
      field_simp
    rw [← abs_mul, hint, ← Int.cast_abs]
    have hne' : z * m - n ≠ 0 := by
      intro h
      apply hne
      rw [hq, div_eq_iff (by exact_mod_cast hm₀)]
      exact_mod_cast (sub_eq_zero.1 h).symm
    exact_mod_cast Int.one_le_abs hne'
  -- while rounding moves it by half of a unit of the last place
  have hnear := abs_rounded_sub_le q
  have hplace : (2 : ℚ) ^ lastPlace q / 2 * 2 ^ 53 = 2 ^ Int.log 2 |q| := by
    rw [lastPlace_eq (by omega), zpow_sub₀ two_ne_zero]
    norm_num
    ring
  have hle := Int.zpow_log_le_self (b := 2) one_lt_two ((two_zpow_pos _).trans_le hlo)
  have heq : |q| = 2 ^ Int.log 2 |q| := by
    refine le_antisymm ?_ (by exact_mod_cast hle)
    nlinarith
  rw [rounded_of_abs_eq (by omega) heq] at hz
  exact hne hz

end Ruby.Double
