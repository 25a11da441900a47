import FastJsonSchema.Ruby.Rounding

/-!
# Rounding keeps the order

The values that `round` takes stand in the order of what is rounded (`rounded_mono`). A multiple of
the last place is not crossed (`rounded_le_of_multiple`, `le_rounded_of_multiple`), and between two
numbers with different last places there is such a multiple for both, the power of two where the
last place changes.
-/

namespace Ruby.Double

theorem nearest_mono {q q' : ℚ} (h : q ≤ q') : nearest q ≤ nearest q' := by
  rcases Int.lt_or_eq_of_le (Int.floor_le_floor h) with hlt | heq
  · have hup : nearest q ≤ ⌊q⌋ + 1 := by
      unfold nearest
      split_ifs <;> omega
    have hdown : ⌊q'⌋ ≤ nearest q' := by
      unfold nearest
      split_ifs <;> omega
    omega
  · -- both have the same integer part, and a fraction below the half of the other
    have hsub : q - ⌊q⌋ ≤ q' - ⌊q⌋ := sub_le_sub_right h _
    unfold nearest
    rw [← heq]
    split_ifs with hq hq' hq'
    · exact Int.le_refl _
    · omega
    · refine absurd ?_ hq
      rcases hq' with hlt | ⟨hhalf, heven⟩
      · exact .inl (hsub.trans_lt hlt)
      · exact (hsub.trans_eq hhalf).lt_or_eq.imp_right fun heq => ⟨heq, heven⟩
    · exact Int.le_refl _

section Multiples

variable {q : ℚ} {k : ℤ}

theorem rounded_le_of_multiple (h : q ≤ k * 2 ^ lastPlace q) :
    rounded q ≤ k * 2 ^ lastPlace q := by
  have hpos := two_zpow_pos (lastPlace q)
  have hle : nearest (q / 2 ^ lastPlace q) ≤ k := by
    rw [← nearest_intCast k]
    exact nearest_mono ((div_le_iff₀ hpos).2 h)
  rw [rounded]
  exact mul_le_mul_of_nonneg_right (by exact_mod_cast hle) hpos.le

theorem le_rounded_of_multiple (h : k * 2 ^ lastPlace q ≤ q) :
    k * 2 ^ lastPlace q ≤ rounded q := by
  have hpos := two_zpow_pos (lastPlace q)
  have hle : k ≤ nearest (q / 2 ^ lastPlace q) := by
    rw [← nearest_intCast k]
    exact nearest_mono ((le_div_iff₀ hpos).2 h)
  rw [rounded]
  exact mul_le_mul_of_nonneg_right (by exact_mod_cast hle) hpos.le

/-- A power of two that is not below the last place is a multiple of it. -/
theorem exists_multiple {e : ℤ} (h : lastPlace q ≤ e) :
    ∃ k : ℤ, (2 : ℚ) ^ e = k * 2 ^ lastPlace q := by
  obtain ⟨n, hn⟩ := Int.le.dest h
  refine ⟨2 ^ n, ?_⟩
  rw [← hn, zpow_add₀ two_ne_zero, zpow_natCast, mul_comm]
  push_cast
  ring

end Multiples

theorem nearest_neg (q : ℚ) : nearest (-q) = -nearest q := by
  by_cases hint : ∃ z : ℤ, q = z
  · obtain ⟨z, rfl⟩ := hint
    rw [← Int.cast_neg, nearest_intCast, nearest_intCast]
  · have hlo : (⌊q⌋ : ℚ) < q := lt_of_le_of_ne (Int.floor_le q) fun h => hint ⟨_, h.symm⟩
    have hhi := Int.lt_floor_add_one q
    have hfloor : ⌊-q⌋ = -⌊q⌋ - 1 := by
      rw [Int.floor_eq_iff]
      push_cast
      constructor <;> linarith
    rw [nearest, nearest, hfloor]
    push_cast
    rcases lt_trichotomy (q - ⌊q⌋) (1 / 2) with hlt | heq | hgt
    · rw [if_neg, if_pos (.inl hlt)]
      · ring
      · rintro (h | ⟨h, -⟩) <;> linarith
    · by_cases heven : ⌊q⌋ % 2 = 0
      · rw [if_neg, if_pos (.inr ⟨heq, heven⟩)]
        · ring
        · rintro (h | ⟨-, h⟩)
          · linarith
          · omega
      · rw [if_pos (.inr ⟨by linarith, by omega⟩), if_neg]
        · ring
        · rintro (h | ⟨-, h⟩)
          · linarith
          · exact heven h
    · rw [if_pos (.inl (by linarith)), if_neg]
      · ring
      · rintro (h | ⟨h, -⟩) <;> linarith

theorem lastPlace_neg (q : ℚ) : lastPlace (-q) = lastPlace q := by
  rw [lastPlace, lastPlace, abs_neg]

theorem rounded_neg (q : ℚ) : rounded (-q) = -rounded q := by
  rw [rounded, rounded, lastPlace_neg, neg_div, nearest_neg, Int.cast_neg, neg_mul]

/-- A number with the larger last place is on the other side of a power of two. -/
theorem exists_pow_of_lastPlace_lt {q q' : ℚ} (h : lastPlace q < lastPlace q') (hq' : q' ≠ 0) :
    ∃ e, lastPlace q' ≤ e ∧ |q| < 2 ^ e ∧ (2 : ℚ) ^ e ≤ |q'| := by
  have hlog : Int.log 2 |q| < Int.log 2 |q'| ∧ lastPlace q' = Int.log 2 |q'| - 52 := by
    unfold lastPlace at h ⊢
    omega
  refine ⟨Int.log 2 |q'|, by omega, ?_, Int.zpow_log_le_self one_lt_two (abs_pos.2 hq')⟩
  rcases eq_or_ne q 0 with rfl | hq
  · rw [abs_zero]
    exact two_zpow_pos _
  · exact (Int.lt_zpow_iff_log_lt one_lt_two (abs_pos.2 hq)).2 hlog.1

/-- **Rounding keeps the order.** -/
theorem rounded_mono : Monotone rounded := by
  -- where the last place grows
  have hgrows : ∀ {q q' : ℚ}, q ≤ q' → lastPlace q < lastPlace q' → rounded q ≤ rounded q' := by
    intro q q' h hlt
    rcases eq_or_ne q' 0 with rfl | hq'
    · have hzero : rounded (0 : ℚ) = 0 := rounded_of_multiple (z := 0) (by simp)
      have hle := rounded_le_of_multiple (q := q) (k := 0) (by simpa using h)
      rw [hzero]
      simpa using hle
    · obtain ⟨e, he, hlow, hhigh⟩ := exists_pow_of_lastPlace_lt hlt hq'
      have hpos : 0 < q' := by
        by_contra hneg
        rw [abs_of_nonpos (not_lt.1 hneg)] at hhigh
        have := neg_abs_le q
        linarith
      rw [abs_of_pos hpos] at hhigh
      obtain ⟨k, hk⟩ := exists_multiple (q := q) (hlt.le.trans he)
      obtain ⟨k', hk'⟩ := exists_multiple he
      calc rounded q ≤ 2 ^ e := by
            rw [hk]
            exact rounded_le_of_multiple (hk ▸ (le_abs_self q).trans hlow.le)
        _ ≤ rounded q' := by
            rw [hk']
            exact le_rounded_of_multiple (hk' ▸ hhigh)
  intro q q' h
  rcases lt_trichotomy (lastPlace q) (lastPlace q') with hlt | heq | hgt
  · exact hgrows h hlt
  · rw [rounded, rounded, heq]
    have hpos := two_zpow_pos (lastPlace q')
    have hle := nearest_mono (div_le_div_of_nonneg_right h hpos.le)
    exact mul_le_mul_of_nonneg_right (by exact_mod_cast hle) hpos.le
  · have hneg := hgrows (neg_le_neg h) (by rwa [lastPlace_neg, lastPlace_neg])
    rw [rounded_neg, rounded_neg] at hneg
    exact neg_le_neg_iff.1 hneg

end Ruby.Double
