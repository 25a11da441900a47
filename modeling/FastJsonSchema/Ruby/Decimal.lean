import FastJsonSchema.Ruby.Value
import FastJsonSchema.Text.Pointer
import Mathlib.Data.List.Induction

/-!
# Decimals

The number that decimal digits stand for (`RString.number`) and the decimal form of a number, which
is injective (`decimal_injective`). The decimal forms are the digits without a leading zero
(`exists_decimal_iff`).
-/

namespace Ruby

namespace RString

/-- The number that decimal digits stand for. -/
def number (s : RString) : ℕ := s.foldl (fun n c => 10 * n + (c.toNat - 48)) 0

/-- Digits without a leading zero. -/
structure IsDecimal (s : RString) : Prop where
  ne_nil : s ≠ []
  digits : ∀ c ∈ s, 48 ≤ c.toNat ∧ c.toNat ≤ 57
  head : s.head? = some 48 → s = [48]

theorem number_append (s : RString) (c : UInt8) :
    number (s ++ [c]) = 10 * number s + (c.toNat - 48) := by
  rw [number, List.foldl_append]
  rfl

theorem number_append_digit (s : RString) {d : ℕ} (h : d < 10) :
    number (s ++ [UInt8.ofNat (48 + d)]) = 10 * number s + d := by
  rw [number_append, UInt8.toNat_ofNat']
  omega

theorem number_digits {fuel n : ℕ} (h : n < fuel) : number (digits fuel n) = n := by
  induction fuel generalizing n with
  | zero => omega
  | succ fuel ih =>
    rw [digits, number_append_digit _ (Nat.mod_lt _ (by omega))]
    split_ifs with hn
    · rw [show number [] = 0 from rfl]
      omega
    · rw [ih (by omega)]
      omega

/-- The digits do not depend on the fuel. -/
theorem digits_congr {fuel fuel' n : ℕ} (h : n < fuel) (h' : n < fuel') :
    digits fuel n = digits fuel' n := by
  induction fuel generalizing fuel' n with
  | zero => omega
  | succ fuel ih =>
    obtain ⟨fuel', rfl⟩ := Nat.exists_eq_succ_of_ne_zero (Nat.ne_of_gt (Nat.zero_lt_of_lt h'))
    rw [digits, digits]
    split_ifs with hn
    · rfl
    · have hrest : digits fuel (n / 10) = digits fuel' (n / 10) := ih (by omega) (by omega)
      rw [hrest]

theorem slash_not_mem_digits {fuel n : ℕ} : Text.slash ∉ digits fuel n := by
  induction fuel generalizing n with
  | zero => simp [digits]
  | succ fuel ih =>
    rw [digits, List.mem_append, not_or]
    refine ⟨?_, fun h => ?_⟩
    · split_ifs
      · exact List.not_mem_nil
      · exact ih
    · have hc := congrArg UInt8.toNat (List.mem_singleton.1 h)
      rw [UInt8.toNat_ofNat', show Text.slash.toNat = 47 from rfl] at hc
      omega

end RString

open RString

theorem decimal_injective {i j : ℕ} (h : decimal i = decimal j) : i = j := by
  rw [← number_digits (Nat.lt_succ_self i), ← number_digits (Nat.lt_succ_self j)]
  exact congrArg number h

theorem slash_not_mem_decimal (i : ℕ) : Text.slash ∉ decimal i := slash_not_mem_digits

theorem number_decimal (n : ℕ) : number (decimal n) = n := number_digits (Nat.lt_succ_self n)

/-- The last digit comes off the end. -/
theorem decimal_eq (n : ℕ) :
    decimal n = (if n < 10 then [] else decimal (n / 10)) ++ [UInt8.ofNat (48 + n % 10)] := by
  rw [decimal, digits]
  split_ifs with hn
  · rfl
  · rw [decimal, digits_congr (by omega) (Nat.lt_succ_self (n / 10))]

theorem length_decimal_le {n k : ℕ} (hk : 1 ≤ k) (h : n < 10 ^ k) :
    List.length (decimal n) ≤ k := by
  induction k generalizing n with
  | zero => omega
  | succ k ih =>
    rw [decimal_eq, List.length_append, List.length_singleton]
    split_ifs with hn
    · exact hk
    · have hk' : 1 ≤ k := by
        by_contra hzero
        obtain rfl : k = 0 := by omega
        exact hn (by simpa using h)
      have hdiv : n / 10 < 10 ^ k := by
        rw [Nat.pow_succ] at h
        omega
      exact Nat.succ_le_succ (ih hk' hdiv)

namespace RString

theorem isDecimal_decimal (n : ℕ) : IsDecimal (decimal n) := by
  induction n using Nat.strong_induction_on with
  | _ n ih =>
    have hdigit : (UInt8.ofNat (48 + n % 10)).toNat = 48 + n % 10 := by
      rw [UInt8.toNat_ofNat']
      omega
    rw [decimal_eq]
    split_ifs with hn
    · refine ⟨by simp, ?_, fun hzero => by simpa using hzero⟩
      intro c hc
      rw [List.nil_append, List.mem_singleton] at hc
      subst hc
      omega
    · have hdec := ih (n / 10) (by omega)
      refine ⟨by simp, ?_, ?_⟩
      · intro c hc
        rcases List.mem_append.1 hc with hc | hc
        · exact hdec.digits c hc
        · rw [List.mem_singleton.1 hc]
          omega
      · -- what a zero heads is below ten
        intro hzero
        rw [List.head?_append_of_ne_nil _ hdec.ne_nil] at hzero
        have hnum := number_decimal (n / 10)
        rw [hdec.head hzero] at hnum
        have : n / 10 = 0 := hnum.symm
        omega

theorem le_foldl (s : RString) (v : ℕ) :
    v ≤ s.foldl (fun n c => 10 * n + (c.toNat - 48)) v := by
  induction s generalizing v with
  | nil => exact le_rfl
  | cons c s ih =>
    have hstep : v ≤ 10 * v + (c.toNat - 48) := by omega
    exact hstep.trans (ih _)

theorem IsDecimal.number_pos {s : RString} (h : IsDecimal s) (hs : s.head? ≠ some 48) :
    0 < number s := by
  obtain ⟨c, t, rfl⟩ := List.exists_cons_of_ne_nil h.ne_nil
  have hc := h.digits c List.mem_cons_self
  have hne : c.toNat ≠ 48 := fun heq => hs (congrArg some (UInt8.toNat_inj.1 heq))
  have hle : 10 * 0 + (c.toNat - 48) ≤ number (c :: t) := le_foldl t _
  omega

/-- Digits without a leading zero are the decimal form of their number. -/
theorem IsDecimal.decimal_number {s : RString} (h : IsDecimal s) : decimal (number s) = s := by
  induction s using List.reverseRecOn with
  | nil => exact absurd rfl h.ne_nil
  | append_singleton s c ih =>
    have hc := h.digits c (by simp)
    have hbyte : UInt8.ofNat (48 + (c.toNat - 48)) = c := by
      rw [Nat.add_sub_cancel' hc.1]
      exact UInt8.ofNat_toNat
    have hmod : (10 * number s + (c.toNat - 48)) % 10 = c.toNat - 48 := by omega
    rw [decimal_eq, number_append, hmod, hbyte]
    by_cases hs : s = []
    · have hnil : number ([] : RString) = 0 := rfl
      rw [hs, hnil, if_pos (by omega)]
    · have hhead : s.head? ≠ some 48 := fun hzero => hs (by
        have hone := h.head (by rwa [List.head?_append_of_ne_nil _ hs])
        exact (List.append_eq_singleton_iff.1 hone).elim And.left fun h => by cases h.2)
      have hinit : IsDecimal s := ⟨hs, fun x hx => h.digits x (List.mem_append_left _ hx),
        fun hzero => absurd hzero hhead⟩
      have hpos := hinit.number_pos hhead
      have hdiv : (10 * number s + (c.toNat - 48)) / 10 = number s := by omega
      rw [if_neg (by omega), hdiv, ih hinit]

end RString

/-- **Decimal forms** are the digits without a leading zero. -/
theorem exists_decimal_iff {s : RString} : (∃ n, s = decimal n) ↔ IsDecimal s := by
  constructor
  · rintro ⟨n, rfl⟩
    exact isDecimal_decimal n
  · intro h
    exact ⟨number s, h.decimal_number.symm⟩

end Ruby
