import FastJsonSchema.Formats.DateTime
import FastJsonSchema.Formats.Ipv4
import Mathlib.Tactic.DeprecateTo
import Mathlib.Tactic.IntervalCases

/-!
# Timestamps

The dates of the Gregorian calendar with a year of four digits (`FullDate`), as the standard
library has them, the times of day with an offset from UTC (`FullTime`), and how each is written
down. The parsers accept what is written down and nothing else, and each accepted string is the form
of one date, time or pair of both (`timestamps_exact`).
-/

namespace FastJsonSchema.Formats

open Ruby Scan RString Words

/-! ## Numbers of a fixed width -/

section Fields

variable {w n k : ℕ} {ds : Bytes}

/-- A number in `w` digits. -/
def padded : ℕ → ℕ → Bytes
  | 0, _ => []
  | w + 1, n => padded w (n / 10) ++ [UInt8.ofNat (48 + n % 10)]

@[simp] theorem length_padded : (padded w n).length = w := by
  induction w generalizing n with
  | zero => rfl
  | succ w ih => rw [padded, List.length_append, ih, List.length_singleton]

theorem number_padded (h : n < 10 ^ w) : number (padded w n) = n := by
  induction w generalizing n with
  | zero =>
    obtain rfl : n = 0 := by simpa using h
    rfl
  | succ w ih =>
    have hdiv : n / 10 < 10 ^ w := by
      rw [Nat.div_lt_iff_lt_mul (by omega), ← Nat.pow_succ]
      exact h
    rw [padded, number_append_digit _ (Nat.mod_lt _ (by omega)), ih hdiv]
    omega

theorem digits_padded : Digits (padded w n) := by
  induction w generalizing n with
  | zero => exact fun c hc => absurd hc List.not_mem_nil
  | succ w ih =>
    refine Digits.append ih (List.forall_mem_singleton.2 (isDigit_iff.2 ?_))
    rw [UInt8.toNat_ofNat']
    omega

/-- Digits are the number that they stand for, in as many digits. -/
theorem padded_number (h : Digits ds) : padded ds.length (number ds) = ds := by
  induction ds using List.reverseRecOn with
  | nil => rfl
  | append_singleton ds c ih =>
    obtain ⟨hds, hc⟩ := List.forall_mem_append.1 h
    have hc := isDigit_iff.1 (hc c List.mem_cons_self)
    have hdiv : (10 * number ds + (c.toNat - 48)) / 10 = number ds := by omega
    have hmod : 48 + (10 * number ds + (c.toNat - 48)) % 10 = c.toNat := by omega
    rw [List.length_append, List.length_singleton, padded, number_append, hdiv, ih hds, hmod,
      UInt8.ofNat_toNat]

theorem number_lt (h : Digits ds) : number ds < 10 ^ ds.length := by
  induction ds using List.reverseRecOn with
  | nil => simp [number]
  | append_singleton ds c ih =>
    obtain ⟨hds, hc⟩ := List.forall_mem_append.1 h
    have hc := isDigit_iff.1 (hc c List.mem_cons_self)
    have := ih hds
    rw [List.length_append, List.length_singleton, number_append, Nat.pow_succ]
    omega

theorem padded_injective {m : ℕ} (hm : m < 10 ^ w) (hn : n < 10 ^ w)
    (h : padded w m = padded w n) : m = n := by
  rw [← number_padded hm, h, number_padded hn]

/-- Digits that stand for a number below `k` are such a number in its digits. -/
theorem field_iff (hk : k ≤ 10 ^ w) (hw : ds.length = w) :
    Digits ds ∧ number ds < k ↔ ∃ n : Fin k, ds = padded w n := by
  constructor
  · rintro ⟨hds, hlt⟩
    exact ⟨⟨number ds, hlt⟩, by rw [← hw, padded_number hds]⟩
  · rintro ⟨n, rfl⟩
    rw [number_padded (n.2.trans_le hk)]
    exact ⟨digits_padded, n.2⟩

end Fields

/-! ## What the parsers read -/

section Reads

variable {s : Bytes} {i n : ℕ}

theorem digitsAt_eq (h : i + n ≤ s.length) :
    digitsAt s i n = .ok (((s.drop i).take n).all isDigit) := by
  induction n generalizing i with
  | zero => rfl
  | succ n ih =>
    rw [digitsAt, byte_eq (by omega), ok_bind, ih (by omega),
      List.drop_eq_getElem_cons (i := i) (by omega), List.take_succ_cons, List.all_cons]
    cases isDigit s[i] <;> rfl

theorem digitAt_eq (h : i < s.length) : digitAt s i = .ok (s[i].toNat - 48) := by
  rw [digitAt, byte_eq h]
  rfl

theorem twoDigits_eq (h : i + 2 ≤ s.length) :
    twoDigits s i = .ok (number ((s.drop i).take 2)) := by
  rw [twoDigits, digitAt_eq (by omega), digitAt_eq (by omega),
    List.drop_eq_getElem_cons (i := i) (by omega),
    List.drop_eq_getElem_cons (i := i + 1) (by omega), ok_bind, ok_bind, List.take_succ_cons,
    List.take_succ_cons, List.take_zero, Nat.mul_comm]
  simp [number]

theorem not_all_isDigit {ds : Bytes} : ¬ (!ds.all isDigit) = true ↔ Digits ds := by
  rw [Bool.not_eq_true', Bool.not_eq_false, List.all_eq_true, Digits]

theorem ite_ok_false_iff {c : Prop} [Decidable c] {m : Result Bool} :
    (if c then .ok false else m) = .ok true ↔ ¬ c ∧ m = .ok true := by
  split_ifs with h <;> simp [h]

end Reads

/-! ## Dates -/

/-- A date of the Gregorian calendar with a year of four digits. -/
structure FullDate where
  date : Std.Time.PlainDate
  nonneg : 0 ≤ date.year.toInt
  le : date.year.toInt ≤ 9999

namespace FullDate

open Std.Time

/-- `YYYY-MM-DD` -/
def print (d : FullDate) : Bytes :=
  padded 4 d.date.year.toInt.toNat ++
    chr '-' :: (padded 2 d.date.month.val.toNat ++ chr '-' :: padded 2 d.date.day.val.toNat)

/-- `days_in_month` is the length of the month in the calendar. -/
theorem daysInMonth_eq (y : ℕ) (m : Month.Ordinal) :
    daysInMonth y m.val.toNat = (m.days (Year.Offset.ofNat y).isLeap).val.toNat := by
  have hleap : (Year.Offset.ofNat y).isLeap = isLeapYear y := by
    have hdef : (Year.Offset.ofNat y).isLeap = decide ((y : ℤ).tmod 4 = 0 ∧
      ((y : ℤ).tmod 100 ≠ 0 ∨ (y : ℤ).tmod 400 = 0)) := rfl
    have hmod : ∀ n : ℤ, (y : ℤ).tmod n = y % n :=
      fun n => Int.tmod_eq_emod_of_nonneg (Int.natCast_nonneg y)
    rw [hdef, isLeapYear, Bool.eq_iff_iff]
    simp only [decide_eq_true_eq, Bool.or_eq_true, Bool.and_eq_true, beq_iff_eq, bne_iff_ne, hmod]
    omega
  rw [hleap, daysInMonth]
  obtain ⟨m, hlo, hhi⟩ := m
  generalize isLeapYear y = leap
  interval_cases m <;> cases leap <;> rfl

theorem length_print (d : FullDate) : d.print.length = 10 := by
  simp [print]

/-- The parts of a date that is written down. -/
theorem eq_print_iff {d : FullDate} {ys ms ds : Bytes} {a b : UInt8} (hys : ys.length = 4)
    (hms : ms.length = 2) : ys ++ a :: (ms ++ b :: ds) = d.print ↔
      ys = padded 4 d.date.year.toInt.toNat ∧ a = chr '-' ∧ ms = padded 2 d.date.month.val.toNat ∧
        b = chr '-' ∧ ds = padded 2 d.date.day.val.toNat := by
  constructor
  · intro h
    obtain ⟨hy, h⟩ := List.append_inj h (by rw [hys, length_padded])
    obtain ⟨ha, h⟩ := List.cons.inj h
    obtain ⟨hm, h⟩ := List.append_inj h (by rw [hms, length_padded])
    obtain ⟨hb, hd⟩ := List.cons.inj h
    exact ⟨hy, ha, hm, hb, hd⟩
  · rintro ⟨rfl, rfl, rfl, rfl, rfl⟩
    rfl

theorem print_injective : Function.Injective print := by
  intro d d' h
  obtain ⟨hy, -, hm, -, hd⟩ := (eq_print_iff (by simp) (by simp)).1 h
  obtain ⟨⟨y, m, d, hvalid⟩, hnonneg, hle⟩ := d
  obtain ⟨⟨y', m', d', hvalid'⟩, hnonneg', hle'⟩ := d'
  dsimp only at hy hm hd hnonneg hnonneg' hle hle'
  have hmonth := m.property
  have hmonth' := m'.property
  have hday := d.property
  have hday' := d'.property
  have hy : y.toInt.toNat = y'.toInt.toNat := padded_injective (by omega) (by omega) hy
  have hm : m.val.toNat = m'.val.toNat := padded_injective (by omega) (by omega) hm
  have hd : d.val.toNat = d'.val.toNat := padded_injective (by omega) (by omega) hd
  obtain rfl : y = y' := show y.toInt = y'.toInt by omega
  obtain rfl : m = m' := Subtype.ext (by omega)
  obtain rfl : d = d' := Subtype.ext (by omega)
  rfl

/-- The numbers of a date. -/
theorem exists_iff {ys ms ds : Bytes} (hys : ys.length = 4) (hms : ms.length = 2)
    (hds : ds.length = 2) : (∃ d : FullDate, ys ++ chr '-' :: (ms ++ chr '-' :: ds) = d.print) ↔
      Digits ys ∧ Digits ms ∧ Digits ds ∧ (1 ≤ number ms ∧ number ms ≤ 12) ∧ 1 ≤ number ds ∧
        number ds ≤ daysInMonth (number ys) (number ms) := by
  constructor
  · rintro ⟨⟨⟨y, month, day, hvalid⟩, hnonneg, hle⟩, h⟩
    obtain ⟨rfl, -, rfl, -, rfl⟩ := (eq_print_iff hys hms).1 h
    obtain ⟨n, rfl⟩ : ∃ n : ℕ, y = .ofNat n := Int.eq_ofNat_of_zero_le hnonneg
    have hyear : (Year.Offset.ofNat n).toInt = (n : ℤ) := rfl
    dsimp only at hnonneg hle ⊢
    have hmonth := month.property
    have hday := day.property
    have hlast : day.val ≤ (month.days (Year.Offset.ofNat n).isLeap).val := hvalid
    rw [number_padded (by omega), number_padded (by omega), number_padded (by omega), hyear,
      Int.toNat_natCast, daysInMonth_eq]
    refine ⟨digits_padded, digits_padded, digits_padded, by omega, by omega, by omega⟩
  · rintro ⟨hy, hm, hd, hmonth, hday⟩
    let month : Month.Ordinal := ⟨number ms, by omega⟩
    have hdays : daysInMonth (number ys) (number ms)
      = (month.days (Year.Offset.ofNat (number ys)).isLeap).val.toNat := daysInMonth_eq _ month
    have hbound := (month.days (Year.Offset.ofNat (number ys)).isLeap).property
    let day : Day.Ordinal := ⟨number ds, by omega⟩
    have hvalid : day.val ≤ (month.days (Year.Offset.ofNat (number ys)).isLeap).val := by
      dsimp only [day]
      omega
    have hlt : number ys < 10 ^ 4 := hys ▸ number_lt hy
    have hle : (number ys : ℤ) ≤ 9999 := by omega
    refine ⟨⟨⟨.ofNat (number ys), month, day, hvalid⟩, Int.natCast_nonneg _, hle⟩, ?_⟩
    refine (eq_print_iff hys hms).2 ⟨?_, rfl, ?_, rfl, ?_⟩
    · exact (hys ▸ padded_number hy).symm
    · exact (hms ▸ padded_number hm).symm
    · exact (hds ▸ padded_number hd).symm

theorem parseFullDate_fields {a b c d e f g h i j : UInt8} :
    parseFullDate [a, b, c, d, e, f, g, h, i, j] = .ok true ↔
      Digits [a, b, c, d] ∧ e = chr '-' ∧ Digits [f, g] ∧ h = chr '-' ∧ Digits [i, j] ∧
        (1 ≤ number [f, g] ∧ number [f, g] ≤ 12) ∧ 1 ≤ number [i, j] ∧
          number [i, j] ≤ daysInMonth (number [a, b, c, d]) (number [f, g]) := by
  have hyear : digitsAt [a, b, c, d, e, f, g, h, i, j] 0 4 = .ok ([a, b, c, d].all isDigit) :=
    digitsAt_eq (by simp)
  have hmonth : digitsAt [a, b, c, d, e, f, g, h, i, j] 5 2 = .ok ([f, g].all isDigit) :=
    digitsAt_eq (by simp)
  have hday : digitsAt [a, b, c, d, e, f, g, h, i, j] 8 2 = .ok ([i, j].all isDigit) :=
    digitsAt_eq (by simp)
  have hmonth' : twoDigits [a, b, c, d, e, f, g, h, i, j] 5 = .ok (number [f, g]) :=
    twoDigits_eq (by simp)
  have hday' : twoDigits [a, b, c, d, e, f, g, h, i, j] 8 = .ok (number [i, j]) :=
    twoDigits_eq (by simp)
  have hnumber : (a.toNat - (chr '0').toNat) * 1000 + (b.toNat - (chr '0').toNat) * 100
      + (c.toNat - (chr '0').toNat) * 10 + (d.toNat - (chr '0').toNat) = number [a, b, c, d] := by
    simp only [number, List.foldl_cons, List.foldl_nil, show (chr '0').toNat = 48 from rfl]
    omega
  rw [parseFullDate, if_neg (by simp), hyear, hmonth, hday, hmonth', hday']
  simp only [ok_bind, ite_ok_false_iff, byte_succ_cons, byte_zero_cons, digitAt, not_all_isDigit,
    hnumber, not_or, not_lt, gt_iff_lt, ne_eq, not_not, and_true]

/-- `parse_full_date` accepts the forms of the dates. -/
theorem parse_iff {s : Bytes} : parseFullDate s = .ok true ↔ ∃ d : FullDate, s = d.print := by
  by_cases hlen : s.length = 10
  · match s, hlen with
    | [a, b, c, d, e, f, g, h, i, j], _ =>
      have hexists := exists_iff (rfl : [a, b, c, d].length = 4) (rfl : [f, g].length = 2)
        (rfl : [i, j].length = 2)
      rw [parseFullDate_fields]
      constructor
      · rintro ⟨hy, rfl, hm, rfl, hd, hvalid⟩
        exact hexists.2 ⟨hy, hm, hd, hvalid⟩
      · rintro ⟨date, hdate⟩
        have hparts := (eq_print_iff (rfl : [a, b, c, d].length = 4) (rfl : [f, g].length = 2)).1
          hdate
        obtain ⟨-, rfl, -, rfl, -⟩ := hparts
        obtain ⟨hy, hm, hd, hvalid⟩ := hexists.1 ⟨date, hdate⟩
        exact ⟨hy, rfl, hm, rfl, hd, hvalid⟩
  · rw [parseFullDate, if_pos hlen]
    refine iff_of_false (by simp) ?_
    rintro ⟨d, rfl⟩
    exact hlen d.length_print

end FullDate

/-! ## Times -/

/-- The offset of a time from UTC. -/
inductive Offset
  | utc
  | shifted (negative : Bool) (hour : Fin 24) (minute : Fin 60)

/-- A time of day: the second 60 is a leap second, and a fraction of a second has a digit. -/
structure FullTime where
  hour : Fin 24
  minute : Fin 60
  second : Fin 61
  fraction : Option {ds : Bytes // ds ≠ [] ∧ Digits ds}
  offset : Offset

/-- `Z`, `+HH:MM` or `-HH:MM` -/
def Offset.print : Offset → Bytes
  | .utc => [chr 'Z']
  | .shifted negative hour minute =>
    (if negative then chr '-' else chr '+') :: (padded 2 hour ++ chr ':' :: padded 2 minute)

/-- A dot and digits, if there is a fraction. -/
def printFraction : Option {ds : Bytes // ds ≠ [] ∧ Digits ds} → Bytes
  | none => []
  | some ds => chr '.' :: ds.1

/-- `HH:MM:SS`, the fraction and the offset -/
def FullTime.print (t : FullTime) : Bytes :=
  padded 2 t.hour ++ chr ':' :: (padded 2 t.minute ++ chr ':' :: (padded 2 t.second
    ++ (printFraction t.fraction ++ t.offset.print)))

namespace Offset

/-- An offset starts with no digit and no dot. -/
theorem exists_print_eq_cons (o : Offset) :
    ∃ c t, o.print = c :: t ∧ isDigit c = false ∧ c ≠ chr '.' := by
  cases o with
  | utc => exact ⟨_, _, rfl, by decide, by decide⟩
  | shifted negative hour minute =>
    refine ⟨_, _, rfl, ?_⟩
    cases negative <;> decide

theorem eq_shifted_iff {negative : Bool} {hour : Fin 24} {minute : Fin 60} {hs ms : Bytes}
    {c d : UInt8} (hhs : hs.length = 2) :
    c :: (hs ++ d :: ms) = (shifted negative hour minute).print ↔
      c = (if negative then chr '-' else chr '+') ∧ hs = padded 2 hour ∧ d = chr ':' ∧
        ms = padded 2 minute := by
  constructor
  · intro h
    obtain ⟨hc, h⟩ := List.cons.inj h
    obtain ⟨hh, h⟩ := List.append_inj h (by rw [hhs, length_padded])
    obtain ⟨hd, hm⟩ := List.cons.inj h
    exact ⟨hc, hh, hd, hm⟩
  · rintro ⟨rfl, rfl, rfl, rfl⟩
    rfl

theorem sign_ne (b : Bool) : (if b then chr '-' else chr '+') ≠ chr 'Z' := by
  cases b <;> decide

theorem print_injective : Function.Injective print := by
  intro o o' h
  cases o with
  | utc =>
    cases o' with
    | utc => rfl
    | shifted negative hour minute => exact absurd (List.cons.inj h).1.symm (sign_ne negative)
  | shifted negative hour minute =>
    cases o' with
    | utc => exact absurd (List.cons.inj h).1 (sign_ne negative)
    | shifted negative' hour' minute' =>
      obtain ⟨hc, hh, -, hm⟩ := (eq_shifted_iff (by simp)).1 h
      have hhour := padded_injective (by omega) (by omega) hh
      have hminute := padded_injective (by omega) (by omega) hm
      obtain rfl : negative = negative' := by
        revert hc
        cases negative <;> cases negative' <;> decide
      rw [Fin.ext hhour, Fin.ext hminute]

/-- The numbers of an offset. -/
theorem exists_iff {hs ms : Bytes} {c d : UInt8} (hhs : hs.length = 2) (hms : ms.length = 2) :
    (∃ o : Offset, c :: (hs ++ d :: ms) = o.print) ↔
      (c = chr '+' ∨ c = chr '-') ∧ (Digits hs ∧ number hs < 24) ∧ d = chr ':' ∧
        Digits ms ∧ number ms < 60 := by
  rw [field_iff (by decide) hhs, field_iff (by decide) hms]
  constructor
  · rintro ⟨_ | ⟨negative, hour, minute⟩, h⟩
    · exact absurd (congrArg List.length h) (by simp [print])
    · obtain ⟨rfl, rfl, rfl, rfl⟩ := (eq_shifted_iff hhs).1 h
      exact ⟨by cases negative <;> decide, ⟨hour, rfl⟩, rfl, minute, rfl⟩
  · rintro ⟨rfl | rfl, ⟨hour, rfl⟩, rfl, minute, rfl⟩
    · exact ⟨shifted false hour minute, rfl⟩
    · exact ⟨shifted true hour minute, rfl⟩

/-- The part of `parse_full_time` after the fraction accepts the forms of the offsets. -/
theorem offsetAt_iff {x y : Bytes} {pos : ℕ} (hpos : pos = x.length) :
    offsetAt (x ++ y) pos = .ok true ↔ ∃ o : Offset, y = o.print := by
  subst hpos
  cases y with
  | nil =>
    rw [offsetAt, if_pos (by simp)]
    refine iff_of_false (by simp) ?_
    rintro ⟨o, ho⟩
    obtain ⟨c, t, hprint, -⟩ := o.exists_print_eq_cons
    exact absurd (ho.trans hprint) (by simp)
  | cons c t =>
    rw [offsetAt, if_neg (by simp), byte_append rfl, ok_bind]
    by_cases hz : c = chr 'Z'
    · rw [if_pos hz]
      subst hz
      constructor
      · intro h
        obtain rfl : t = [] := by
          have hlast : x.length = (x ++ chr 'Z' :: t).length - 1 := by simpa using h
          rw [List.length_append, List.length_cons] at hlast
          exact List.length_eq_zero_iff.1 (by omega)
        exact ⟨.utc, rfl⟩
      · rintro ⟨o, ho⟩
        cases o with
        | utc =>
          obtain ⟨-, rfl⟩ := List.cons.inj ho
          simp
        | shifted negative hour minute =>
          exact absurd (List.cons.inj ho).1.symm (sign_ne negative)
    · rw [if_neg hz, ite_ok_false_iff, ite_ok_false_iff]
      by_cases hsix : t.length = 5
      · match t, hsix with
        | [a, b, d, e, f], _ =>
          have hexists := exists_iff (c := c) (d := d) (rfl : [a, b].length = 2)
            (rfl : [e, f].length = 2)
          have hhour : digitsAt (x ++ [c, a, b, d, e, f]) (x.length + 1) 2
            = .ok ([a, b].all isDigit) := (digitsAt_eq (by simp)).trans (by simp)
          have hminute : digitsAt (x ++ [c, a, b, d, e, f]) (x.length + 4) 2
            = .ok ([e, f].all isDigit) := (digitsAt_eq (by simp)).trans (by simp)
          have hhour' : twoDigits (x ++ [c, a, b, d, e, f]) (x.length + 1)
            = .ok (number [a, b]) := (twoDigits_eq (by simp)).trans (by simp)
          have hminute' : twoDigits (x ++ [c, a, b, d, e, f]) (x.length + 4)
            = .ok (number [e, f]) := (twoDigits_eq (by simp)).trans (by simp)
          have hcolon : byte (x ++ [c, a, b, d, e, f]) (x.length + 3) = .ok d :=
            (byte_append_add rfl).trans rfl
          rw [hhour, hminute, hhour', hminute', hcolon]
          refine Iff.trans ?_ hexists.symm
          have hlen : (x ++ [c, a, b, d, e, f]).length - x.length = 6 := by simp
          simp only [ok_bind, ite_ok_false_iff, not_all_isDigit, hlen, ne_eq, not_and, not_not,
            not_lt, gt_iff_lt, true_and, and_true]
          constructor
          · rintro ⟨hsign, hh, hd, hm, hhour, hminute⟩
            exact ⟨or_iff_not_imp_left.2 hsign, ⟨hh, by omega⟩, hd, hm, by omega⟩
          · rintro ⟨hsign, ⟨hh, hhour⟩, hd, hm, hminute⟩
            exact ⟨or_iff_not_imp_left.1 hsign, hh, hd, hm, by omega, by omega⟩
      · refine iff_of_false (fun h => hsix ?_) ?_
        · have hlen := not_not.1 h.2.1
          rw [List.length_append, List.length_cons] at hlen
          omega
        · rintro ⟨o, ho⟩
          cases o with
          | utc => exact hz (List.cons.inj ho).1
          | shifted negative hour minute =>
            refine hsix ?_
            rw [(List.cons.inj ho).2, List.length_append, List.length_cons, length_padded,
              length_padded]

end Offset

namespace FullTime

/-- Where the digits of a fraction end, the offset starts. -/
theorem fraction_split {ds : Bytes} (hds : Digits ds) (o : Offset) :
    (ds ++ o.print).takeWhile isDigit = ds ∧ (ds ++ o.print).dropWhile isDigit = o.print := by
  obtain ⟨c, t, hprint, hc, -⟩ := o.exists_print_eq_cons
  rw [List.takeWhile_append_of_pos hds, List.dropWhile_append_of_pos hds, hprint]
  simp [hc]

theorem fraction_injective {f f' : Option {ds : Bytes // ds ≠ [] ∧ Digits ds}} {o o' : Offset}
    (h : printFraction f ++ o.print = printFraction f' ++ o'.print) : f = f' ∧ o = o' := by
  have hdot : ∀ {o : Offset} {t : Bytes}, o.print ≠ chr '.' :: t := by
    intro o t ho
    obtain ⟨c, t', hprint, -, hc⟩ := o.exists_print_eq_cons
    exact hc (List.cons.inj (hprint.symm.trans ho)).1
  cases f with
  | none =>
    cases f' with
    | none => exact ⟨rfl, Offset.print_injective h⟩
    | some ds => exact absurd h hdot
  | some ds =>
    cases f' with
    | none => exact absurd h.symm hdot
    | some ds' =>
      have hrest : ds.1 ++ o.print = ds'.1 ++ o'.print := (List.cons.inj h).2
      have hsplit := fraction_split ds.2.2 o
      rw [hrest, (fraction_split ds'.2.2 o').1, (fraction_split ds'.2.2 o').2] at hsplit
      exact ⟨congrArg some (Subtype.ext hsplit.1.symm), Offset.print_injective hsplit.2.symm⟩

theorem length_print (t : FullTime) : 9 ≤ t.print.length := by
  obtain ⟨c, r, hprint, -⟩ := t.offset.exists_print_eq_cons
  rw [print, hprint]
  simp
  omega

/-- The parts of a time that is written down. -/
theorem eq_print_iff {t : FullTime} {hs ms ss r : Bytes} {a b : UInt8} (hhs : hs.length = 2)
    (hms : ms.length = 2) (hss : ss.length = 2) :
    hs ++ a :: (ms ++ b :: (ss ++ r)) = t.print ↔
      hs = padded 2 t.hour ∧ a = chr ':' ∧ ms = padded 2 t.minute ∧ b = chr ':' ∧
        ss = padded 2 t.second ∧ r = printFraction t.fraction ++ t.offset.print := by
  constructor
  · intro h
    obtain ⟨hh, h⟩ := List.append_inj h (by rw [hhs, length_padded])
    obtain ⟨ha, h⟩ := List.cons.inj h
    obtain ⟨hm, h⟩ := List.append_inj h (by rw [hms, length_padded])
    obtain ⟨hb, h⟩ := List.cons.inj h
    obtain ⟨hs, hr⟩ := List.append_inj h (by rw [hss, length_padded])
    exact ⟨hh, ha, hm, hb, hs, hr⟩
  · rintro ⟨rfl, rfl, rfl, rfl, rfl, rfl⟩
    rfl

theorem print_injective : Function.Injective print := by
  intro t t' h
  obtain ⟨hh, -, hm, -, hs, hr⟩ := (eq_print_iff (by simp) (by simp) (by simp)).1 h
  obtain ⟨hour, minute, second, fraction, offset⟩ := t
  obtain ⟨hour', minute', second', fraction', offset'⟩ := t'
  have hhour : hour.val = hour'.val := padded_injective (by omega) (by omega) hh
  have hminute : minute.val = minute'.val := padded_injective (by omega) (by omega) hm
  have hsecond : second.val = second'.val := padded_injective (by omega) (by omega) hs
  obtain ⟨rfl, rfl⟩ := fraction_injective hr
  rw [Fin.ext hhour, Fin.ext hminute, Fin.ext hsecond]

/-- The numbers of a time. -/
theorem exists_iff {hs ms ss r : Bytes} (hhs : hs.length = 2) (hms : ms.length = 2)
    (hss : ss.length = 2) :
    (∃ t : FullTime, hs ++ chr ':' :: (ms ++ chr ':' :: (ss ++ r)) = t.print) ↔
      (Digits hs ∧ number hs < 24) ∧ (Digits ms ∧ number ms < 60) ∧ (Digits ss ∧ number ss < 61) ∧
        ∃ f o, r = printFraction f ++ Offset.print o := by
  rw [field_iff (by decide) hhs, field_iff (by decide) hms, field_iff (by decide) hss]
  constructor
  · rintro ⟨t, ht⟩
    obtain ⟨rfl, -, rfl, -, rfl, rfl⟩ := (eq_print_iff hhs hms hss).1 ht
    exact ⟨⟨_, rfl⟩, ⟨_, rfl⟩, ⟨_, rfl⟩, _, _, rfl⟩
  · rintro ⟨⟨hour, rfl⟩, ⟨minute, rfl⟩, ⟨second, rfl⟩, f, o, rfl⟩
    exact ⟨⟨hour, minute, second, f, o⟩, rfl⟩

/-- What follows the seconds is an optional fraction and an offset. -/
theorem fraction_iff {x q : Bytes} {c : UInt8} (hx : x.length = 8) :
    (if c = chr '.' then do
        let pos ← skipWhile isDigit (x ++ c :: q) 9 (x ++ c :: q).length
        if pos = 9 then .ok false else offsetAt (x ++ c :: q) pos
      else offsetAt (x ++ c :: q) 8) = .ok true ↔
      ∃ f o, c :: q = printFraction f ++ Offset.print o := by
  by_cases hdot : c = chr '.'
  · subst hdot
    have hskip : skipWhile isDigit (x ++ chr '.' :: q) 9 (x ++ chr '.' :: q).length
        = .ok (9 + (q.takeWhile isDigit).length) := by
      have := skipWhile_append (p := isDigit) (x := x ++ [chr '.']) (y := q) (z := []) (i := 9)
        (j := (x ++ chr '.' :: q).length) (by simp [hx]) (by simp; omega)
      simpa using this
    have hoffset : offsetAt (x ++ chr '.' :: q) (9 + (q.takeWhile isDigit).length) = .ok true ↔
        ∃ o : Offset, q.dropWhile isDigit = o.print := by
      have hsplit : x ++ chr '.' :: q
          = (x ++ chr '.' :: q.takeWhile isDigit) ++ q.dropWhile isDigit := by simp
      rw [hsplit]
      exact Offset.offsetAt_iff (by simp [hx]; omega)
    rw [if_pos rfl, hskip, ok_bind, ite_ok_false_iff, hoffset]
    constructor
    · rintro ⟨hne, o, ho⟩
      have hds : Digits (q.takeWhile isDigit) := not_all_isDigit.1 (by simp)
      refine ⟨some ⟨q.takeWhile isDigit, fun h => hne (by rw [h]; rfl), hds⟩, o, ?_⟩
      rw [printFraction, List.cons_append, ← ho, List.takeWhile_append_dropWhile]
    · rintro ⟨_ | ds, o, h⟩
      · obtain ⟨c, t, hprint, -, hc⟩ := o.exists_print_eq_cons
        exact absurd (List.cons.inj (hprint.symm.trans h.symm)).1 hc
      · obtain rfl : q = ds.1 ++ o.print := (List.cons.inj h).2
        obtain ⟨htake, hdrop⟩ := fraction_split ds.2.2 o
        rw [htake, hdrop]
        have := List.length_pos_iff.2 ds.2.1
        exact ⟨by omega, o, rfl⟩
  · rw [if_neg hdot, Offset.offsetAt_iff hx.symm]
    constructor
    · rintro ⟨o, ho⟩
      exact ⟨none, o, ho⟩
    · rintro ⟨_ | ds, o, h⟩
      · exact ⟨o, h⟩
      · exact absurd (List.cons.inj h).1 hdot

/-- `parse_full_time` accepts the forms of the times. -/
theorem parse_iff {s : Bytes} : parseFullTime s = .ok true ↔ ∃ t : FullTime, s = t.print := by
  by_cases hlen : s.length < 9
  · rw [parseFullTime, if_pos hlen]
    refine iff_of_false (by simp) ?_
    rintro ⟨t, rfl⟩
    exact absurd t.length_print (not_le.2 hlen)
  · obtain ⟨x, y, rfl, hx⟩ : ∃ x y, s = x ++ y ∧ x.length = 8 :=
      ⟨s.take 8, s.drop 8, by simp, by simp; omega⟩
    match x, y, hx with
    | [a, b, c, d, e, f, g, h], [], _ => exact absurd (by simp) hlen
    | [a, b, c, d, e, f, g, h], i :: r, _ =>
      set s := [a, b, c, d, e, f, g, h] ++ i :: r with hs
      have hexists := exists_iff (r := i :: r) (rfl : [a, b].length = 2) (rfl : [d, e].length = 2)
        (rfl : [g, h].length = 2)
      have hhour : digitsAt s 0 2 = .ok ([a, b].all isDigit) := digitsAt_eq (by simp [hs])
      have hminute : digitsAt s 3 2 = .ok ([d, e].all isDigit) := digitsAt_eq (by simp [hs])
      have hsecond : digitsAt s 6 2 = .ok ([g, h].all isDigit) := digitsAt_eq (by simp [hs])
      have hhour' : twoDigits s 0 = .ok (number [a, b]) := twoDigits_eq (by simp [hs])
      have hminute' : twoDigits s 3 = .ok (number [d, e]) := twoDigits_eq (by simp [hs])
      have hsecond' : twoDigits s 6 = .ok (number [g, h]) := twoDigits_eq (by simp [hs])
      have hcolon : byte s 2 = .ok c := rfl
      have hcolon' : byte s 5 = .ok f := rfl
      have hdot : byte s 8 = .ok i := rfl
      have hfraction := fraction_iff (x := [a, b, c, d, e, f, g, h]) (q := r) (c := i) rfl
      rw [parseFullTime, hhour, hminute, hsecond, hhour', hminute', hsecond', hcolon, hcolon', hdot]
      simp only [ok_bind, ite_ok_false_iff, not_all_isDigit, ne_eq, not_not, not_lt, gt_iff_lt]
      constructor
      · rintro ⟨-, hh, rfl, hm, rfl, hs', hhour, hminute, hsecond, hrest⟩
        exact hexists.2 ⟨⟨hh, by omega⟩, ⟨hm, by omega⟩, ⟨hs', by omega⟩, hfraction.1 hrest⟩
      · rintro ⟨t, ht⟩
        have hparts := (eq_print_iff (r := i :: r) (rfl : [a, b].length = 2)
          (rfl : [d, e].length = 2) (rfl : [g, h].length = 2)).1 ht
        obtain ⟨-, rfl, -, rfl, -⟩ := hparts
        obtain ⟨⟨hh, hhour⟩, ⟨hm, hminute⟩, ⟨hs', hsecond⟩, hrest⟩ := hexists.1 ⟨t, ht⟩
        exact ⟨not_lt.1 hlen, hh, rfl, hm, rfl, hs', by omega, by omega, by omega,
          hfraction.2 hrest⟩

end FullTime

/-! ## Dates with times -/

/-- The check of `date-time` accepts a date and a time with a `T` between them. -/
theorem parseDateTime_iff {s : Bytes} : parseDateTime s = .ok true ↔
    ∃ p : FullDate × FullTime, s = p.1.print ++ chr 'T' :: p.2.print := by
  by_cases hlen : s.length < 12
  · rw [parseDateTime, if_pos hlen]
    refine iff_of_false (by simp) ?_
    rintro ⟨⟨d, t⟩, rfl⟩
    simp only [List.length_append, List.length_cons, d.length_print] at hlen
    have := t.length_print
    omega
  · obtain ⟨x, y, rfl, hx⟩ : ∃ x y, s = x ++ y ∧ x.length = 10 :=
      ⟨s.take 10, s.drop 10, by simp, by simp; omega⟩
    cases y with
    | nil => exact absurd (by simp [hx]) hlen
    | cons c y =>
      obtain ⟨b, hb, -⟩ := parseFullDate_ends x
      have hdate : ¬ (!b) = true ↔ parseFullDate x = .ok true := by
        rw [hb, Except.ok.injEq, Bool.not_eq_true', Bool.not_eq_false]
      rw [parseDateTime, if_neg hlen, byte_append hx.symm, ok_bind, window_initial hx.symm, ok_bind,
        hb, ok_bind, window_behind hx.symm rfl, ok_bind, ite_ok_false_iff, ite_ok_false_iff, hdate,
        FullDate.parse_iff, FullTime.parse_iff, ne_eq, not_not]
      constructor
      · rintro ⟨rfl, ⟨d, rfl⟩, t, rfl⟩
        exact ⟨(d, t), rfl⟩
      · rintro ⟨⟨d, t⟩, h⟩
        obtain ⟨hd, h⟩ := List.append_inj h (by rw [hx, d.length_print])
        obtain ⟨hc, ht⟩ := List.cons.inj h
        exact ⟨hc, ⟨d, hd⟩, t, ht⟩

/-- **Timestamps.** The three formats accept what is written down for dates of the Gregorian
calendar with a year of four digits, for times of day with an offset, and for both with a `T`
between them, and each accepted string is the form of one of these only. -/
theorem timestamps_exact (s : Bytes) :
    (parseFullDate s = .ok true ↔ ∃! d : FullDate, s = d.print) ∧
      (parseFullTime s = .ok true ↔ ∃! t : FullTime, s = t.print) ∧
        (parseDateTime s = .ok true ↔
          ∃! p : FullDate × FullTime, s = p.1.print ++ chr 'T' :: p.2.print) := by
  refine ⟨FullDate.parse_iff.trans ⟨?_, ExistsUnique.exists⟩,
    FullTime.parse_iff.trans ⟨?_, ExistsUnique.exists⟩,
    parseDateTime_iff.trans ⟨?_, ExistsUnique.exists⟩⟩
  · rintro ⟨d, rfl⟩
    exact ⟨d, rfl, fun d' h => FullDate.print_injective h.symm⟩
  · rintro ⟨t, rfl⟩
    exact ⟨t, rfl, fun t' h => FullTime.print_injective h.symm⟩
  · rintro ⟨⟨d, t⟩, rfl⟩
    refine ⟨(d, t), rfl, ?_⟩
    rintro ⟨d', t'⟩ h
    obtain ⟨hd, h⟩ := List.append_inj h (by rw [d.length_print, d'.length_print])
    have ht := (List.cons.inj h).2
    exact Prod.ext (FullDate.print_injective hd.symm) (FullTime.print_injective ht.symm)

example : parseFullDate (str "1900-02-29") = .ok false := by decide

example : parseDateTime (str "2000-02-29T23:59:60.5-00:30") = .ok true := by decide

end FastJsonSchema.Formats
