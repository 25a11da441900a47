import FastJsonSchema.Formats.Utf8

/-!
# Dates and times

`parse_full_date` of `formats/date.c`, `parse_full_time` of `formats/time.c` and the check of
`formats/date_time.c`.
-/

namespace FastJsonSchema.Formats

open Ruby Scan

/-- The digits of a number of a fixed width are all there. -/
def digitsAt (s : Bytes) (i : ℕ) : ℕ → Result Bool
  | 0 => .ok true
  | n + 1 => do if isDigit (← byte s i) then digitsAt s (i + 1) n else .ok false

/-- `s[i] - '0'` -/
def digitAt (s : Bytes) (i : ℕ) : Result ℕ := do .ok ((← byte s i).toNat - (chr '0').toNat)

/-- `(s[i] - '0') * 10 + (s[i + 1] - '0')` -/
def twoDigits (s : Bytes) (i : ℕ) : Result ℕ := do
  .ok ((← digitAt s i) * 10 + (← digitAt s (i + 1)))

/-- `is_leap_year` -/
def isLeapYear (year : ℕ) : Bool := year % 4 == 0 && year % 100 != 0 || year % 400 == 0

/-- `days` -/
def days : List ℕ := [31, 28, 31, 30, 31, 30, 31, 31, 30, 31, 30, 31]

/-- `days_in_month` -/
def daysInMonth (year month : ℕ) : ℕ :=
  if month = 2 ∧ isLeapYear year then 29 else (days[month - 1]?).getD 0

/-- `parse_full_date` -/
def parseFullDate (s : Bytes) : Result Bool := do
  if s.length ≠ 10 then .ok false else
  if !(← digitsAt s 0 4) then .ok false else
  if (← byte s 4) ≠ chr '-' then .ok false else
  if !(← digitsAt s 5 2) then .ok false else
  if (← byte s 7) ≠ chr '-' then .ok false else
  if !(← digitsAt s 8 2) then .ok false else
  let year := (← digitAt s 0) * 1000 + (← digitAt s 1) * 100 + (← digitAt s 2) * 10 +
    (← digitAt s 3)
  let month ← twoDigits s 5
  let day ← twoDigits s 8
  if month < 1 ∨ month > 12 then .ok false else
  if day < 1 ∨ day > daysInMonth year month then .ok false else
  .ok true

/-- `parse_full_time`, after the fraction: the offset at `pos`. -/
def offsetAt (s : Bytes) (pos : ℕ) : Result Bool := do
  if pos ≥ s.length then .ok false else
  let c ← byte s pos
  if c = chr 'Z' then .ok (pos == s.length - 1) else
  if c ≠ chr '+' ∧ c ≠ chr '-' then .ok false else
  if s.length - pos ≠ 6 then .ok false else
  if !(← digitsAt s (pos + 1) 2) then .ok false else
  if (← byte s (pos + 3)) ≠ chr ':' then .ok false else
  if !(← digitsAt s (pos + 4) 2) then .ok false else
  let offsetHour ← twoDigits s (pos + 1)
  let offsetMinute ← twoDigits s (pos + 4)
  if offsetHour > 23 then .ok false else
  if offsetMinute > 59 then .ok false else
  .ok true

/-- `parse_full_time` -/
def parseFullTime (s : Bytes) : Result Bool := do
  if s.length < 9 then .ok false else
  if !(← digitsAt s 0 2) then .ok false else
  if (← byte s 2) ≠ chr ':' then .ok false else
  if !(← digitsAt s 3 2) then .ok false else
  if (← byte s 5) ≠ chr ':' then .ok false else
  if !(← digitsAt s 6 2) then .ok false else
  let hour ← twoDigits s 0
  let minute ← twoDigits s 3
  let second ← twoDigits s 6
  if hour > 23 then .ok false else
  if minute > 59 then .ok false else
  if second > 60 then .ok false else
  if (← byte s 8) = chr '.' then
    let pos ← skipWhile isDigit s 9 s.length
    if pos = 9 then .ok false else offsetAt s pos
  else offsetAt s 8

/-- The check of `validate_format_date_time`. -/
def parseDateTime (s : Bytes) : Result Bool := do
  if s.length < 12 then .ok false else
  if (← byte s 10) ≠ chr 'T' then .ok false else
  if !(← parseFullDate (← window s 0 10)) then .ok false else
  parseFullTime (← window s 11 s.length)

variable {s : Bytes} {i n pos : ℕ}

theorem digitsAt_ends (h : i + n ≤ s.length) : Ends (digitsAt s i n) fun _ => True := by
  induction n generalizing i with
  | zero => exact .ok trivial
  | succ n ih =>
    refine (byte_ends (by omega)).bind fun c _ => ?_
    exact .ite (fun _ => ih (by omega)) fun _ => .ok trivial

theorem digitAt_ends (h : i < s.length) : Ends (digitAt s i) fun _ => True :=
  (byte_ends h).bind fun _ _ => .ok trivial

theorem twoDigits_ends (h : i + 1 < s.length) : Ends (twoDigits s i) fun _ => True :=
  (digitAt_ends (by omega)).bind fun _ _ => (digitAt_ends h).bind fun _ _ => .ok trivial

theorem parseFullDate_ends (s : Bytes) : Ends (parseFullDate s) fun _ => True := by
  refine .ite (fun _ => .ok trivial) fun hlen => ?_
  have hlen : s.length = 10 := not_not.1 hlen
  refine (digitsAt_ends (by omega)).bind fun _ _ => .ite (fun _ => .ok trivial) fun _ => ?_
  refine (byte_ends (by omega)).bind fun _ _ => .ite (fun _ => .ok trivial) fun _ => ?_
  refine (digitsAt_ends (by omega)).bind fun _ _ => .ite (fun _ => .ok trivial) fun _ => ?_
  refine (byte_ends (by omega)).bind fun _ _ => .ite (fun _ => .ok trivial) fun _ => ?_
  refine (digitsAt_ends (by omega)).bind fun _ _ => .ite (fun _ => .ok trivial) fun _ => ?_
  refine (digitAt_ends (by omega)).bind fun _ _ => (digitAt_ends (by omega)).bind fun _ _ => ?_
  refine (digitAt_ends (by omega)).bind fun _ _ => (digitAt_ends (by omega)).bind fun _ _ => ?_
  refine (twoDigits_ends (by omega)).bind fun _ _ => (twoDigits_ends (by omega)).bind fun _ _ => ?_
  refine .ite (fun _ => .ok trivial) fun _ => ?_
  exact .ite (fun _ => .ok trivial) fun _ => .ok trivial

theorem offsetAt_ends (s : Bytes) (pos : ℕ) : Ends (offsetAt s pos) fun _ => True := by
  refine .ite (fun _ => .ok trivial) fun hpos => ?_
  refine (byte_ends (by omega)).bind fun c _ => .ite (fun _ => .ok trivial) fun _ => ?_
  refine .ite (fun _ => .ok trivial) fun _ => .ite (fun _ => .ok trivial) fun hsix => ?_
  have hlen : s.length = pos + 6 := by omega
  refine (digitsAt_ends (by omega)).bind fun _ _ => .ite (fun _ => .ok trivial) fun _ => ?_
  refine (byte_ends (by omega)).bind fun _ _ => .ite (fun _ => .ok trivial) fun _ => ?_
  refine (digitsAt_ends (by omega)).bind fun _ _ => .ite (fun _ => .ok trivial) fun _ => ?_
  refine (twoDigits_ends (by omega)).bind fun _ _ => (twoDigits_ends (by omega)).bind fun _ _ => ?_
  refine .ite (fun _ => .ok trivial) fun _ => ?_
  exact .ite (fun _ => .ok trivial) fun _ => .ok trivial

theorem parseFullTime_ends (s : Bytes) : Ends (parseFullTime s) fun _ => True := by
  refine .ite (fun _ => .ok trivial) fun hlen => ?_
  refine (digitsAt_ends (by omega)).bind fun _ _ => .ite (fun _ => .ok trivial) fun _ => ?_
  refine (byte_ends (by omega)).bind fun _ _ => .ite (fun _ => .ok trivial) fun _ => ?_
  refine (digitsAt_ends (by omega)).bind fun _ _ => .ite (fun _ => .ok trivial) fun _ => ?_
  refine (byte_ends (by omega)).bind fun _ _ => .ite (fun _ => .ok trivial) fun _ => ?_
  refine (digitsAt_ends (by omega)).bind fun _ _ => .ite (fun _ => .ok trivial) fun _ => ?_
  refine (twoDigits_ends (by omega)).bind fun _ _ => (twoDigits_ends (by omega)).bind fun _ _ => ?_
  refine (twoDigits_ends (by omega)).bind fun _ _ => .ite (fun _ => .ok trivial) fun _ => ?_
  refine .ite (fun _ => .ok trivial) fun _ => .ite (fun _ => .ok trivial) fun _ => ?_
  refine (byte_ends (by omega)).bind fun c _ => .ite (fun _ => ?_) fun _ => offsetAt_ends s 8
  refine (skipWhile_ends (by omega) le_rfl).bind fun pos _ => ?_
  exact .ite (fun _ => .ok trivial) fun _ => offsetAt_ends s pos

theorem parseDateTime_ends (s : Bytes) : Ends (parseDateTime s) fun _ => True := by
  refine .ite (fun _ => .ok trivial) fun hlen => ?_
  refine (byte_ends (by omega)).bind fun c _ => .ite (fun _ => .ok trivial) fun _ => ?_
  rw [window_eq (Nat.zero_le _) (by omega), window_eq (by omega) le_rfl]
  refine (parseFullDate_ends _).bind fun _ _ => .ite (fun _ => .ok trivial) fun _ => ?_
  exact parseFullTime_ends _

end FastJsonSchema.Formats
