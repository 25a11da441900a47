import Mathlib.Data.Int.Log
import Mathlib.Data.Rat.Floor

/-!
# Doubles

The C type `double`, which also is the class `Float` of Ruby, up to the sign of zero and the
payload of a NaN. Arithmetic rounds the exact result to the nearest value, ties to even.
-/

namespace Ruby

/-- A double. -/
inductive Double
  | finite (q : ℚ)
  | infinite (negative : Bool)
  | nan
  deriving DecidableEq

namespace Double

/-- The nearest integer, the even one of two. -/
def nearest (q : ℚ) : ℤ :=
  if q - ⌊q⌋ < 1 / 2 ∨ q - ⌊q⌋ = 1 / 2 ∧ ⌊q⌋ % 2 = 0 then ⌊q⌋ else ⌊q⌋ + 1

/-- The exponent of the last place of a double of the size of `q`. -/
def lastPlace (q : ℚ) : ℤ := max (Int.log 2 |q|) (-1022) - 52

/-- The double nearest to `q`. -/
def round (q : ℚ) : Double :=
  let r := nearest (q / 2 ^ lastPlace q) * (2 : ℚ) ^ lastPlace q
  if |r| < 2 ^ 1024 then .finite r else .infinite (r < 0)

/-- The conversion of an integer. -/
def ofInt (n : ℤ) : Double := round n

def div : Double → Double → Double
  | .finite a, .finite b =>
    if b ≠ 0 then round (a / b) else if a = 0 then .nan else .infinite (a < 0)
  | .finite _, .infinite _ => .finite 0
  | .infinite s, .finite b => .infinite (s != decide (b < 0))
  | _, _ => .nan

def sub : Double → Double → Double
  | .finite a, .finite b => round (a - b)
  | .finite _, .infinite s => .infinite !s
  | .infinite s, .finite _ => .infinite s
  | .infinite s, .infinite t => if s = t then .nan else .infinite s
  | _, _ => .nan

/-- The order of doubles; a NaN stands in no relation. -/
def lt : Double → Double → Bool
  | .finite a, .finite b => a < b
  | .finite _, .infinite s => !s
  | .infinite s, .finite _ => s
  | .infinite s, .infinite t => s && !t
  | _, _ => false

def eq (a b : Double) : Bool := a == b && a != .nan

def le (a b : Double) : Bool := lt a b || eq a b

/-- The integer part of a finite double, if it fits into `w` bits. -/
def toInt (w : ℕ) : Double → Option ℤ
  | .finite q =>
    let n := q.num.tdiv q.den
    if -2 ^ (w - 1) ≤ n ∧ n < 2 ^ (w - 1) then some n else none
  | _ => none

end Double

end Ruby
