import Decompiler.Expr

/-!
# Shortest decimals

The decimal that is written for a floating-point number has the fewest digits that still read back
as the same number; among those it is the nearest, and of two equally near the greater.

A positive number is `m * 2 ^ q`. The reals that read back as it form an interval around it, which
has its ends exactly when `m` is even. For 1, 2, … 17 digits the two neighbours of the number on the
grid of decimals with so many digits are tried, in exact arithmetic.
-/

namespace Decompiler

/-- A positive fraction. -/
structure Fraction where
  /-- The numerator. -/
  num : Nat
  /-- The denominator. -/
  den : Nat

namespace Fraction

/-- The fraction `n * base ^ exponent`. -/
def scaled (n base : Nat) (exponent : Int) : Fraction :=
  ⟨n * Nat.pow base exponent.toNat, Nat.pow base (-exponent).toNat⟩

/-- Whether `a` is at most `b`. -/
def le (a b : Fraction) : Bool := a.num * b.den ≤ b.num * a.den

/-- Whether `a` is below `b`. -/
def lt (a b : Fraction) : Bool := !b.le a

/-- The greatest number of whole units `10 ^ exponent` in a fraction. -/
def units (a : Fraction) (exponent : Int) : Nat :=
  let unit := scaled 1 10 exponent
  (a.num * unit.den) / (a.den * unit.num)

/-- The exponent of the first decimal digit of a positive fraction. -/
def decade (a : Fraction) : Int :=
  if a.den ≤ a.num then (Nat.toDigits 10 (a.num / a.den)).length - 1
  else -(Nat.toDigits 10 ((a.den - 1) / a.num)).length

end Fraction

/-- A positive decimal: its digits without zeros at the end, and the exponent of the first digit. -/
structure Decimal where
  /-- The digits, from the highest on. -/
  digits : List Char
  /-- The power of ten of the first digit. -/
  exponent : Int
  deriving DecidableEq, Repr

namespace Decimal

/-- The decimal `n * 10 ^ exponent`. -/
def ofUnits (n : Nat) (exponent : Int) : Decimal :=
  let digits := Nat.toDigits 10 n
  ⟨(digits.reverse.dropWhile (· = '0')).reverse, exponent + digits.length - 1⟩

/-- The reals that read back as `m * 2 ^ q`. Below the least `m` of a binade the next number is only
half as far away as above. -/
structure Rounding where
  /-- The lower end. -/
  low : Fraction
  /-- The number itself. -/
  value : Fraction
  /-- The upper end. -/
  high : Fraction
  /-- Whether the ends read back too. -/
  closed : Bool

/-- The reals that read back as `m * 2 ^ q`. -/
def Rounding.of (m : Nat) (q : Int) (leastOfBinade : Bool) : Rounding where
  low := .scaled (4 * m - (if leastOfBinade then 1 else 2)) 2 (q - 2)
  value := .scaled (4 * m) 2 (q - 2)
  high := .scaled (4 * m + 2) 2 (q - 2)
  closed := m % 2 = 0

/-- Whether a fraction reads back as the number. -/
def Rounding.holds (r : Rounding) (a : Fraction) : Bool :=
  if r.closed then r.low.le a && a.le r.high else r.low.lt a && a.lt r.high

/-- The decimal with `n` digits that reads back as the number, if there is one. -/
def Rounding.withDigits? (r : Rounding) (n : Nat) : Option Decimal :=
  let exponent := r.value.decade + 1 - n
  let below := r.value.units exponent
  let point (k : Nat) := Fraction.scaled k 10 exponent
  let belowIsNearer := Fraction.lt ⟨2 * r.value.num, r.value.den⟩ (point (2 * below + 1))
  match r.holds (point below), r.holds (point (below + 1)) with
  | true, true => some (ofUnits (if belowIsNearer then below else below + 1) exponent)
  | true, false => some (ofUnits below exponent)
  | false, true => some (ofUnits (below + 1) exponent)
  | false, false => none

/-- The shortest decimal that reads back as the number; 17 digits are always enough. -/
def Rounding.shortest (r : Rounding) : Decimal :=
  ((List.range 17).findSome? fun i => r.withDigits? (i + 1)).getD
    (ofUnits (r.value.units (r.value.decade - 16)) (r.value.decade - 16))

end Decimal

namespace Ieee

/-- The reals that read back as a finite number other than zero, its sign aside. -/
def rounding (x : Ieee) : Decimal.Rounding :=
  let exponent : Nat := x.magnitude / 0x10000000000000
  let fraction : Nat := x.magnitude % 0x10000000000000
  if exponent = 0 then .of fraction (-1074) false
  else .of (0x10000000000000 + fraction) ((exponent : Int) - 1075) (fraction = 0 && exponent > 1)

end Ieee

end Decompiler
