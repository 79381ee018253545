import Decompiler.Decimal.Shortest

/-!
# Printed numbers

How floating-point constants and spans of time are written.
-/

namespace Decompiler

namespace Decimal

/-- The decimal in plain notation, with at least one digit on each side of the point. -/
def positional (d : Decimal) : String :=
  if d.exponent < 0 then
    "0." ++ String.ofList (List.replicate ((-d.exponent).toNat - 1) '0' ++ d.digits)
  else
    let whole := d.digits.take (d.exponent.toNat + 1)
    let zeros := List.replicate (d.exponent.toNat + 1 - whole.length) '0'
    let rest := d.digits.drop (d.exponent.toNat + 1)
    String.ofList (whole ++ zeros) ++ "." ++ (if rest = [] then "0" else String.ofList rest)

/-- The decimal in scientific notation, with a point only when more than one digit is written. -/
def scientific (d : Decimal) : String :=
  let mantissa := match d.digits with
    | first :: second :: rest => String.ofList (first :: '.' :: second :: rest)
    | digits => String.ofList digits
  mantissa ++ "e" ++ toString d.exponent

/-- Numbers from `10 ^ -4` up to below `10 ^ 16` are written in plain notation. -/
def text (d : Decimal) : String :=
  if -4 ≤ d.exponent ∧ d.exponent < 16 then d.positional else d.scientific

end Decimal

/-- The printed form of a floating-point number. -/
def Ieee.text (x : Ieee) : String :=
  if x.isNaN then "NaN"
  else
    let sign := if x.isNegative then "-" else ""
    if x.magnitude = infinity then sign ++ "inf"
    else if x.magnitude = 0 then sign ++ "0.0"
    else sign ++ x.rounding.shortest.text

/-- The printed form of a span of milliseconds: in seconds from one second on, with as many decimals
as it takes, and without a prefix only when nothing has passed. -/
def millisText (ms : Nat) : String :=
  if ms = 0 then "0ns"
  else if ms < 1000 then toString ms ++ "ms"
  else
    let decimals := (Nat.toDigits 10 (1000 + ms % 1000)).drop 1
    let kept := (decimals.reverse.dropWhile (· = '0')).reverse
    toString (ms / 1000) ++ (if kept = [] then "" else "." ++ String.ofList kept) ++ "s"

end Decompiler
