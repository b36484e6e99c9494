/-!
Reading decimals as binary64 numbers.

`nearest` rounds a decimal once, so it is the number closest to the text. A decimal far out of range
is answered without its power of ten.
-/

namespace Trellis.Decimal

/-- The binary64 number closest to `digits * 10 ^ exponent`; infinite when out of range. -/
def nearest (digits : Nat) (exponent : Int) : Float :=
  let leading := exponent + (Nat.toDigits 10 digits).length
  if digits = 0 || leading < -400 then 0.0
  else if 400 < leading then 1.0 / 0.0
  else Float.ofScientific digits (exponent < 0) exponent.natAbs

/-- Value of a decimal digit, if the character is one. -/
def digitValue? (c : Char) : Option Nat :=
  if '0' ≤ c ∧ c ≤ '9' then some (c.toNat - '0'.toNat) else none

/-- Value of a run of decimal digits. -/
def digitsValue (digits : List Char) : Nat :=
  digits.foldl (fun n c => 10 * n + (digitValue? c).getD 0) 0

/-- The number closest to a decimal with the given digits before and after the point. -/
def ofDigits (whole fraction : List Char) (exponent : Int) : Float :=
  nearest (digitsValue (whole ++ fraction)) (exponent - fraction.length)

end Trellis.Decimal
