import Trellis.Decimal.Shortest

/-!
Ways to write a decimal number, as values of one record.

`Layout.render` writes a binary64 number with its shortest digits; where the point goes, when an
exponent is used and how the special values are spelled is decided by the `Layout`.
-/

namespace Trellis.Decimal

/-- The decisions of one number format. -/
structure Layout where
  /-- Which digits are written where two decimals with the fewest digits are equally near. -/
  tie : Tie
  /-- Whether a number whose leading digit stands for this power of ten is written without an
  exponent. -/
  positional : Int → Bool
  /-- What follows a whole number. -/
  whole : String
  notANumber : String
  infinite : String
  negativeInfinite : String

/-- The text of digits with the point after `point` of them; zeros fill the gap to the point. -/
def placePoint (digits : List Char) (point : Int) (whole : String) : List Char :=
  if point ≤ 0 then
    '0' :: '.' :: (List.replicate (-point).toNat '0' ++ digits)
  else if digits.length ≤ point.toNat then
    digits ++ List.replicate (point.toNat - digits.length) '0' ++ whole.toList
  else digits.take point.toNat ++ '.' :: digits.drop point.toNat

/-- One leading digit, the other digits after a point, and a signed exponent. -/
def withExponent (digits : List Char) (leading : Int) : List Char :=
  let mantissa := match digits with
    | [] => []
    | [d] => [d]
    | d :: rest => d :: '.' :: rest
  let sign := if leading < 0 then '-' else '+'
  mantissa ++ 'e' :: sign :: Nat.toDigits 10 leading.natAbs

/-- The text of a positive decimal. -/
def Layout.digits (layout : Layout) (d : Digits) : List Char :=
  let d := d.trim
  let digits := Nat.toDigits 10 d.digits
  let leading := d.exponent + digits.length - 1
  if layout.positional leading then placePoint digits (leading + 1) layout.whole
  else withExponent digits leading

/-- The text of a binary64 pattern. -/
def Layout.renderBits (layout : Layout) (bits : UInt64) : String :=
  let signed (negative : Bool) (text : List Char) : String :=
    String.ofList (if negative then '-' :: text else text)
  match Reading.ofBits bits with
  | .notANumber => layout.notANumber
  | .infinite negative => if negative then layout.negativeInfinite else layout.infinite
  | .zero negative => signed negative ('0' :: layout.whole.toList)
  | .finite negative b => signed negative (layout.digits (b.shortest layout.tie))

/-- The text of a binary64 number. -/
def Layout.render (layout : Layout) (x : Float) : String := layout.renderBits x.toBits

end Trellis.Decimal
