/-!
Shortest decimal text of a binary64 number.

A positive finite number is `significand * 2 ^ exponent`. The reals that round to it form an
interval around it, and `Binary.shortest` looks for the decimal with the fewest digits in that
interval: on the grid of `n`-digit decimals only the two neighbours of the number can lie inside,
so the first `n` with a hit gives the digits, and of two hits the nearer one is taken. Where two
hits are equally near, a `Tie` decides.
-/

namespace Trellis.Decimal

/-- The positive number `significand * 2 ^ exponent`. -/
structure Binary where
  significand : Nat
  exponent : Int
deriving DecidableEq, Repr

/-- The number `digits * 10 ^ exponent`. -/
structure Digits where
  digits : Nat
  exponent : Int
deriving DecidableEq, Repr

/-- Which of two equally near neighbours on a grid is taken. -/
inductive Tie where
  | even
  | up
deriving DecidableEq, Repr

/-- What a binary64 pattern stands for. -/
inductive Reading where
  | notANumber
  | infinite (negative : Bool)
  | zero (negative : Bool)
  | finite (negative : Bool) (magnitude : Binary)
deriving DecidableEq, Repr

/-- The leading bit of a significand, which a pattern leaves out. -/
def leadingBit : Nat := Nat.pow 2 52

/-- Splits the pattern into sign, eleven bits of exponent and 52 bits of fraction. -/
def Reading.ofBits (bits : UInt64) : Reading :=
  let pattern := bits.toNat
  let negative := pattern.testBit 63
  let scale : Nat := pattern / leadingBit % 2048
  let fraction : Nat := pattern % leadingBit
  if scale = 2047 then
    if fraction = 0 then .infinite negative else .notANumber
  else if scale = 0 then
    if fraction = 0 then .zero negative else .finite negative ⟨fraction, -1074⟩
  else .finite negative ⟨leadingBit + fraction, (scale : Int) - 1075⟩

/-- Number of decimal digits of a natural number, one for zero. -/
def digitCount (n : Nat) : Nat := (Nat.toDigits 10 n).length

/-- The quotient of two powers with the sign of the exponent moved into the right factor:
`base ^ e = (power base e).1 / (power base e).2`. -/
def power (base : Nat) (e : Int) : Nat × Nat :=
  if 0 ≤ e then (base.pow e.toNat, 1) else (1, base.pow (-e).toNat)

namespace Binary

/-- The interval of reals that round to a number, in quarters of its last binary place. -/
structure Interval where
  low : Nat
  middle : Nat
  high : Nat
  closed : Bool
deriving DecidableEq, Repr

/-- Below a power of two the neighbour is half as far away, except at the smallest exponent. The
ends round to the number exactly when its significand is even. -/
def interval (b : Binary) : Interval :=
  let middle := 4 * b.significand
  let low := if b.significand = leadingBit ∧ b.exponent ≠ -1074 then middle - 1 else middle - 2
  ⟨low, middle, middle + 2, b.significand % 2 == 0⟩

/-- Decimal exponent of the leading digit. -/
def magnitude (b : Binary) : Int :=
  let (num, den) := power 2 b.exponent
  let num := b.significand * num
  if den ≤ num then (digitCount (num / den) : Int) - 1
  else -(digitCount ((den + num - 1) / num - 1) : Int)

/-- Whether `candidate / denominator` lies in the interval scaled by `factor`. -/
def Interval.holds (i : Interval) (factor denominator candidate : Nat) : Bool :=
  let low := i.low * factor
  let high := i.high * factor
  let c := candidate * denominator
  if i.closed then low ≤ c && c ≤ high else low < c && c < high

/-- The point of the grid of `10 ^ exponent` that lies in the interval of `b` and is nearest to
`b`. -/
def onGrid (b : Binary) (tie : Tie) (exponent : Int) : Option Digits :=
  let i := b.interval
  let (twoUp, twoDown) := power 2 (b.exponent - 2)
  let (tenUp, tenDown) := power 10 (-exponent)
  let factor := twoUp * tenUp
  let denominator := twoDown * tenDown
  let middle := i.middle * factor
  let below := middle / denominator
  let hit := i.holds factor denominator
  let rest := 2 * (middle % denominator)
  let nearest :=
    if rest < denominator then below
    else if denominator < rest then below + 1
    else match tie with
      | .even => if below % 2 = 0 then below else below + 1
      | .up => below + 1
  let other := if nearest = below then below + 1 else below
  if hit nearest then some ⟨nearest, exponent⟩
  else if hit other then some ⟨other, exponent⟩
  else none

/-- The decimal with the fewest digits that rounds to `b`. Seventeen digits always suffice. -/
def shortest (b : Binary) (tie : Tie) : Digits :=
  let leading := b.magnitude
  ((List.range 17).findSome? fun n : Nat => b.onGrid tie (leading - n)).getD ⟨b.significand, 0⟩

end Binary

/-- The same number with no trailing zero among its digits. -/
def Digits.trim (d : Digits) : Digits := go d (digitCount d.digits)
where
  go (d : Digits) : Nat → Digits
    | 0 => d
    | n + 1 => if d.digits ≠ 0 ∧ d.digits % 10 = 0 then go ⟨d.digits / 10, d.exponent + 1⟩ n else d

example : (Binary.mk 1 (-1074)).shortest .even = ⟨5, -324⟩ := by decide +kernel
example : (Binary.mk (leadingBit + leadingBit / 2) (-52)).shortest .even = ⟨15, -1⟩ := by
  decide +kernel
example : (Binary.mk leadingBit (-77)).shortest .even = ⟨29802322387695312, -24⟩ := by
  decide +kernel
example : (Binary.mk leadingBit (-77)).shortest .up = ⟨29802322387695313, -24⟩ := by
  decide +kernel

end Trellis.Decimal
