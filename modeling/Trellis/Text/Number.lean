import Trellis.Decimal.Nearest
import Trellis.Width

/-!
Whole numbers as text. A sign is optional, blanks and separators are not accepted, and a number
outside the asked range is refused.
-/

namespace Trellis.Text

/-- The value of a non-empty run of decimal digits. -/
def digits? (text : List Char) : Option Nat :=
  if text ≠ [] ∧ text.all fun c => (Decimal.digitValue? c).isSome then
    some (Decimal.digitsValue text)
  else none

/-- A natural number that fits 64 bits, with an optional plus sign. -/
def word? (text : List Char) : Option Nat := do
  let n ← match text with
    | '+' :: rest => digits? rest
    | rest => digits? rest
  if n < UInt64.size then some n else none

/-- The decimal digits of a number have its value. -/
theorem digits?_toDigits (n : Nat) : digits? (Nat.toDigits 10 n) = some n := by
  have hdigit : ∀ c ∈ Nat.toDigits 10 n, Decimal.digitValue? c = some (c.toNat - '0'.toNat) := by
    intro c hc
    have hc := Nat.isDigit_of_mem_toDigits (by decide) (by decide) hc
    simp only [Char.isDigit, Bool.and_eq_true, decide_eq_true_eq] at hc
    exact if_pos hc
  have hvalue (m : Nat) : ∀ digits : List Char,
      (∀ c ∈ digits, Decimal.digitValue? c = some (c.toNat - '0'.toNat)) →
        digits.foldl (fun n c => 10 * n + (Decimal.digitValue? c).getD 0) m =
          Nat.ofDigitChars 10 digits m := by
    intro digits
    induction digits generalizing m with
    | nil => simp
    | cons c digits ih =>
      intro h
      obtain ⟨hc, hdigits⟩ := List.forall_mem_cons.mp h
      rw [List.foldl_cons, ih _ hdigits, Nat.ofDigitChars_cons, hc, Option.getD_some]
  rw [digits?, if_pos ⟨Nat.toDigits_ne_nil, List.all_eq_true.mpr fun c hc => by simp [hdigit c hc]⟩,
    Decimal.digitsValue, hvalue 0 _ hdigit, Nat.ofDigitChars_ten_toDigits]

theorem word?_toDigits (n : Nat) :
    word? (Nat.toDigits 10 n) = if n < UInt64.size then some n else none := by
  have hsign : ∀ rest, Nat.toDigits 10 n ≠ '+' :: rest := by
    intro rest h
    have hplus : '+' ∈ Nat.toDigits 10 n := by simp [h]
    simpa using Nat.isDigit_of_mem_toDigits (by decide) (by decide) hplus
  rw [word?, digits?_toDigits, Option.bind_eq_bind, Option.bind_some]
  exact hsign

def integer? (text : List Char) : Option Int :=
  match text with
  | '+' :: rest => (digits? rest).map fun n => (n : Int)
  | '-' :: rest => (digits? rest).map fun n => -(n : Int)
  | rest => (digits? rest).map fun n => (n : Int)

def int32? (text : List Char) : Option Int32 := (integer? text).bind Width.int32?

def int64? (text : List Char) : Option Int64 := (integer? text).bind Width.int64?

end Trellis.Text
