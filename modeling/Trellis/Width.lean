/-!
Whole numbers of a fixed width.

`int32?` and `int64?` take a whole number to the signed word with that value, and refuse a number
that no word has. They undo `toInt`, and what they accept is the range of the width.
-/

namespace Trellis.Width

/-- The word of 32 bits with a value. -/
def int32? (n : Int) : Option Int32 :=
  if (Int32.ofInt n).toInt = n then some (Int32.ofInt n) else none

/-- The word of 64 bits with a value. -/
def int64? (n : Int) : Option Int64 :=
  if (Int64.ofInt n).toInt = n then some (Int64.ofInt n) else none

theorem int32?_toInt (n : Int32) : int32? n.toInt = some n := by
  rw [int32?, Int32.ofInt_toInt, if_pos rfl]

theorem int64?_toInt (n : Int64) : int64? n.toInt = some n := by
  rw [int64?, Int64.ofInt_toInt, if_pos rfl]

theorem toInt_of_int32? {n : Int} {w : Int32} (h : int32? n = some w) : w.toInt = n := by
  rw [int32?] at h
  split at h
  · next e => rwa [Option.some.inj h] at e
  · cases h

theorem toInt_of_int64? {n : Int} {w : Int64} (h : int64? n = some w) : w.toInt = n := by
  rw [int64?] at h
  split at h
  · next e => rwa [Option.some.inj h] at e
  · cases h

theorem int32?_isSome_iff (n : Int) :
    (int32? n).isSome ↔ Int32.minValue.toInt ≤ n ∧ n ≤ Int32.maxValue.toInt := by
  constructor
  · intro h
    obtain ⟨w, hw⟩ := Option.isSome_iff_exists.1 h
    rw [← toInt_of_int32? hw]
    exact ⟨w.minValue_le_toInt, w.toInt_le⟩
  · intro ⟨low, high⟩
    have least : Int32.minValue.toInt = -2147483648 := by decide
    have greatest : Int32.maxValue.toInt = 2147483647 := by decide
    rw [int32?, if_pos (Int32.toInt_ofInt_of_le (by omega) (by omega))]
    rfl

theorem int64?_isSome_iff (n : Int) :
    (int64? n).isSome ↔ Int64.minValue.toInt ≤ n ∧ n ≤ Int64.maxValue.toInt := by
  constructor
  · intro h
    obtain ⟨w, hw⟩ := Option.isSome_iff_exists.1 h
    rw [← toInt_of_int64? hw]
    exact ⟨w.minValue_le_toInt, w.toInt_le⟩
  · intro ⟨low, high⟩
    have least : Int64.minValue.toInt = -9223372036854775808 := by decide
    have greatest : Int64.maxValue.toInt = 9223372036854775807 := by decide
    rw [int64?, if_pos (Int64.toInt_ofInt_of_le (by omega) (by omega))]
    rfl

end Trellis.Width
