import Trellis.Value.Basic

/-!
Slots for the parts of a response value. The parts may arrive in any order; every one goes to the
slot of its index, so the order of arrival is forgotten.
-/

namespace Trellis

structure Slots where
  values : Array (Option Value)

namespace Slots

def ofSize (n : Nat) : Slots := ⟨Array.replicate n none⟩

/-- Puts a value into the slot with an index. -/
def fill (s : Slots) (index : Nat) (value : Value) : Slots :=
  ⟨s.values.setIfInBounds index (some value)⟩

/-- The values in the order of the slots; an empty slot holds null. -/
def toList (s : Slots) : List Value := s.values.toList.map (·.getD .null)

/-- The object with the given keys in the order of the slots. -/
def toObject (s : Slots) (keys : List String) : Object := Object.ofFields (keys.zip s.toList)

end Slots

end Trellis
