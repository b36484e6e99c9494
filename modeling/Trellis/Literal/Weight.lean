import Trellis.Literal.Basic

/-!
A measure of literals. Every element of a list and every field of an object weighs less than the
whole, and null weighs less than every object.
-/

namespace Trellis.Literal

mutual

def weight : Literal → Nat
  | .null => 0
  | .list items => 1 + weightOfItems items
  | .object fields => 1 + weightOfFields fields
  | .scalar _ | .enum _ | .reference _ => 1

def weightOfItems : List Literal → Nat
  | [] => 1
  | item :: items => 1 + weight item + weightOfItems items

def weightOfFields : List (String × Literal) → Nat
  | [] => 1
  | (_, value) :: fields => 1 + weight value + weightOfFields fields

end

theorem weight_lt_of_mem_items {item : Literal} {items : List Literal} (h : item ∈ items) :
    weight item < weightOfItems items := by
  induction items with
  | nil => cases h
  | cons first rest ih =>
    rw [weightOfItems]
    rcases List.mem_cons.1 h with rfl | h
    · omega
    · have := ih h
      omega

theorem weight_lt_of_mem {key : String} {value : Literal} {fields : List (String × Literal)}
    (h : (key, value) ∈ fields) : weight value < weightOfFields fields := by
  induction fields with
  | nil => cases h
  | cons field rest ih =>
    rw [weightOfFields]
    rcases List.mem_cons.1 h with rfl | h
    · simp only
      omega
    · have := ih h
      omega

/-- The value under a key of an object, the last one if the key is repeated. -/
def last? (fields : List (String × Literal)) (key : String) : Option Literal :=
  fields.reverse.lookup key

theorem weight_lt_of_last? {key : String} {value : Literal} {fields : List (String × Literal)}
    (h : last? fields key = some value) : weight value < weightOfFields fields :=
  weight_lt_of_mem (List.mem_reverse.1 (Entries.mem_of_lookup h))

theorem weightOfFields_pos (fields : List (String × Literal)) : 0 < weightOfFields fields := by
  cases fields <;> simp only [weightOfFields] <;> omega

end Trellis.Literal
