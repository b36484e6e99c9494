import Trellis.Text.Number
import Trellis.Text.Split
import Trellis.Value.Basic

/-!
Addresses of nodes inside a value.

The text `getAll[5]/children[0][2]/id` names fields, separated by slashes, each with any number of
list indices. A piece between two brackets that is empty is skipped.
-/

namespace Trellis.Value

/-- Steps into the list elements that the pieces after the first bracket of a segment name. -/
def stepIndices (value : Value) : List (List Char) → Option Value
  | [] => some value
  | piece :: pieces =>
    if piece = [] then stepIndices value pieces
    else
      match piece.reverse with
      | ']' :: digits => do
        let index ← Text.word? digits.reverse
        let items ← value.list?
        let item ← items[index]?
        stepIndices item pieces
      | _ => none

/-- Steps into the field and the elements that one segment names. -/
def stepSegment (value : Value) (segment : List Char) : Option Value := do
  let (name, indices) := Text.cut '[' segment
  let fields ← value.object?
  let found ← Object.get? fields (String.ofList name)
  stepIndices found (Text.split '[' (indices.getD []))

def lookup? (value : Value) (path : String) : Option Value :=
  (Text.split '/' path.toList).foldlM stepSegment value

end Trellis.Value
