import Trellis.Scalar.Json
import Trellis.Value.Basic

/-!
Response values as JSON. The order of fields is kept.
-/

namespace Trellis.Value

mutual

def toJson : Value → Json
  | .null => .null
  | .scalar s => s.toJson
  | .list items => .array (itemsToJson items)
  | .object fields => .object (fieldsToJson fields)

def itemsToJson : List Value → List Json
  | [] => []
  | item :: items => toJson item :: itemsToJson items

def fieldsToJson : List (String × Value) → List (String × Json)
  | [] => []
  | (key, value) :: fields => (key, toJson value) :: fieldsToJson fields

end

end Trellis.Value
