import Trellis.Literal.Basic
import Trellis.Scalar.Json

/-!
Literals as JSON.

Writing loses what JSON lacks: a variable becomes null, an enum value a string, and a repeated key
is written once, at its first place with its last value. Reading accepts every JSON value; a whole
number that does not fit 64 signed bits becomes a float.
-/

namespace Trellis.Literal

mutual

def toJson : Literal → Json
  | .null => .null
  | .reference _ => .null
  | .scalar s => s.toJson
  | .enum name => .string name
  | .list items => .array (itemsToJson items)
  | .object fields => .object (Entries.ofPairs (fieldsToJson fields))

def itemsToJson : List Literal → List Json
  | [] => []
  | item :: items => toJson item :: itemsToJson items

def fieldsToJson : List (String × Literal) → List (String × Json)
  | [] => []
  | (key, value) :: fields => (key, toJson value) :: fieldsToJson fields

end

mutual

def ofJson : Json → Literal
  | .null => .null
  | .boolean b => .scalar (.boolean b)
  | .integer n =>
    match Width.int64? n with
    | some m => .scalar (.ofInt64 m)
    | none => .scalar (.float n.toNat.toUInt64.toFloat)
  | .real x => .scalar (.float x)
  | .string s => .string s
  | .array items => .list (itemsOfJson items)
  | .object entries => .object (Entries.ofPairs (fieldsOfJson entries))

def itemsOfJson : List Json → List Literal
  | [] => []
  | item :: items => ofJson item :: itemsOfJson items

def fieldsOfJson : List (String × Json) → List (String × Literal)
  | [] => []
  | (key, value) :: entries => (key, ofJson value) :: fieldsOfJson entries

end

/-- The values of variables from a JSON object. -/
def variablesOfJson : Json → Except Json.Refusal Variables
  | .object entries => .ok (Variables.ofPairs (fieldsOfJson entries))
  | j => .error (.unexpected j.kindText "a map")

def variablesOfJsonText (text : String) : Except Json.Refusal Variables :=
  Json.readAs ['['] "a map" variablesOfJson text

end Trellis.Literal
