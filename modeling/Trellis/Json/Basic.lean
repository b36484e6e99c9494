/-!
JSON values.

Objects keep their entries in the order of the text, repeated keys included. Numbers are whole or
binary64: a whole number fits 64 bits, signed or unsigned, and every other number is a `real`.
-/

namespace Trellis

inductive Json where
  | null
  | boolean (b : Bool)
  | integer (n : Int)
  | real (x : Float)
  | string (s : String)
  | array (items : List Json)
  | object (entries : List (String × Json))
deriving Inhabited

namespace Json

/-- The value under a key, the last one if the key is repeated. -/
def field? (key : String) : Json → Option Json
  | .object entries => entries.reverse.lookup key
  | _ => none

def string? : Json → Option String
  | .string s => some s
  | _ => none

def boolean? : Json → Option Bool
  | .boolean b => some b
  | _ => none

def integer? : Json → Option Int
  | .integer n => some n
  | _ => none

def array? : Json → Option (List Json)
  | .array items => some items
  | _ => none

def entries? : Json → Option (List (String × Json))
  | .object entries => some entries
  | _ => none

end Json

end Trellis
