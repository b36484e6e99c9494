import Trellis.Entries
import Trellis.Scalar.Basic
import Trellis.Text.Split

/-!
Literals: the values written in a query or handed in as variables.

A literal may refer to variables. `Literal.resolve` puts the values of the variables in their place,
one level deep: what a variable stands for is not resolved again.
-/

namespace Trellis

inductive Literal where
  | null
  | scalar (s : Scalar)
  | enum (name : String)
  | reference (variableName : String)
  | list (items : List Literal)
  | object (fields : List (String × Literal))
deriving Inhabited

/-- Values of variables by name, without the leading dollar sign. -/
abbrev Variables := List (String × Literal)

namespace Variables

def get? (values : Variables) (name : String) : Option Literal := values.lookup name

/-- Gives a variable a value unless it has one. -/
def orElse (values : Variables) (name : String) (value : Literal) : Variables :=
  match values.get? name with
  | some _ => values
  | none => (name, value) :: values

/-- The last value given for a name counts. -/
def ofPairs (pairs : List (String × Literal)) : Variables := pairs.reverse

end Variables

namespace Literal

def string (s : String) : Literal := .scalar (.string s)

def isNull : Literal → Bool
  | .null => true
  | _ => false

def isReference : Literal → Bool
  | .reference _ => true
  | _ => false

def scalar? : Literal → Option Scalar
  | .scalar s => some s
  | _ => none

def enum? : Literal → Option String
  | .enum name => some name
  | _ => none

def string? (l : Literal) : Option String := l.scalar?.bind Scalar.string?

def list? : Literal → Option (List Literal)
  | .list items => some items
  | _ => none

/-- The fields of an object, a repeated key with its last value. -/
def object? : Literal → Option (List (String × Literal))
  | .object fields => some (Entries.ofPairs fields)
  | _ => none

mutual

/-- The literal with its variables replaced by their values; a variable without one is null. -/
def resolve (values : Variables) : Literal → Literal
  | .reference name => (values.get? name).getD .null
  | .list items => .list (resolveItems values items)
  | .object fields => .object (resolveFields values fields)
  | .null => .null
  | .scalar s => .scalar s
  | .enum name => .enum name

def resolveItems (values : Variables) : List Literal → List Literal
  | [] => []
  | item :: items => resolve values item :: resolveItems values items

def resolveFields (values : Variables) : List (String × Literal) → List (String × Literal)
  | [] => []
  | (key, value) :: fields => (key, resolve values value) :: resolveFields values fields

end

mutual

/-- Names of the variables a literal refers to, in order and with repetitions. -/
def references : Literal → List String
  | .reference name => [name]
  | .list items => referencesOfItems items
  | .object fields => referencesOfFields fields
  | _ => []

def referencesOfItems : List Literal → List String
  | [] => []
  | item :: items => references item ++ referencesOfItems items

def referencesOfFields : List (String × Literal) → List String
  | [] => []
  | (_, value) :: fields => references value ++ referencesOfFields fields

end

mutual

/-- The text of a literal in messages. -/
def text : Literal → String
  | .null => "null"
  | .scalar s => s.text
  | .enum name => name
  | .reference name => "$" ++ name
  | .list items => "[" ++ textOfItems items ++ "]"
  | .object fields => "\x7b" ++ textOfFields fields ++ "\x7d"

def textOfItems : List Literal → String
  | [] => ""
  | [item] => text item
  | item :: items => text item ++ ", " ++ textOfItems items

def textOfFields : List (String × Literal) → String
  | [] => ""
  | [(key, value)] => key ++ ": " ++ text value
  | (key, value) :: fields => key ++ ": " ++ text value ++ ", " ++ textOfFields fields

end

end Literal

end Trellis
