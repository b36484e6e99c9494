import Trellis.Literal.Basic
import Trellis.TypeLiteral

/-!
Types and values as they are written.

The grammar reads a type or a value in the form that it is written in. Only then is it taken for a
type literal or a literal: the mark behind a type becomes part of the type, and a whole number takes
the smallest kind that holds it.
-/

namespace Trellis.Document

/-- A type as it is written. The mark that excludes null is wrapped around what it stands behind. -/
inductive WrittenType where
  | named (name : String)
  | list (inner : WrittenType)
  | nonNull (inner : WrittenType)
deriving DecidableEq, Repr

namespace WrittenType

/-- The type literal for a written type. A second mark says no more than the first. -/
def literal : WrittenType → TypeLiteral
  | .named name => .named name false
  | .list inner => .list inner.literal false
  | .nonNull inner =>
    match inner.literal with
    | .named name _ => .named name true
    | .list contents _ => .list contents true

end WrittenType

/-- A value as it is written. The fields of an object are sorted, with one value for each key. -/
inductive WrittenValue where
  | null
  | boolean (b : Bool)
  | int (n : Int64)
  | float (x : Float)
  | string (s : String)
  | enum (name : String)
  | reference (variableName : String)
  | list (items : List WrittenValue)
  | object (fields : List (String × WrittenValue))

namespace WrittenValue

mutual

/-- The literal for a written value. -/
def literal : WrittenValue → Literal
  | .null => .null
  | .boolean b => .scalar (.boolean b)
  | .int n => .scalar (.ofInt64 n)
  | .float x => .scalar (.float x)
  | .string s => .scalar (.string s)
  | .enum name => .enum name
  | .reference name => .reference name
  | .list items => .list (literalItems items)
  | .object fields => .object (literalFields fields)

def literalItems : List WrittenValue → List Literal
  | [] => []
  | item :: items => literal item :: literalItems items

def literalFields : List (String × WrittenValue) → List (String × Literal)
  | [] => []
  | (key, value) :: fields => (key, literal value) :: literalFields fields

end

theorem literalItems_eq_map (items : List WrittenValue) : literalItems items = items.map literal := by
  induction items with
  | nil => rw [literalItems, List.map_nil]
  | cons item items ih => rw [literalItems, List.map_cons, ih]

theorem literalFields_eq_map (fields : List (String × WrittenValue)) :
    literalFields fields = fields.map fun field => (field.1, field.2.literal) := by
  induction fields with
  | nil => rw [literalFields, List.map_nil]
  | cons field fields ih => rw [literalFields, List.map_cons, ih]

end WrittenValue

end Trellis.Document
