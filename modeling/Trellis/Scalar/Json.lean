import Trellis.Json.Refusal
import Trellis.Scalar.Basic

/-!
Scalars as JSON.

A whole number is read in the smallest kind that holds it, and refused if it does not fit 64 signed
bits. Lists, objects and null are no scalars.
-/

namespace Trellis.Scalar

def toJson : Scalar → Json
  | .int n => .integer n.toInt
  | .long n => .integer n.toInt
  | .float x => .real x
  | .string s => .string s
  | .boolean b => .boolean b

/-- What is expected where a scalar is read. -/
def expected : String := "a valid scalar value"

def ofJson : Json → Except Json.Refusal Scalar
  | .boolean b => .ok (.boolean b)
  | .integer n =>
    match Width.int64? n with
    | some m => .ok (.ofInt64 m)
    | none => .error (.outOfRange n)
  | .real x => .ok (.float x)
  | .string s => .ok (.string s)
  | j => .error (.unexpected j.kindText expected)

def ofJsonText (text : String) : Except Json.Refusal Scalar :=
  Json.readAs ['[', '\x7b'] expected ofJson text

end Trellis.Scalar
