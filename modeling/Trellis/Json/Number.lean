import Trellis.Json.Basic
import Trellis.Text.Escape
import Trellis.Text.Number

/-!
Numbers in JSON values.

A whole number has to fit its width; one of 64 bits may also be written as a string of decimal
digits. A float may be written as a number or by its bits, which a number of JSON cannot always
tell.
-/

namespace Trellis.Json

/-- The float with sixteen hexadecimal digits of bits, or the one that is not a number. -/
def floatOfBits? (text : String) : Option Float :=
  if text = "nan" then some (0.0 / 0.0)
  else if text.length = 16 then
    (Text.hex? text.toList).map fun n => Float.ofBits n.toUInt64
  else none

def int32? : Json → Option Int32
  | .integer n => Width.int32? n
  | _ => none

def int64? : Json → Option Int64
  | .integer n => Width.int64? n
  | .string s => Text.int64? s.toList
  | _ => none

def float? : Json → Option Float
  | .integer n => some (if n < 0 then -(n.natAbs.toFloat) else n.natAbs.toFloat)
  | .real x => some x
  | .string s => floatOfBits? s
  | _ => none

end Trellis.Json
