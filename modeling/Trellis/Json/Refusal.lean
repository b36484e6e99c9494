import Trellis.Json.Reader
import Trellis.Json.Writer

/-!
Why a JSON text is not read as a value of some type.

A text is refused as malformed, or because its value is of another kind than expected. A list or an
object where neither is expected is refused for that as soon as it starts, no matter how it goes on.
-/

namespace Trellis.Json

inductive Refusal where
  | malformed
  | unexpected (found expected : String)
  | outOfRange (n : Int)
deriving DecidableEq, Repr

def Refusal.message : Refusal → String
  | .malformed => "malformed JSON"
  | .unexpected found expected => s!"invalid type: {found}, expected {expected}"
  | .outOfRange n => s!"integer {n} out of range"

/-- How a value that is not expected is called. -/
def kindText : Json → String
  | .null => "null"
  | .boolean b => if b then "boolean `true`" else "boolean `false`"
  | .integer n => s!"integer `{n}`"
  | .real x => s!"floating point `{numbers.render x}`"
  | .string s => s!"string {quote s}"
  | .array _ => "sequence"
  | .object _ => "map"

/-- Reads a text as a value of a type. The text is refused at its start if it begins with one of the
brackets given. -/
def readAs {α : Type} (unexpectedStarts : List Char) (expected : String)
    (ofJson : Json → Except Refusal α) (text : String) : Except Refusal α :=
  match Reader.skipBlanks text.toList with
  | '[' :: _ =>
    if '[' ∈ unexpectedStarts then .error (.unexpected "sequence" expected) else read
  | '\x7b' :: _ => if '\x7b' ∈ unexpectedStarts then .error (.unexpected "map" expected) else read
  | _ => read
where
  read : Except Refusal α :=
    match readStart? text with
    | none => .error .malformed
    | some (value, rest) => do
      let x ← ofJson value
      if Reader.skipBlanks rest = [] then .ok x else .error .malformed

end Trellis.Json
