import Trellis.Schema.Declaration
import Trellis.Studio.Types
import Trellis.Text.Number
import Trellis.Text.Split
import Trellis.Uuid

/-!
Custom scalars of the studio, and some whose declaration a schema refuses.
-/

namespace Trellis.Studio

/-- A literal and a number joined by a colon. -/
def idText (v : HostValue) : String :=
  match v.field "literal", v.field "numeric" with
  | .text literal, .int numeric => literal ++ ":" ++ toString numeric.toInt
  | _, _ => ""

def idValue (literal : String) (numeric : Int32) : HostValue :=
  .record [("literal", .text literal), ("numeric", .int numeric)]

/-- Splits at the first colon; what follows must be a whole number of 32 bits. -/
def readId (raw : String) : Except FieldError HostValue :=
  match Text.cut ':' raw.toList with
  | (_, none) => .error (.ofMessage s!"Missing colon in \"{raw}\"")
  | (literal, some rest) =>
    match Text.int32? rest with
    | some n => .ok (idValue (String.ofList literal) n)
    | none => .error (.ofMessage s!"Invalid number \"{String.ofList rest}\"")

/-- Temperatures do not go below absolute zero. -/
def readCelsius (n : Int32) : Except FieldError HostValue :=
  if n < -273 then .error (.ofMessage s!"below absolute zero: {n.toInt}") else .ok (.int n)

def readStamp (n : Int64) : Except FieldError HostValue :=
  if n < 0 then .error ⟨"negative stamp", .scalar (.long n)⟩ else .ok (.long n)

def readRatio (x : Float) : Except FieldError HostValue :=
  if 0 ≤ x && x ≤ 1 then .ok (.float x) else .error (.ofMessage "ratio out of range")

/-- A scalar that is never read. -/
def never {α : Type} (_ : α) : Except FieldError HostValue := .error (.ofMessage "never")

/-- A scalar with both functions, under a name of its own or that of its host type. -/
def declare (host : HostType) (raw : RawKind) (serialize : HostValue → raw.Carrier)
    (deserialize : raw.Carrier → Except FieldError HostValue) : ScalarDeclaration :=
  ⟨host, raw, none, none, some serialize, some deserialize⟩

/-- The scalars that may be declared, by their host types. -/
def scalarDeclarations : List ScalarDeclaration :=
  [declare idScalar .string idText readId,
    declare celsius .int (fun | .int n => n | _ => 0) readCelsius,
    declare stamp .long (fun | .long n => n | _ => 0) readStamp,
    declare ratio .float (fun | .float x => x | _ => 0) readRatio,
    declare flag .boolean (fun | .boolean b => b | _ => false) (.ok <| .boolean ·),
    declare .text .string (fun | .text s => s | _ => "") (.ok <| .text ·),
    declare .int .long (fun | .int n => n.toInt64 | _ => 0) never,
    declare actor .string (fun v => match v.field "name" with | .text s => s | _ => "") never]

/-- The scalar of a host type. -/
def scalarDeclaration? (host : HostType) : Option ScalarDeclaration :=
  scalarDeclarations.find? (·.host = host)

def uuidDeclaration : ScalarDeclaration :=
  ⟨Uuid.host, .string, some "UUID", none, some Uuid.serialize, some Uuid.deserialize⟩

end Trellis.Studio
