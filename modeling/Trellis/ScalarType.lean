import Trellis.FieldError
import Trellis.Host.Value

/-!
Scalar types.

A scalar type pairs a host type with two functions: one writes a host value as a raw scalar, the
other reads a host value from one. The raw scalars of one type are all of one kind; reading accepts
every scalar that can be viewed as that kind.
-/

namespace Trellis

/-- Kinds of raw scalars. -/
inductive RawKind where
  | string
  | int
  | long
  | float
  | boolean
deriving DecidableEq, Repr

namespace RawKind

def name : RawKind → String
  | .string => "String"
  | .int => "Int"
  | .long => "Long"
  | .float => "Float"
  | .boolean => "Boolean"

/-- Raw values of a kind. -/
abbrev Carrier : RawKind → Type
  | .string => String
  | .int => Int32
  | .long => Int64
  | .float => Float
  | .boolean => Bool

/-- The host type of raw values of a kind. -/
def host : RawKind → HostType
  | .string => .text
  | .int => .int
  | .long => .long
  | .float => .float
  | .boolean => .boolean

/-- A scalar viewed as a kind. -/
def view? : (kind : RawKind) → Scalar → Option kind.Carrier
  | .string, s => s.string?
  | .int, s => s.int?
  | .long, s => s.long?
  | .float, s => s.float?
  | .boolean, s => s.boolean?

def wrap : (kind : RawKind) → kind.Carrier → Scalar
  | .string, s => .string s
  | .int, n => .int n
  | .long, n => .long n
  | .float, x => .float x
  | .boolean, b => .boolean b

theorem view?_wrap (kind : RawKind) (raw : kind.Carrier) :
    kind.view? (kind.wrap raw) = some raw := by
  cases kind <;> rfl

end RawKind

/-- The two functions between a host type and raw scalars. -/
structure Coercion where
  host : HostType
  raw : RawKind
  serialize : HostValue → raw.Carrier
  deserialize : raw.Carrier → Except FieldError HostValue

namespace Coercion

def write (c : Coercion) (e : Erased) : Except FieldError Scalar :=
  match e.downcast? c.host with
  | some v => .ok (c.raw.wrap (c.serialize v))
  | none => .error (.unexpectedType c.host.name)

def read (c : Coercion) (s : Scalar) : Except FieldError HostValue :=
  match c.raw.view? s with
  | some raw => c.deserialize raw
  | none => .error (.ofMessage s!"Expected {c.raw.name} value, found {s.text}")

/-- The two types a coercion goes between. -/
def text (c : Coercion) : String := s!"Coercion<{c.host.name}, {c.raw.host.name}>"

end Coercion

structure ScalarType where
  name : String
  description : Option String
  coercion : Coercion

namespace ScalarType

def string : ScalarType := ⟨"String", none, .text, .string,
  fun | .text s => s | _ => "", fun s => .ok (.text s)⟩

def int : ScalarType := ⟨"Int", none, .int, .int,
  fun | .int n => n | _ => 0, fun n => .ok (.int n)⟩

def long : ScalarType := ⟨"Long", none, .long, .long,
  fun | .long n => n | _ => 0, fun n => .ok (.long n)⟩

def float : ScalarType := ⟨"Float", none, .float, .float,
  fun | .float x => x | _ => 0, fun x => .ok (.float x)⟩

def boolean : ScalarType := ⟨"Boolean", none, .boolean, .boolean,
  fun | .boolean b => b | _ => false, fun b => .ok (.boolean b)⟩

/-- Identifiers, written as strings. -/
def id : ScalarType := ⟨"ID", none, .id, .string,
  fun | .text s => s | _ => "", fun s => .ok (.text s)⟩

def builtin : List ScalarType := [string, int, long, float, boolean, id]

end ScalarType

end Trellis
