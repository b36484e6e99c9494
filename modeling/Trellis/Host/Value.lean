import Trellis.Host.Type

/-!
Values of the host program, and what resolvers hand out.

A host value does not carry its type; an `Output` tags every single value with the host type it was
handed out as, and that tag alone decides what the value may be taken for.
-/

namespace Trellis

mutual

inductive HostValue where
  | text (s : String)
  | int (n : Int32)
  | long (n : Int64)
  | float (x : Float)
  | boolean (b : Bool)
  | variant (name : String)
  | record (fields : List (String × HostValue))
  | absent
  | present (value : HostValue)
  | sequence (items : List HostValue)
  | member (output : Output)
  | nothing

inductive Output where
  | null
  | single (host : HostType) (value : HostValue)
  | list (items : List Output)

end

/-- One value together with its type. -/
structure Erased where
  host : HostType
  value : HostValue

/-- The value, if it is of the given type. -/
def Erased.downcast? (e : Erased) (host : HostType) : Option HostValue :=
  if e.host = host then some e.value else none

namespace HostValue

instance : Inhabited HostValue := ⟨.nothing⟩

/-- A field of a record; other values have none. -/
def field : HostValue → String → HostValue
  | .record fields, name => (fields.lookup name).getD .nothing
  | _, _ => .nothing

end HostValue

namespace Output

instance : Inhabited Output := ⟨.null⟩

def isNull : Output → Bool
  | .null => true
  | _ => false

def host? : Output → Option HostType
  | .single host _ => some host
  | _ => none

end Output

end Trellis
