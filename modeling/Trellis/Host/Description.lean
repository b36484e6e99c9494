import Trellis.Host.Value

/-!
Descriptions of host types.

A `TypeRef` says what a host type is for a schema. Objects and input objects are described by
reference: their fields stand in a `Catalogue`, so a type may refer to itself. Whether a description
is admissible is decided when a schema is built, not here.
-/

namespace Trellis

/-- Names and values of an enum. `label` names the value that a host value of the type stands
for. -/
structure EnumShape where
  name : String
  values : List String
  label : HostValue → String

/-- What a host type is. An object type names the host type of its values and the outline of its
fields. -/
inductive TypeRef where
  | scalar (host : HostType)
  | enumeration (host : HostType) (shape : EnumShape)
  | object (host outline : HostType)
  | inputObject (host outline : HostType)
  | union (host : HostType)
  | list (host : HostType) (inner : TypeRef)
  | nullable (host : HostType) (inner : TypeRef)
  | function (host : HostType)
  | generic (host : HostType)

/-- The host type described. -/
def TypeRef.host : TypeRef → HostType
  | .scalar host => host
  | .enumeration host _ => host
  | .object host _ => host
  | .inputObject host _ => host
  | .union host => host
  | .list host _ => host
  | .nullable host _ => host
  | .function host => host
  | .generic host => host

/-- Whether values are members of a union, possibly missing or in lists. -/
def TypeRef.isUnion : TypeRef → Bool
  | .union _ => true
  | .list _ inner => inner.isUnion
  | .nullable _ inner => inner.isUnion
  | _ => false

/-- A field of an object type. `read` hands out the field of a host value of that type. -/
structure ObjectField where
  name : String
  type : TypeRef
  read : HostValue → Output

structure ObjectOutline where
  name : String
  fields : List ObjectField

structure InputField where
  name : String
  type : TypeRef

structure InputOutline where
  name : String
  fields : List InputField

/-- Outlines by the host type that shows them. -/
structure Catalogue where
  objects : List (HostType × ObjectOutline)
  inputs : List (HostType × InputOutline)

namespace Catalogue

/-- The outline of an object type; without an entry, one without fields. -/
def object (c : Catalogue) (outline : HostType) : ObjectOutline :=
  (c.objects.lookup outline).getD ⟨outline.shortName, []⟩

/-- The outline of an input object type; without an entry, one without fields. -/
def input (c : Catalogue) (outline : HostType) : InputOutline :=
  (c.inputs.lookup outline).getD ⟨outline.shortName, []⟩

/-- A description in one line: its kind with the name of what it describes. -/
def summary (c : Catalogue) : TypeRef → String
  | .scalar host => s!"Scalar({host.name})"
  | .enumeration _ shape => s!"Enum({shape.name})"
  | .object _ outline => s!"Object({(c.object outline).name})"
  | .inputObject _ outline => s!"InputObject({(c.input outline).name})"
  | .union _ => "Union"
  | .list _ inner => "List(" ++ c.summary inner ++ ")"
  | .nullable _ inner => "Nullable(" ++ c.summary inner ++ ")"
  | .function host => s!"Function({host.name})"
  | .generic host => s!"Generic({host.name})"

end Catalogue

end Trellis
