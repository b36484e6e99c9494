import Trellis.Host.Description
import Trellis.Literal.Basic
import Trellis.ScalarType

/-!
Universes of host types.

A universe defines the named types of a host program. From the definitions follow the description
of every host type (`describe`), how its values are handed out (`erase`) and taken back
(`recover`), and how they are decoded from literals (`decode`).
-/

namespace Trellis

/-- Definition of a host type by its path. -/
inductive Definition where
  | scalar
  | enumeration (name : String) (values : List String)
  | object (name : String) (fields : List (String × HostType))
  | inputObject (name : String) (fields : List (String × HostType))
  /-- Described as its first parameter and handed out as its second. -/
  | disguise
  /-- Described as something else and without values. -/
  | mask (shown : TypeRef)

/-- Definitions by path. -/
structure Universe where
  definitions : List (String × Definition)

/-- The scalar type declared for a host type. -/
abbrev ScalarTable := HostType → Option ScalarType

namespace Universe

variable (u : Universe)

def definition? (path : String) : Option Definition := u.definitions.lookup path

/-- The shape of an enum whose host values are named variants. -/
def enumShape (name : String) (values : List String) : EnumShape where
  name := name
  values := values
  label
    | .variant v => v
    | _ => ""

/-- The description of a host type. Boxes and shared pointers are described as what they point
to. -/
def describe : HostType → TypeRef
  | .optional t => .nullable (.optional t) (describe t)
  | .sequence t => .list (.sequence t) (describe t)
  | .boxed t => describe t
  | .shared t => describe t
  | .member => .union .member
  | .named path =>
    match u.definition? path with
    | some .scalar => .scalar (.named path)
    | some (.enumeration name values) => .enumeration (.named path) (enumShape name values)
    | some (.object ..) => .object (.named path) (.named path)
    | some (.inputObject ..) => .inputObject (.named path) (.named path)
    | some (.mask shown) => shown
    | some .disguise | none => .generic (.named path)
  | .generic path (.parameter shown rest) =>
    match u.definition? path with
    | some .disguise => describe shown
    | _ => .generic (.generic path (.parameter shown rest))
  | .function parameters result => .function (.function parameters result)
  | .closure parameters result => .function (.closure parameters result)
  | .tuple parameters => .generic (.tuple parameters)
  | .generic path parameters => .generic (.generic path parameters)
  | .nothing => .generic .nothing
  | .parameter first rest => .generic (.parameter first rest)
  | t => .scalar t

/-- Hands out a value of a host type. Functions, tuples and maps are handed out as null. -/
def erase : HostType → HostValue → Output
  | .optional t, v =>
    match v with
    | .present v => erase t v
    | _ => .null
  | .sequence t, v =>
    match v with
    | .sequence items => .list (items.map (erase t))
    | _ => .list []
  | .boxed t, v => erase t v
  | .shared t, v => erase t v
  | .member, v =>
    match v with
    | .member output => output
    | _ => .null
  | .named path, v =>
    match u.definition? path with
    | some .scalar | some (.enumeration ..) | some (.object ..) => .single (.named path) v
    | _ => .null
  | .generic path (.parameter _ (.parameter shape _)), v =>
    match u.definition? path with
    | some .disguise => erase shape v
    | _ => .null
  | .generic .., _ | .tuple .., _ | .function .., _ | .closure .., _ | .nothing, _
  | .parameter .., _ => .null
  | t, v => .single t v

/-- Takes back a value of a host type from what was handed out. -/
def recover : HostType → Output → Option HostValue
  | .optional t, output =>
    match output with
    | .null => some .absent
    | output => (recover t output).map .present
  | .sequence t, output =>
    match output with
    | .list items => (items.mapM (recover t)).map .sequence
    | _ => none
  | .boxed t, output => recover t output
  | .shared t, output => recover t output
  | .member, output => some (.member output)
  | .named path, output =>
    match u.definition? path with
    | some .scalar | some (.enumeration ..) | some (.object ..) =>
      match output with
      | .single host v => if host = .named path then some v else none
      | _ => none
    | _ => none
  | .generic .., _ | .tuple .., _ | .function .., _ | .closure .., _ | .nothing, _
  | .parameter .., _ => none
  | t, output =>
    match output with
    | .single host v => if host = t then some v else none
    | _ => none

/-- The outlines of all objects and input objects of the universe. -/
def catalogue : Catalogue where
  objects := u.definitions.filterMap fun
    | (path, .object name fields) =>
      some (.named path, ⟨name, fields.map fun (field, type) =>
        ⟨field, u.describe type, fun v => u.erase type (v.field field)⟩⟩)
    | _ => none
  inputs := u.definitions.filterMap fun
    | (path, .inputObject name fields) =>
      some (.named path, ⟨name, fields.map fun (field, type) => ⟨field, u.describe type⟩⟩)
    | _ => none

end Universe

end Trellis
