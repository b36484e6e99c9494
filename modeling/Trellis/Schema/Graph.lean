import Trellis.Resolver.Basic
import Trellis.TypeLiteral

/-!
Type graphs.

A type graph holds the named types of a schema in the order of their registration, and the names
under which host types are registered.
-/

namespace Trellis

/-- Whether something is deprecated, and for what reason. -/
inductive Deprecation where
  | current
  | deprecated (reason : Option String)
deriving DecidableEq, Repr

namespace Deprecation

def isDeprecated : Deprecation → Bool
  | .current => false
  | .deprecated _ => true

def reason? : Deprecation → Option String
  | .current => none
  | .deprecated reason => reason

end Deprecation

/-- Where the value of a property comes from: a field of the host value, a declared resolver, or a
declared resolver that returns members of a union. -/
inductive Origin where
  | native
  | extension
  | union
deriving DecidableEq, Repr

structure Argument where
  name : String
  type : TypeLiteral
deriving DecidableEq, Repr

/-- A field of an object type or of a root. -/
structure Property where
  name : String
  description : Option String
  deprecation : Deprecation
  type : TypeLiteral
  /-- Arguments of the resolver and of all transformations, each name once. -/
  arguments : List Argument
  origin : Origin
  resolver : Resolver
  /-- In the order they are applied. -/
  transformations : List Transformation

namespace Property

def argument? (p : Property) (name : String) : Option Argument :=
  p.arguments.find? (·.name == name)

def union? (p : Property) : Option String :=
  if p.origin = .union then some p.type.innermost else none

end Property

/-- An object type; the roots have no host type. -/
structure ObjectType where
  name : String
  description : Option String
  host : Option HostType
  properties : List Property

namespace ObjectType

def property? (o : ObjectType) (name : String) : Option Property :=
  o.properties.find? (·.name == name)

def withOrigin (o : ObjectType) (origin : Origin) : List Property :=
  o.properties.filter (·.origin = origin)

/-- All transformations with the names of their properties. -/
def transformations (o : ObjectType) : List (String × Transformation) :=
  o.properties.flatMap fun p => p.transformations.map (p.name, ·)

end ObjectType

structure EnumType where
  name : String
  description : Option String
  host : HostType
  shape : EnumShape

/-- The name of the enum value that a host value stands for. -/
def EnumType.label? (e : EnumType) (value : Erased) : Option String :=
  (value.downcast? e.host).map e.shape.label

/-- A union; `identities` leads from host types to the members registered for them. -/
structure UnionType where
  name : String
  description : Option String
  members : List String
  identities : List (HostType × String)

namespace UnionType

def member? (u : UnionType) (host : HostType) : Option String := u.identities.lookup host

def contains (u : UnionType) (member : String) : Bool := u.members.contains member

end UnionType

structure InputObjectType where
  name : String
  description : Option String
  host : HostType
  fields : List (String × TypeLiteral)

/-- A named type. -/
inductive TypeNode where
  | scalar (type : ScalarType)
  | enumeration (type : EnumType)
  | object (type : ObjectType)
  | union (type : UnionType)
  | inputObject (type : InputObjectType)

namespace TypeNode

def name : TypeNode → String
  | .scalar t => t.name
  | .enumeration t => t.name
  | .object t => t.name
  | .union t => t.name
  | .inputObject t => t.name

def description : TypeNode → Option String
  | .scalar t => t.description
  | .enumeration t => t.description
  | .object t => t.description
  | .union t => t.description
  | .inputObject t => t.description

def scalar? : TypeNode → Option ScalarType
  | .scalar t => some t
  | _ => none

def enum? : TypeNode → Option EnumType
  | .enumeration t => some t
  | _ => none

def object? : TypeNode → Option ObjectType
  | .object t => some t
  | _ => none

def union? : TypeNode → Option UnionType
  | .union t => some t
  | _ => none

def inputObject? : TypeNode → Option InputObjectType
  | .inputObject t => some t
  | _ => none

/-- Whether values of the type may be passed as arguments. -/
def isInput : TypeNode → Bool
  | .scalar _ | .enumeration _ | .inputObject _ => true
  | .object _ | .union _ => false

end TypeNode

structure TypeGraph where
  types : List (String × TypeNode)
  /-- Names of objects and enums by their host type. -/
  outputs : List (HostType × String)
  /-- Names of enums and input objects by their host type. -/
  inputs : List (HostType × String)
  scalarNames : List (HostType × String)
  query : String
  mutation : Option String

namespace TypeGraph

variable (g : TypeGraph)

def type? (name : String) : Option TypeNode := g.types.lookup name

def queryType? : Option ObjectType := do (← g.type? g.query).object?

/-- The root of mutations, if any mutation is declared. -/
def mutationType? : Option ObjectType := do (← g.type? (← g.mutation)).object?

def object? (host : HostType) : Option ObjectType := do
  (← g.type? (← g.outputs.lookup host)).object?

def enum? (host : HostType) : Option EnumType := do
  (← g.type? (← g.outputs.lookup host)).enum?

def input? (host : HostType) : Option InputObjectType := do
  (← g.type? (← g.inputs.lookup host)).inputObject?

def union? (name : String) : Option UnionType := do (← g.type? name).union?

def scalar? (name : String) : Option ScalarType := do (← g.type? name).scalar?

def scalars : List ScalarType := g.types.filterMap (·.2.scalar?)

/-- The scalar registered for a host type. -/
def scalarOf? (host : HostType) : Option ScalarType := do g.scalar? (← g.scalarNames.lookup host)

end TypeGraph

end Trellis
