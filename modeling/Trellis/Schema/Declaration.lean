import Trellis.Schema.Configuration
import Trellis.Schema.Error
import Trellis.Schema.Graph

/-!
Declarations of schemas.

A `SchemaBuilder` collects declarations. Most of them are checked only when the schema is built;
what is wrong at once is remembered, and the first such error is the outcome of the next build.
-/

namespace Trellis

/-- A root field or a property with a resolver. -/
structure PropertyDeclaration where
  name : String
  description : Option String
  deprecation : Deprecation
  arguments : List String
  resolver : Option Resolver
  origin : Origin
  union : Option String

namespace PropertyDeclaration

def extension (name : String) : PropertyDeclaration :=
  ⟨name, none, .current, [], none, .extension, none⟩

def ofUnion (name : String) : PropertyDeclaration :=
  ⟨name, none, .current, [], none, .union, none⟩

end PropertyDeclaration

/-- New metadata of a property. -/
structure PropertyChange where
  description : Option String
  deprecation : Option Deprecation

structure TransformationDeclaration where
  property : String
  arguments : List String
  transformation : Option Transformation

/-- Customization of an object type. -/
structure TypeDeclaration where
  type : TypeRef
  name : Option String
  description : Option String
  ignored : List String
  changes : List (String × PropertyChange)
  transformations : List TransformationDeclaration
  properties : List PropertyDeclaration

def TypeDeclaration.plain (type : TypeRef) : TypeDeclaration := ⟨type, none, none, [], [], [], []⟩

/-- Customization of an enum. -/
structure EnumDeclaration where
  type : TypeRef
  name : Option String
  description : Option String

structure UnionDeclaration where
  description : Option String
  members : List TypeRef

/-- A custom scalar. Each of the two functions may be missing. -/
structure ScalarDeclaration where
  host : HostType
  raw : RawKind
  name : Option String
  description : Option String
  serialize : Option (HostValue → raw.Carrier)
  deserialize : Option (raw.Carrier → Except FieldError HostValue)

/-- The scalar type, named after its host type unless a name is given. -/
def ScalarDeclaration.complete (d : ScalarDeclaration) : Except SchemaError ScalarType :=
  let name := d.name.getD d.host.shortName
  match d.serialize, d.deserialize with
  | some serialize, some deserialize =>
    .ok ⟨name, d.description, ⟨d.host, d.raw, serialize, deserialize⟩⟩
  | _, _ => .error (.incompleteScalar name)

/-- Everything declared for one schema. -/
structure Declarations where
  queries : List PropertyDeclaration
  mutations : List PropertyDeclaration
  types : List (HostType × TypeDeclaration)
  enums : List (HostType × EnumDeclaration)
  unions : List (String × UnionDeclaration)
  scalars : List ScalarType
  inputs : List TypeRef

def Declarations.empty : Declarations := ⟨[], [], [], [], [], [], []⟩

structure SchemaBuilder where
  declarations : Declarations
  configuration : Configuration
  errors : List SchemaError

namespace SchemaBuilder

def new : SchemaBuilder := ⟨.empty, .default, []⟩

variable (b : SchemaBuilder)

def declare (change : Declarations → Declarations) : SchemaBuilder :=
  { b with declarations := change b.declarations }

/-- Remembers an error for the next build. -/
def refuse (e : SchemaError) : SchemaBuilder := { b with errors := b.errors ++ [e] }

def query (d : PropertyDeclaration) : SchemaBuilder :=
  b.declare fun ds => { ds with queries := ds.queries ++ [d] }

def mutation (d : PropertyDeclaration) : SchemaBuilder :=
  b.declare fun ds => { ds with mutations := ds.mutations ++ [d] }

/-- Customizes an object type. A repeated customization extends the earlier one and moves it to the
end. -/
def type (type : TypeRef) (change : TypeDeclaration → TypeDeclaration) : SchemaBuilder :=
  match type with
  | .object host _ => b.declare fun ds =>
    let earlier := (ds.types.lookup host).getD (.plain type)
    { ds with types := ds.types.filter (·.1 ≠ host) ++ [(host, change earlier)] }
  | _ => b.refuse (.invalidTypeUsage type.host.name "an object type")

/-- Customizes an enum; a repeated customization replaces the earlier one. -/
def enumeration (type : TypeRef) (name description : Option String) : SchemaBuilder :=
  match type with
  | .enumeration host _ => b.declare fun ds =>
    { ds with enums := Entries.put host ⟨type, name, description⟩ ds.enums }
  | _ => b.refuse (.invalidTypeUsage type.host.name "an enum type")

/-- Declares a union. The name may be taken only once. -/
def union (name : String) (d : UnionDeclaration) : SchemaBuilder :=
  if (b.declarations.unions.lookup name).isSome then b.refuse (.duplicateTypeName name)
  else b.declare fun ds => { ds with unions := ds.unions ++ [(name, d)] }

def scalar (d : ScalarDeclaration) : SchemaBuilder :=
  match d.complete with
  | .ok s => b.declare fun ds => { ds with scalars := ds.scalars ++ [s] }
  | .error e => b.refuse e

/-- Registers an input type that no resolver mentions. -/
def input (type : TypeRef) : SchemaBuilder :=
  b.declare fun ds => { ds with inputs := ds.inputs ++ [type] }

def configure (change : Configuration → Configuration) : SchemaBuilder :=
  { b with configuration := change b.configuration }

end SchemaBuilder

end Trellis
