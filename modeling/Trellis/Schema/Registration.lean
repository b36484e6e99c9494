import Trellis.Schema.Declaration

/-!
Registration of types.

Registration walks the declarations and every type that can be reached from them, and collects the
named types of a schema. Each host type is registered once; its name is reserved before its fields
are walked, so types may refer to themselves and to each other. A nested walk always starts with a
host type that was not met before, so the number of host types bounds how deep walks are nested.
-/

namespace Trellis

/-- What has been registered so far, and the declarations still to be used. A reserved name has no
type yet. -/
structure Registry where
  types : List (String × Option TypeNode)
  outputs : List (HostType × String)
  inputs : List (HostType × String)
  scalarNames : List (HostType × String)
  typeDeclarations : List (HostType × TypeDeclaration)
  enumDeclarations : List (HostType × EnumDeclaration)
  unionNames : List String

/-- Why registration stops: a declaration is refused, or walks are nested deeper than the host types
known in advance allow. -/
inductive Stop where
  | refused (error : SchemaError)
  | tooDeep

abbrev Registering := StateT Registry (Except Stop)

namespace Registering

def refuse {α : Type} (e : SchemaError) : Registering α := throw (.refused e)

/-- Claims a name for a type about to be described. -/
def reserve (name : String) : Registering Unit := do
  if ((← get).types.lookup name).isSome then refuse (.duplicateTypeName name)
  else modify fun r => { r with types := r.types ++ [(name, none)] }

/-- Puts a type under its reserved name. -/
def fill (node : TypeNode) : Registering Unit :=
  modify fun r => { r with types := r.types.map fun (name, slot) =>
    if name = node.name then (name, some node) else (name, slot) }

def addScalar (scalar : ScalarType) : Registering Unit := do
  match (← get).scalarNames.lookup scalar.coercion.host with
  | some existing => refuse (.duplicateTypeName existing)
  | none =>
    reserve scalar.name
    modify fun r =>
      { r with scalarNames := r.scalarNames ++ [(scalar.coercion.host, scalar.name)] }
    fill (.scalar scalar)

def scalarName (host : HostType) : Registering String := do
  match (← get).scalarNames.lookup host with
  | some name => pure name
  | none => refuse (.unknownScalar host.name)

/-- Registers an enum unless it is registered already. -/
def registerEnum (host : HostType) (shape : EnumShape) : Registering String := do
  match (← get).outputs.lookup host with
  | some name => pure name
  | none =>
    let declaration := (← get).enumDeclarations.lookup host
    modify fun r => { r with enumDeclarations := r.enumDeclarations.filter (·.1 ≠ host) }
    let name := (declaration.bind (·.name)).getD shape.name
    reserve name
    modify fun r => { r with
      outputs := r.outputs ++ [(host, name)]
      inputs := Entries.put host name r.inputs }
    fill (.enumeration ⟨name, declaration.bind (·.description), host, shape⟩)
    pure name

def nonNull (name : String) : TypeLiteral := .named name true

/-- The type of an argument or of a field of an input object. -/
def inputType (registerInput : HostType → HostType → Registering String) :
    TypeRef → Registering TypeLiteral
  | .nullable _ inner => TypeLiteral.nullable <$> inputType registerInput inner
  | .list _ inner => (TypeLiteral.list · true) <$> inputType registerInput inner
  | .scalar host => nonNull <$> scalarName host
  | .enumeration host shape => nonNull <$> registerEnum host shape
  | .inputObject host outline => nonNull <$> registerInput host outline
  | .object host _ | .union host | .function host =>
    refuse (.invalidTypeUsage host.name "an input type")
  | .generic host => refuse (.genericType host.name)

variable (catalogue : Catalogue)

/-- Registers an input object with the types of its fields, unless it is registered already. -/
def registerInput : Nat → HostType → HostType → Registering String
  | 0, _, _ => throw .tooDeep
  | depth + 1, host, outline => do
    match (← get).inputs.lookup host with
    | some name => pure name
    | none =>
      let shown := catalogue.input outline
      reserve shown.name
      modify fun r => { r with inputs := r.inputs ++ [(host, shown.name)] }
      let fields ← shown.fields.mapM fun field => do
        pure (field.name, ← inputType (registerInput depth) field.type)
      fill (.inputObject ⟨shown.name, none, host, Entries.ofPairs fields⟩)
      pure shown.name

/-- A property whose type is looked for. -/
structure Site where
  owner : String
  property : String
  union : Option String

/-- The type of the value of a property. -/
def outputType (registerObject : HostType → HostType → Registering String) (site : Site) :
    TypeRef → Registering TypeLiteral
  | .nullable _ inner => TypeLiteral.nullable <$> outputType registerObject site inner
  | .list _ inner => (TypeLiteral.list · true) <$> outputType registerObject site inner
  | .scalar host => nonNull <$> scalarName host
  | .enumeration host shape => nonNull <$> registerEnum host shape
  | .object host outline => nonNull <$> registerObject host outline
  | .union _ =>
    match site.union with
    | some name => pure (nonNull name)
    | none => refuse (.unionReturnType site.owner site.property)
  | .inputObject host _ => refuse (.invalidTypeUsage host.name "an output type")
  | .function host => refuse (.functionType host.name site.owner site.property)
  | .generic host => refuse (.genericType host.name)

/-- Adds the arguments of one function to those of its property. A name that several functions
declare is one argument, so its types must agree. -/
def mergeArguments (depth : Nat) (owner property : String) (arguments : List Argument) :
    List (String × TypeRef) → Registering (List Argument)
  | [] => pure arguments
  | (name, ref) :: declared => do
    let type ← inputType (registerInput catalogue depth) ref
    match arguments.find? (·.name == name) with
    | none => mergeArguments depth owner property (arguments ++ [⟨name, type⟩]) declared
    | some existing =>
      if existing.type = type then mergeArguments depth owner property arguments declared
      else refuse (.conflictingArgument owner property name existing.type.text type.text)

/-- The declared union of a property that returns members of one. -/
def checkUnion (owner : String) (declaration : PropertyDeclaration) (returns : TypeRef) :
    Registering Unit := do
  match declaration.union with
  | none => refuse (.unionReturnType owner declaration.name)
  | some union =>
    if union ∉ (← get).unionNames then refuse (.unknownUnion union)
    else if returns.isUnion then pure ()
    else refuse (.unionReturnType owner declaration.name)

/-- The property that a declaration with a resolver stands for. -/
def property (depth : Nat) (registerObject : HostType → HostType → Registering String)
    (owner : String) (declaration : PropertyDeclaration) : Registering Property := do
  let name := declaration.name
  match declaration.resolver with
  | none => refuse (.missingResolver owner name)
  | some resolver =>
    match resolver.parameters.name? declaration.arguments with
    | none =>
      refuse (.argumentNames owner name resolver.parameters.argumentCount
        declaration.arguments.length)
    | some parameters =>
      let origin := if declaration.union.isSome then Origin.union else declaration.origin
      if origin = .union then checkUnion owner declaration resolver.returns
      let type ← outputType registerObject ⟨owner, name, declaration.union⟩ resolver.returns
      let arguments ← mergeArguments catalogue depth owner name [] parameters.arguments
      pure ⟨name, declaration.description, declaration.deprecation, type, arguments, origin,
        { resolver with parameters }, []⟩

def insertProperty (owner : String) (properties : List Property) (p : Property) :
    Registering (List Property) :=
  if properties.any (·.name == p.name) then refuse (.duplicateProperty owner p.name)
  else pure (properties ++ [p])

def insertDeclared (depth : Nat) (registerObject : HostType → HostType → Registering String)
    (owner : String) (properties : List Property) (declarations : List PropertyDeclaration) :
    Registering (List Property) :=
  declarations.foldlM (fun properties declaration => do
    insertProperty owner properties (← property catalogue depth registerObject owner declaration))
    properties

/-- Adds the fields of an object that are not ignored. -/
def insertFields (registerObject : HostType → HostType → Registering String) (owner : String)
    (host : HostType) (ignored : List String) (fields : List ObjectField) :
    Registering (List Property) :=
  (fields.filter (·.name ∉ ignored)).foldlM (fun properties field => do
    let type ← outputType registerObject ⟨owner, field.name, none⟩ field.type
    insertProperty owner properties ⟨field.name, none, .current, type, [], .native,
      .ofField host field, []⟩) []

/-- Replaces the property with a name by a changed one. -/
def adjustProperty (owner name : String) (change : Property → Registering Property) :
    List Property → Registering (List Property)
  | [] => refuse (.unknownProperty owner name)
  | p :: rest => do
    if p.name = name then
      let changed ← change p
      pure (changed :: rest)
    else
      let rest ← adjustProperty owner name change rest
      pure (p :: rest)

def configure (change : PropertyChange) (p : Property) : Property :=
  { p with
    description := change.description.or p.description
    deprecation := change.deprecation.getD p.deprecation }

/-- Attaches a transformation to a property of the type that it maps. -/
def attach (depth : Nat) (owner : String) (declaration : TransformationDeclaration)
    (p : Property) : Registering Property :=
  match declaration.transformation with
  | none => refuse (.missingResolver owner declaration.property)
  | some transformation =>
    match transformation.parameters.name? declaration.arguments with
    | none =>
      refuse (.argumentNames owner declaration.property transformation.parameters.argumentCount
        declaration.arguments.length)
    | some parameters => do
      let expected := p.resolver.returns.host
      if transformation.valueType ≠ expected then
        refuse (.transformationType owner declaration.property expected.name
          transformation.valueType.name)
      else
        let arguments ← mergeArguments catalogue depth owner p.name p.arguments
          parameters.arguments
        pure { p with
          arguments := arguments
          transformations := p.transformations ++ [{ transformation with parameters }] }

/-- Takes the declaration that customizes a host type. -/
def takeDeclaration (host outline : HostType) : Registering TypeDeclaration := do
  let declaration := (← get).typeDeclarations.lookup host
  modify fun r => { r with typeDeclarations := r.typeDeclarations.filter (·.1 ≠ host) }
  pure (declaration.getD (.plain (.object host outline)))

/-- Registers an object type with everything that its properties mention, unless it is registered
already. -/
def registerObject (inputDepth : Nat) : Nat → HostType → HostType → Registering String
  | 0, _, _ => throw .tooDeep
  | depth + 1, host, outline => do
    match (← get).outputs.lookup host with
    | some name => pure name
    | none =>
      let shown := catalogue.object outline
      let declaration ← takeDeclaration host outline
      let name := declaration.name.getD shown.name
      reserve name
      modify fun r => { r with outputs := r.outputs ++ [(host, name)] }
      match declaration.ignored.find? fun field => !(shown.fields.any (·.name == field)) with
      | some unknown => refuse (.unknownProperty name unknown)
      | none =>
        let nested := registerObject inputDepth depth
        let properties ← insertFields nested name host declaration.ignored shown.fields
        let properties ← insertDeclared catalogue inputDepth nested name properties
          declaration.properties
        let properties ← declaration.changes.foldlM (fun properties (field, change) =>
          adjustProperty name field (fun p => pure (configure change p)) properties) properties
        let properties ← declaration.transformations.foldlM (fun properties t =>
          adjustProperty name t.property (attach catalogue inputDepth name t) properties) properties
        fill (.object ⟨name, declaration.description, some host, properties⟩)
        pure name

def addRoot (depth : Nat) (name : String) (declarations : List PropertyDeclaration) :
    Registering Unit := do
  reserve name
  let properties ← insertDeclared catalogue depth (registerObject catalogue depth depth) name []
    declarations
  fill (.object ⟨name, none, none, properties⟩)

/-- Registers a declared type that may not have been reached yet. -/
def addDeclared (depth : Nat) : TypeRef → Registering Unit
  | .object host outline => discard (registerObject catalogue depth depth host outline)
  | .enumeration host shape => discard (registerEnum host shape)
  | _ => pure ()

/-- The name of a member of a union, with its host type. -/
def unionMember (depth : Nat) (union : String) : TypeRef → Registering (HostType × String)
  | .object host outline => do pure (host, ← registerObject catalogue depth depth host outline)
  | ref => refuse (.invalidUnionMember union ref.host.name)

def addUnion (depth : Nat) (name : String) (declaration : UnionDeclaration) :
    Registering Unit := do
  if declaration.members.isEmpty then refuse (.emptyUnion name)
  else
    reserve name
    let members ← declaration.members.mapM (unionMember catalogue depth name)
    fill (.union ⟨name, declaration.description, members.map (·.2), Entries.ofPairs members⟩)

def queryName : String := "Query"

def mutationName : String := "Mutation"

/-- Registers everything that is declared. -/
def addAll (depth : Nat) (declarations : Declarations) : Registering Unit := do
  (ScalarType.builtin ++ declarations.scalars).forM addScalar
  addRoot catalogue depth queryName declarations.queries
  if !declarations.mutations.isEmpty then
    addRoot catalogue depth mutationName declarations.mutations
  let remaining ← get
  (remaining.typeDeclarations.map (·.2.type) ++ remaining.enumDeclarations.map (·.2.type)).forM
    (addDeclared catalogue depth)
  declarations.inputs.forM fun ref => discard (inputType (registerInput catalogue depth) ref)
  declarations.unions.forM fun (name, declaration) => addUnion catalogue depth name declaration

end Registering

/-- The type inside all lists and nullable types. -/
def TypeRef.innermost : TypeRef → TypeRef
  | .list _ inner => inner.innermost
  | .nullable _ inner => inner.innermost
  | ref => ref

/-- The types that a catalogue mentions. -/
def Catalogue.mentions (c : Catalogue) : List TypeRef :=
  c.objects.flatMap (fun (_, o) => o.fields.map (·.type)) ++
    c.inputs.flatMap (fun (_, o) => o.fields.map (·.type))

/-- The types that a declaration with a resolver mentions. -/
def PropertyDeclaration.mentions (d : PropertyDeclaration) : List TypeRef :=
  match d.resolver with
  | some r => r.returns :: Parameters.argumentTypes r.parameters.kinds
  | none => []

/-- The types that the customization of an object type mentions. -/
def TypeDeclaration.mentions (d : TypeDeclaration) : List TypeRef :=
  d.type :: d.properties.flatMap (·.mentions) ++ d.transformations.flatMap fun t =>
    match t.transformation with
    | some t => Parameters.argumentTypes t.parameters.kinds
    | none => []

/-- The types that declarations mention. -/
def Declarations.mentions (d : Declarations) : List TypeRef :=
  d.queries.flatMap (·.mentions) ++ d.mutations.flatMap (·.mentions) ++
    d.types.flatMap (·.2.mentions) ++ d.unions.flatMap (·.2.members) ++ d.inputs

/-- How deep walks may be nested: one more than the host types that can be met. -/
def Declarations.depth (catalogue : Catalogue) (d : Declarations) : Nat :=
  (catalogue.mentions ++ d.mentions).length + 1

def Registry.start (d : Declarations) : Registry :=
  ⟨[], [], [], [], d.types, d.enums, d.unions.map (·.1)⟩

/-- The type graph of a registry; names that are only reserved are left out. -/
def Registry.graph (r : Registry) (mutation : Option String) : TypeGraph where
  types := r.types.filterMap fun (name, node) => node.map (name, ·)
  outputs := r.outputs
  inputs := r.inputs
  scalarNames := r.scalarNames
  query := Registering.queryName
  mutation := mutation

/-- The type graph that declarations stand for. -/
def Declarations.register (catalogue : Catalogue) (d : Declarations) : Except Stop TypeGraph := do
  let (_, registry) ← (Registering.addAll catalogue (d.depth catalogue) d).run (.start d)
  return registry.graph (if d.mutations.isEmpty then none else some Registering.mutationName)

end Trellis
