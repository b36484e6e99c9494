import Trellis.Proofs.Schema.Soundness

/-!
What declarations come to once all types have names.

Registration walks types while it gives them names. Given the names, nothing is left to walk: type
literals, arguments, properties and whole types are read off the declarations. This module says what
is read, without a registry and without an order in which types are met.
-/

namespace Trellis

/-- Names of host types, for values, for arguments and as scalars, and the names of unions. -/
structure Names where
  outputs : HostType → Option String
  inputs : HostType → Option String
  scalars : HostType → Option String
  isUnion : String → Bool

namespace Names

variable (N : Names)

def inputType : TypeRef → Option TypeLiteral
  | .nullable _ inner => TypeLiteral.nullable <$> inputType inner
  | .list _ inner => (TypeLiteral.list · true) <$> inputType inner
  | .scalar host => Registering.nonNull <$> N.scalars host
  | .enumeration host _ => Registering.nonNull <$> N.outputs host
  | .inputObject host _ => Registering.nonNull <$> N.inputs host
  | .object .. | .union _ | .function _ | .generic _ => none

/-- The type of the value of a property that declares a union or none. -/
def outputType (union : Option String) : TypeRef → Option TypeLiteral
  | .nullable _ inner => TypeLiteral.nullable <$> outputType union inner
  | .list _ inner => (TypeLiteral.list · true) <$> outputType union inner
  | .scalar host => Registering.nonNull <$> N.scalars host
  | .enumeration host _ | .object host _ => Registering.nonNull <$> N.outputs host
  | .union _ => Registering.nonNull <$> union
  | .inputObject .. | .function _ | .generic _ => none

/-- The arguments of a property with those of one more function. -/
def mergeArguments (arguments : List Argument) : List (String × TypeRef) → Option (List Argument)
  | [] => pure arguments
  | (name, ref) :: declared => do
    let type ← N.inputType ref
    match arguments.find? (·.name == name) with
    | none => mergeArguments (arguments ++ [⟨name, type⟩]) declared
    | some existing => if existing.type = type then mergeArguments arguments declared else none

/-- A property that declares a union returns members of it. -/
def checkUnion (declaration : PropertyDeclaration) (returns : TypeRef) : Option Unit := do
  let union ← declaration.union
  if N.isUnion union && returns.isUnion then pure () else none

/-- The property that a declaration stands for. -/
def property (declaration : PropertyDeclaration) : Option Property := do
  let resolver ← declaration.resolver
  let parameters ← resolver.parameters.name? declaration.arguments
  let origin := if declaration.union.isSome then Origin.union else declaration.origin
  if origin = .union then N.checkUnion declaration resolver.returns
  let type ← N.outputType declaration.union resolver.returns
  let arguments ← N.mergeArguments [] parameters.arguments
  pure ⟨declaration.name, declaration.description, declaration.deprecation, type, arguments, origin,
    { resolver with parameters }, []⟩

/-- Properties with one more, which needs a name of its own. -/
def insertProperty (properties : List Property) (p : Property) : Option (List Property) :=
  if properties.any (·.name == p.name) then none else pure (properties ++ [p])

theorem insertProperty_eq_some {properties next : List Property} {p : Property} :
    insertProperty properties p = some next ↔
      (∀ q ∈ properties, q.name ≠ p.name) ∧ next = properties ++ [p] := by
  rw [insertProperty]
  split
  · rename_i htaken
    obtain ⟨q, hq, hname⟩ := List.any_eq_true.mp htaken
    exact ⟨fun h => (nomatch h), fun h => absurd (by simpa using hname) (h.1 q hq)⟩
  · rename_i hfree
    rw [List.any_eq_true] at hfree
    constructor
    · intro h
      cases h
      exact ⟨fun q hq he => hfree ⟨q, hq, by simpa using he⟩, rfl⟩
    · rintro ⟨-, rfl⟩
      rfl

def insertDeclared (properties : List Property) (declarations : List PropertyDeclaration) :
    Option (List Property) :=
  declarations.foldlM (fun properties declaration => do
    insertProperty properties (← N.property declaration)) properties

def fieldProperty (host : HostType) (field : ObjectField) : Option Property := do
  let type ← N.outputType none field.type
  pure ⟨field.name, none, .current, type, [], .native, .ofField host field, []⟩

def insertFields (host : HostType) (ignored : List String) (fields : List ObjectField) :
    Option (List Property) :=
  (fields.filter (·.name ∉ ignored)).foldlM (fun properties field => do
    insertProperty properties (← N.fieldProperty host field)) []

/-- Replaces the property with a name by a changed one. -/
def adjustProperty (name : String) (change : Property → Option Property) :
    List Property → Option (List Property)
  | [] => none
  | p :: rest => do
    if p.name = name then
      let changed ← change p
      pure (changed :: rest)
    else
      let rest ← adjustProperty name change rest
      pure (p :: rest)

/-- A property with one more transformation. -/
def attach (declaration : TransformationDeclaration) (p : Property) : Option Property := do
  let transformation ← declaration.transformation
  let parameters ← transformation.parameters.name? declaration.arguments
  if transformation.valueType ≠ p.resolver.returns.host then none
  else
    let arguments ← N.mergeArguments p.arguments parameters.arguments
    pure { p with
      arguments := arguments
      transformations := p.transformations ++ [{ transformation with parameters }] }

/-- The properties of an object as it is shown and customized. -/
def properties (shown : ObjectOutline) (host : HostType) (declaration : TypeDeclaration) :
    Option (List Property) := do
  if declaration.ignored.all fun field => shown.fields.any (·.name == field) then
    let properties ← N.insertFields host declaration.ignored shown.fields
    let properties ← N.insertDeclared properties declaration.properties
    let properties ← declaration.changes.foldlM (fun properties (field, change) =>
      adjustProperty field (fun p => pure (Registering.configure change p)) properties) properties
    declaration.transformations.foldlM (fun properties t =>
      adjustProperty t.property (N.attach t) properties) properties
  else none

def root (name : String) (declarations : List PropertyDeclaration) : Option ObjectType := do
  let properties ← N.insertDeclared [] declarations
  pure ⟨name, none, none, properties⟩

/-- The fields of an input object, each next to the name of its type. -/
def inputFields (fields : List InputField) : Option (List (String × TypeLiteral)) :=
  fields.mapM fun field => do pure (field.name, ← N.inputType field.type)

def inputObject (catalogue : Catalogue) (host outline : HostType) : Option InputObjectType := do
  let shown := catalogue.input outline
  let fields ← N.inputFields shown.fields
  pure ⟨shown.name, none, host, Entries.ofPairs fields⟩

def unionMember : TypeRef → Option (HostType × String)
  | .object host _ => do pure (host, ← N.outputs host)
  | _ => none

def union (name : String) (declaration : UnionDeclaration) : Option UnionType :=
  if declaration.members.isEmpty then none
  else do
    let members ← declaration.members.mapM N.unionMember
    pure ⟨name, declaration.description, members.map (·.2), Entries.ofPairs members⟩

variable {N} {name : String}

theorem name_of_root {declarations : List PropertyDeclaration} {o : ObjectType}
    (h : N.root name declarations = some o) : o.name = name := by
  obtain ⟨properties, -, hpure⟩ := Option.bind_eq_some_iff.mp h
  cases hpure
  rfl

theorem name_of_union {declaration : UnionDeclaration} {t : UnionType}
    (h : N.union name declaration = some t) : t.name = name := by
  rw [union] at h
  split at h
  · cases h
  · obtain ⟨members, -, hpure⟩ := Option.bind_eq_some_iff.mp h
    cases hpure
    rfl

end Names

namespace Declarations

variable (d : Declarations) (catalogue : Catalogue) (N : Names)

def allScalars : List ScalarType := ScalarType.builtin ++ d.scalars

def roots : List (String × List PropertyDeclaration) :=
  (Registering.queryName, d.queries) ::
    if d.mutations.isEmpty then [] else [(Registering.mutationName, d.mutations)]

/-- The customization of an object type; without one it is left as it is. -/
def customization (host outline : HostType) : TypeDeclaration :=
  (d.types.lookup host).getD (.plain (.object host outline))

def enumeration (host : HostType) (shape : EnumShape) : EnumType :=
  let declaration := d.enums.lookup host
  ⟨(declaration.bind (·.name)).getD shape.name, declaration.bind (·.description), host, shape⟩

def objectWith (host outline : HostType) (properties : List Property) : ObjectType :=
  let declaration := d.customization host outline
  ⟨declaration.name.getD (catalogue.object outline).name, declaration.description, some host,
    properties⟩

def object (host outline : HostType) : Option ObjectType :=
  d.objectWith catalogue host outline <$>
    N.properties (catalogue.object outline) host (d.customization host outline)

/-- A type is what declarations come to, and has the name that is given to its host type. -/
inductive Makes (d : Declarations) (catalogue : Catalogue) (N : Names) : TypeNode → Prop
  | scalar {t : ScalarType} : t ∈ d.allScalars → N.scalars t.coercion.host = some t.name →
    Makes d catalogue N (.scalar t)
  | enumeration {host : HostType} {shape : EnumShape} :
    d.Describes catalogue (.enumeration host shape) →
    N.outputs host = some (d.enumeration host shape).name →
    Makes d catalogue N (.enumeration (d.enumeration host shape))
  | object {host outline : HostType} {o : ObjectType} :
    d.Describes catalogue (.object host outline) → d.object catalogue N host outline = some o →
    N.outputs host = some o.name → Makes d catalogue N (.object o)
  | root {name : String} {declarations : List PropertyDeclaration} {o : ObjectType} :
    (name, declarations) ∈ d.roots → N.root name declarations = some o →
    Makes d catalogue N (.object o)
  | union {name : String} {declaration : UnionDeclaration} {t : UnionType} :
    (name, declaration) ∈ d.unions → N.union name declaration = some t →
    Makes d catalogue N (.union t)
  | inputObject {host outline : HostType} {t : InputObjectType} :
    d.Describes catalogue (.inputObject host outline) →
    N.inputObject catalogue host outline = some t → N.inputs host = some t.name →
    Makes d catalogue N (.inputObject t)

end Declarations

end Trellis
