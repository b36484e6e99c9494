import Trellis.Execution.Collection
import Trellis.Execution.Plan

/-!
From selections to plans.

Every field of an object is planned on its own: its arguments are taken from the query, its resolver
is called, its transformations are applied in order, and the output is completed to a response value
of its declared type. The selections of an object are laid out only when its value is known, and
objects inside each other at most as deep as asked for.
-/

namespace Trellis

open Document

/-- The value that a failed position takes: null, or nothing if its type excludes null. -/
def nullFor (type : TypeLiteral) : Option Value := if type.isNonNull then none else some .null

/-- Reports a failure at a position of some type. -/
def Plan.fail (type : TypeLiteral) (location : Position) (path : Path) (error : FieldError)
    (kind : ErrorKind) : Plan :=
  .report ⟨location, path, error, kind⟩ (.done (nullFor type))

/-- Lays out an object: its type, its value if it is not a root, the selections, its path and
whether it may be null. -/
abbrev ObjectPlanner :=
  ObjectType → Option Erased → List Selection → Path → Bool → Plan

namespace Scope

variable (scope : Scope)

/-- Completes a single value of a named type. -/
def completeSingle (planObject : ObjectPlanner) (selections : List Selection)
    (location : Position) (type : TypeLiteral) (name : String) (value : Erased) (path : Path) :
    Plan :=
  let fail := Plan.fail type location path
  match scope.graph.type? name with
  | some (.scalar scalar) =>
    match scalar.coercion.write value with
    | .ok s => .done (some (.scalar s))
    | .error e => fail e .coercion
  | some (.enumeration enumeration) =>
    match enumeration.label? value with
    | some label => .done (some (.string label))
    | none => fail (.ofMessage
        s!"Value of type {value.host.name} is not a value of enum \"{name}\"") .coercion
  | some (.object object) => planObject object (some value) selections path (!type.isNonNull)
  | some (.union union) =>
    let member := (union.member? value.host).bind fun m =>
      (scope.graph.type? m).bind TypeNode.object?
    match member with
    | some object => planObject object (some value) selections path (!type.isNonNull)
    | none => fail (.ofMessage
        s!"Value of type {value.host.name} is not a member of union \"{name}\"") .coercion
  | some (.inputObject _) | none =>
    fail (.ofMessage s!"Type \"{name}\" cannot be resolved") .coercion

/-- The failure of an output whose shape is not that of its type. -/
def wrongShape (type : TypeLiteral) (found : String) : FieldError :=
  .ofMessage s!"Expected a value of type \"{type.text}\", found {found}"

mutual

/-- Completes an output to a response value of a type. -/
def complete (planObject : ObjectPlanner) (selections : List Selection) (location : Position) :
    Output → TypeLiteral → Path → Plan
  | .null, type, path =>
    if type.isNonNull then
      .fail type location path (.ofMessage "Cannot return null for non-nullable field")
        .nullViolation
    else .done (some .null)
  | .list items, type, path =>
    match type with
    | .list inner nonNull =>
      .together ⟨.list, !nonNull⟩ (completeItems planObject selections location items inner path 0)
    | .named .. => .fail type location path (wrongShape type "a list") .coercion
  | .single host value, type, path =>
    match type with
    | .list .. => .fail type location path (wrongShape type "a single value") .coercion
    | .named name _ =>
      scope.completeSingle planObject selections location type name ⟨host, value⟩ path

/-- Completes the elements of a list from an index on. -/
def completeItems (planObject : ObjectPlanner) (selections : List Selection)
    (location : Position) : List Output → TypeLiteral → Path → Nat → List Plan
  | [], _, _, _ => []
  | item :: items, type, path, i =>
    complete planObject selections location item type (path ++ [.index i]) ::
      completeItems planObject selections location items type path (i + 1)

end

/-- Takes the arguments of a field, with variables replaced by their values. -/
def argumentsOf (object : ObjectType) (property : Property) :
    List (String × Literal) → Except FieldError (List (String × Literal))
  | [] => .ok []
  | (name, value) :: rest =>
    match property.argument? name with
    | none => .error (.ofMessage (s!"Unknown argument \"{name}\" on field " ++
        s!"\"{property.name}\" of type \"{object.name}\""))
    | some _ => do
      let rest ← argumentsOf object property rest
      return (name, value.resolve scope.values) :: rest

/-- Applies transformations in order, and completes what the last one hands out. A failure keeps the
later ones from being applied. -/
def transformAll (provided : List (String × Literal)) (path : Path)
    (fail : CallError → Plan) (complete : Output → Plan) :
    Nat → List Transformation → Output → Plan
  | _, [], output => complete output
  | i, t :: rest, output =>
    match t.transform output provided scope.graph.scalarOf? scope.context with
    | .error e@(.binding ..) => fail e
    | .error e => .transformed path i (fail e)
    | .ok output =>
      .transformed path i (transformAll provided path fail complete (i + 1) rest output)

/-- Plans the field of a property. -/
def planProperty (planObject : ObjectPlanner) (object : ObjectType) (parent : Option Erased)
    (group : FieldGroup) (path : Path) (property : Property) : Plan :=
  let location := group.first.start
  let fail := Plan.fail property.type location path
  match scope.argumentsOf object property group.first.arguments with
  | .error e => fail e .unknownField
  | .ok arguments =>
    let provided := Entries.ofPairs arguments
    match property.resolver.start parent provided scope.graph.scalarOf? scope.context with
    | .error e => fail e.error e.kind
    | .ok action => .invoke path property.resolver.mode action fun
      | .error e => fail e .resolver
      | .ok output =>
        scope.transformAll provided path (fun e => fail e.error e.kind)
          (fun output =>
            scope.complete planObject group.selections location output property.type path)
          0 property.transformations output

/-- Plans the fields under one response key. -/
def planGroup (planObject : ObjectPlanner) (object : ObjectType) (parent : Option Erased)
    (path : Path) (group : FieldGroup) : Plan :=
  let path := path ++ [.field group.key]
  let name := group.first.name
  if name = "__typename" then .done (some (.string object.name))
  else
    match object.property? name with
    | some property => scope.planProperty planObject object parent group path property
    | none =>
      .report ⟨group.first.start, path,
        .ofMessage s!"Unknown field \"{name}\" on type \"{object.name}\"", .unknownField⟩
        (.done (some .null))

def missingFragment (path : Path) (spread : Position × String) : ExecutionError :=
  ⟨spread.1, path, .ofMessage s!"Unknown fragment \"{spread.2}\"", .unknownField⟩

/-- Plans an object, with objects inside each other at most `depth` deep. -/
def planObject : Nat → ObjectPlanner
  | 0, _, _, _, _, _ => .unfinished
  | depth + 1, object, parent, selections, path, nullable =>
    let collected := scope.collect object selections
    .reportAll (collected.missing.map (missingFragment path))
      (.together ⟨.object collected.keys, nullable⟩
        (collected.groups.map (scope.planGroup (planObject depth) object parent path)))

/-- Plans the root of a request, with objects inside it at most `depth` deep. -/
def agenda (depth : Nat) (root : ObjectType) (selections : List Selection) (serial : Bool) :
    Agenda :=
  let collected := scope.collect root selections
  ⟨collected.missing.map (missingFragment []), collected.keys,
    collected.groups.map (scope.planGroup (scope.planObject depth) root none []), serial⟩

end Scope

end Trellis
