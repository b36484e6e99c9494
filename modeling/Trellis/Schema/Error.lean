/-!
Why declarations do not make up a schema. Each cause names the type, property or union it is about.
-/

namespace Trellis

inductive SchemaError where
  /-- Two types were registered under one name. -/
  | duplicateTypeName (name : String)
  /-- Two properties of one type share a name. -/
  | duplicateProperty (typeName property : String)
  /-- A property resolves to a function. -/
  | functionType (signature typeName property : String)
  /-- A type has parameters that are not resolved. -/
  | genericType (typeName : String)
  /-- A scalar is used that was not declared. -/
  | unknownScalar (typeName : String)
  /-- A scalar was declared without one of its functions. -/
  | incompleteScalar (name : String)
  /-- A customization refers to a property that the type does not have. -/
  | unknownProperty (typeName property : String)
  /-- A property or transformation has no function. -/
  | missingResolver (typeName property : String)
  /-- The number of argument names is not that of the arguments. -/
  | argumentNames (typeName property : String) (expected found : Nat)
  /-- Two functions of one property bind one argument to different types. -/
  | conflictingArgument (typeName property argument first second : String)
  /-- A transformation takes values of another type than its property resolves to. -/
  | transformationType (typeName property expected found : String)
  /-- A property refers to a union that is not declared. -/
  | unknownUnion (name : String)
  /-- A union property lacks its union, or does not resolve to members. -/
  | unionReturnType (typeName property : String)
  /-- A member of a union is no object type. -/
  | invalidUnionMember (union member : String)
  /-- A union has no members. -/
  | emptyUnion (name : String)
  /-- A type is used where its kind does not fit. -/
  | invalidTypeUsage (typeName usage : String)
deriving DecidableEq, Repr

namespace SchemaError

def message : SchemaError → String
  | .duplicateTypeName name => s!"Type name \"{name}\" is used by more than one type"
  | .duplicateProperty typeName property =>
    s!"Property \"{property}\" is declared more than once on \"{typeName}\""
  | .functionType signature typeName property =>
    s!"Cannot handle function {signature} as Object type " ++
      s!"(property \"{property}\" of \"{typeName}\")"
  | .genericType typeName => s!"Generic types are not supported by GraphQL, found {typeName}"
  | .unknownScalar typeName => s!"No scalar is registered for {typeName}"
  | .incompleteScalar name =>
    s!"Scalar \"{name}\" needs both a serialize and a deserialize function"
  | .unknownProperty typeName property => s!"Type \"{typeName}\" has no property \"{property}\""
  | .missingResolver typeName property =>
    s!"No resolver is declared for \"{property}\" of \"{typeName}\""
  | .argumentNames typeName property expected found =>
    s!"\"{property}\" of \"{typeName}\" names {found} argument(s), " ++
      s!"but its function takes {expected}"
  | .conflictingArgument typeName property argument first second =>
    s!"Argument \"{argument}\" of \"{property}\" on \"{typeName}\" " ++
      s!"is declared as both {first} and {second}"
  | .transformationType typeName property expected found =>
    s!"Transformation of \"{property}\" on \"{typeName}\" expects {found}, " ++
      s!"but the property resolves to {expected}"
  | .unknownUnion name => s!"Union \"{name}\" is not declared"
  | .unionReturnType typeName property =>
    s!"Property \"{property}\" of \"{typeName}\" must declare a union return type " ++
      "and resolve to UnionMember values"
  | .invalidUnionMember union member =>
    s!"Union \"{union}\" can only contain object types, found {member}"
  | .emptyUnion name => s!"Union \"{name}\" has no members"
  | .invalidTypeUsage typeName usage => s!"{typeName} cannot be used as {usage}"

end SchemaError

end Trellis
