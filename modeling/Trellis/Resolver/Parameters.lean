import Trellis.Host.Decoding
import Trellis.Resolver.Context

/-!
Parameters of resolvers and transformations.

A parameter takes either an argument of the query or the context. The declared argument names belong
to the argument parameters in order; binding stops at the first argument that cannot be decoded.
-/

namespace Trellis

/-- A parameter of a function. -/
inductive Parameter where
  | argument (type : TypeRef) (decode : ScalarTable → Literal → Except FieldError HostValue)
  | context

/-- What a parameter is bound to. -/
inductive Bound where
  | value (v : HostValue)
  | context (c : Context)
deriving Inhabited

/-- The failure of a function that is called with other arguments than it declares. -/
def Bound.mismatch : FieldError := .ofMessage "Bound arguments don't match the resolver signature"

/-- Failure of one call, before it is attached to a place in the response. -/
inductive CallError where
  | binding (argument : String) (error : FieldError)
  | failed (error : FieldError)

namespace CallError

def kind : CallError → ErrorKind
  | .binding .. => .argumentBinding
  | .failed _ => .resolver

/-- The failure to report; one of binding names its argument. -/
def error : CallError → FieldError
  | .binding argument error => error.prefixed s!"Invalid value for argument \"{argument}\": "
  | .failed error => error

end CallError

/-- The parameters of a function and the names of the arguments they are bound to. -/
structure Parameters where
  kinds : List Parameter
  names : List String

namespace Parameters

/-- Parameters whose arguments have no names yet. -/
def ofKinds (kinds : List Parameter) : Parameters := ⟨kinds, []⟩

def argumentTypes (kinds : List Parameter) : List TypeRef :=
  kinds.filterMap fun
    | .argument type _ => some type
    | .context => none

/-- Number of parameters that are bound to arguments. -/
def argumentCount (p : Parameters) : Nat := (argumentTypes p.kinds).length

/-- Names the arguments; nothing if their number does not fit. -/
def name? (p : Parameters) (names : List String) : Option Parameters :=
  if names.length = p.argumentCount then some ⟨p.kinds, names⟩ else none

def arguments (p : Parameters) : List (String × TypeRef) := p.names.zip (argumentTypes p.kinds)

/-- Binds parameters in order; arguments that are not given are null. -/
def bindKinds (provided : List (String × Literal)) (table : ScalarTable) (context : Context) :
    List Parameter → List String → Except CallError (List Bound)
  | [], _ => .ok []
  | .context :: kinds, names => do
    let bounds ← bindKinds provided table context kinds names
    return .context context :: bounds
  | .argument _ decode :: kinds, name :: names => do
    let v ← (decode table ((provided.lookup name).getD .null)).mapError (.binding name)
    let bounds ← bindKinds provided table context kinds names
    return .value v :: bounds
  | .argument .. :: _, [] =>
    .error (.failed (.ofMessage "Resolver declares more parameters than argument names"))

def bind (p : Parameters) (provided : List (String × Literal)) (table : ScalarTable)
    (context : Context) : Except CallError (List Bound) :=
  bindKinds provided table context p.kinds p.names

end Parameters

end Trellis
