import Trellis.Resolver.Action
import Trellis.Resolver.Parameters

/-!
Resolvers and transformations.

A resolver computes the value of a field. It either reads a field of the parent value, or it is a
function: a blocking one, which occupies a worker while it runs, or a suspending one, which does
not. A function that is a property of a host type checks that the parent value is of that type
after its arguments are bound. A transformation maps the value of a field to another value of the
same type.
-/

namespace Trellis

/-- How a resolver is called. -/
inductive ResolverMode where
  | native
  | blocking
  | suspending
deriving DecidableEq, Repr

/-- What a resolver does. Functions of a root field have no receiver. -/
inductive Behaviour where
  | native (host : HostType) (read : HostValue → Output)
  | blocking (receiver : Option HostType) (run : HostValue → List Bound → Action)
  | suspending (receiver : Option HostType) (run : HostValue → List Bound → Suspension)

/-- The body of a function, which blocks or suspends. -/
inductive Body where
  | blocking (run : HostValue → List Bound → Action)
  | suspending (run : HostValue → List Bound → Suspension)

namespace Body

/-- What a body does on a receiver and bound arguments. -/
def run : Body → HostValue → List Bound → Action
  | .blocking run, v, bounds => run v bounds
  | .suspending run, v, bounds => (run v bounds).action

def behaviour (receiver : Option HostType) : Body → Behaviour
  | .blocking run => .blocking receiver run
  | .suspending run => .suspending receiver run

end Body

structure Resolver where
  parameters : Parameters
  returns : TypeRef
  behaviour : Behaviour

namespace Resolver

def mode (r : Resolver) : ResolverMode :=
  match r.behaviour with
  | .native .. => .native
  | .blocking .. => .blocking
  | .suspending .. => .suspending

def ofField (host : HostType) (field : ObjectField) : Resolver :=
  ⟨.ofKinds [], field.type, .native host field.read⟩

def missingReceiver : FieldError := .ofMessage "Property resolver invoked without a parent value"

/-- The parent value as a value of the receiver's type. -/
def receive (receiver : Option HostType) (parent : Option Erased) : Except FieldError HostValue :=
  match receiver, parent with
  | none, _ => .ok .nothing
  | some _, none => .error missingReceiver
  | some host, some e =>
    match e.downcast? host with
    | some v => .ok v
    | none => .error (.ofMessage s!"Expected a parent value of type {host.name}")

/-- What calling a resolver with bound arguments does. -/
def call (behaviour : Behaviour) (parent : Option Erased) (bounds : List Bound) : Action :=
  match behaviour with
  | .native host read =>
    .answer <| match parent with
      | none => .error missingReceiver
      | some e =>
        match e.downcast? host with
        | some v => .ok (read v)
        | none => .error (.unexpectedType host.name)
  | .blocking receiver run =>
    match receive receiver parent with
    | .ok v => run v bounds
    | .error e => .answer (.error e)
  | .suspending receiver run =>
    match receive receiver parent with
    | .ok v => (run v bounds).action
    | .error e => .answer (.error e)

/-- A function that has its receiver does what its body does. -/
theorem call_behaviour (body : Body) {receiver : Option HostType} {parent : Option Erased}
    {v : HostValue} (h : receive receiver parent = .ok v) (bounds : List Bound) :
    call (body.behaviour receiver) parent bounds = body.run v bounds := by
  cases body <;> simp [Body.behaviour, Body.run, call, h]

/-- Binds the arguments and calls the resolver. An argument that cannot be bound keeps it from being
called. -/
def start (r : Resolver) (parent : Option Erased) (provided : List (String × Literal))
    (table : ScalarTable) (context : Context) : Except CallError Action := do
  let bounds ← r.parameters.bind provided table context
  return call r.behaviour parent bounds

end Resolver

/-- A mapping of values of one host type. `valueType` is the type that its host type is described
as. Only transformations that come to their end are described: one that runs for ever, or breaks
down, keeps the request from being answered. -/
structure Transformation where
  host : HostType
  valueType : HostType
  parameters : Parameters
  recover : Output → Option HostValue
  apply : HostValue → List Bound → Except FieldError HostValue
  erase : HostValue → Output

namespace Transformation

/-- Binds the arguments, takes the value back and maps it. -/
def transform (t : Transformation) (output : Output) (provided : List (String × Literal))
    (table : ScalarTable) (context : Context) : Except CallError Output := do
  let bounds ← t.parameters.bind provided table context
  match t.recover output with
  | none => .error (.failed (.unexpectedType t.host.name))
  | some v => ((t.apply v bounds).map t.erase).mapError .failed

end Transformation

namespace Universe

variable (u : Universe)

def argument (t : HostType) : Parameter :=
  .argument (u.describe t) fun table l => u.decode table l t

def transformation (t : HostType) (kinds : List Parameter)
    (apply : HostValue → List Bound → Except FieldError HostValue) : Transformation where
  host := t
  valueType := (u.describe t).host
  parameters := .ofKinds kinds
  recover := u.recover t
  apply := apply
  erase := u.erase t

end Universe

end Trellis
