import Trellis.Resolver.Basic
import Trellis.Studio.Types

/-!
Functions of the studio: parameters, a result type and a body. They serve as resolvers of root
fields and of properties.
-/

namespace Trellis.Studio

structure Routine where
  parameters : List Parameter
  returns : HostType
  body : Body

def arg (t : HostType) : Parameter := types.argument t

/-- The failure of a body that is called with other arguments than it declares. -/
def mismatch : FieldError := Bound.mismatch

def answer (t : HostType) (result : Except FieldError HostValue) : Suspension :=
  .answer (result.map (types.erase t))

namespace Routine

/-- A function that answers at once. -/
def ofBody (parameters : List Parameter) (returns : HostType)
    (body : HostValue → List Bound → Except FieldError HostValue) : Routine :=
  ⟨parameters, returns, .suspending fun v bounds => answer returns (body v bounds)⟩

def blocking (r : Routine) (receiver : Option HostType) : Resolver :=
  ⟨.ofKinds r.parameters, types.describe r.returns, .blocking receiver r.body.run⟩

/-- A suspending resolver, which may sleep first. A function that can only block still blocks. -/
def suspending (r : Routine) (receiver : Option HostType) (milliseconds : Nat) : Resolver :=
  match r.body with
  | .blocking _ => r.blocking receiver
  | .suspending run =>
    ⟨.ofKinds r.parameters, types.describe r.returns, .suspending receiver fun v bounds =>
      if milliseconds = 0 then run v bounds else .wait milliseconds (run v bounds)⟩

end Routine

/-! ### Context -/

def leadType : HostType := ours "Prefix"

def factorType : HostType := ours "Factor"

def journalType : HostType := ours "Journal"

/-- The text that a context puts in front of others. -/
def lead? (c : Context) : Option String :=
  match c.get? leadType with
  | some (.text s) => some s
  | _ => none

/-- The number that a context multiplies others with; one unless it is given. -/
def factor (c : Context) : Int32 :=
  match c.get? factorType with
  | some (.int n) => n
  | _ => 1

def hasJournal (c : Context) : Bool := (c.get? journalType).isSome

/-! ### Values -/

def actorValue (name : String) (age : Int32) : HostValue :=
  .record [("name", .text name), ("age", .int age)]

def nameOf (v : HostValue) : String :=
  match v.field "name" with
  | .text s => s
  | _ => ""

def ageOf (v : HostValue) : Int32 :=
  match v.field "age" with
  | .int n => n
  | _ => 0

def nodeValue (id : Int32) (parent : HostValue) : HostValue :=
  .record [("id", .int id), ("parent", parent), ("kids", .sequence [])]

def nodeId (v : HostValue) : Int32 :=
  match v.field "id" with
  | .int n => n
  | _ => 0

/-- The whole numbers from zero up to a bound. -/
def numbersBelow (n : Int32) : List Int32 :=
  (List.range n.toInt.toNat).map fun (i : Nat) => Int32.ofInt i

end Trellis.Studio
