import Trellis.Schema.Configuration

/-!
The workers that blocking calls run on.

All executions of one schema share its permits. A call waits for a permit, is handed to a thread
and runs there; the permit comes back when the call ends, however it ends. An execution that is
abandoned gives up the calls that no thread has yet, but a call that was handed over goes on and
keeps its permit.
-/

namespace Trellis

/-- How far a blocking call is. -/
inductive CallStage where
  | waiting
  | granted
  | handed
  | running
  | ended
deriving DecidableEq, Repr

namespace CallStage

/-- Whether a call has a permit: from the moment it is granted until the call ends. -/
def holdsPermit : CallStage → Bool
  | .granted | .handed | .running => true
  | .waiting | .ended => false

/-- Whether a thread has a call, and will keep it until the call ends. -/
def isHandedOver : CallStage → Bool
  | .handed | .running => true
  | .waiting | .granted | .ended => false

/-- Whether a call is given up together with its execution. -/
def isAbandonable : CallStage → Bool
  | .waiting | .granted => true
  | .handed | .running | .ended => false

end CallStage

/-- A blocking call of one of the executions. -/
structure BlockingCall where
  execution : Nat
  stage : CallStage
deriving DecidableEq, Repr

/-- Gives up a call of an abandoned execution, unless a thread has it. -/
def BlockingCall.abandon (execution : Nat) (call : BlockingCall) : BlockingCall :=
  if call.execution = execution ∧ call.stage.isAbandonable then { call with stage := .ended }
  else call

/-- The permits that are free, and every call that was submitted. -/
structure WorkerPool where
  free : Nat
  calls : List BlockingCall
deriving DecidableEq, Repr

/-- How a call ends on its thread. A call that breaks down unwinds, and gives up what it has. -/
inductive CallEnding where
  | value
  | failure
  | breakdown
deriving DecidableEq, Repr

namespace WorkerPool

/-- What happens to a pool. Calls are known by their place in the order of submission. -/
inductive Event where
  | submit (execution : Nat)
  | grant (call : Nat)
  | handOver (call : Nat)
  | start (call : Nat)
  | finish (call : Nat) (ending : CallEnding)
  /-- A thread that shuts down drops a call it has not started. -/
  | drop (call : Nat)
  | abandon (execution : Nat)

/-- The pool of a schema before any call. At least one call may always run. -/
def ofConfiguration (c : Configuration) : WorkerPool := ⟨max 1 c.blockingWorkers, []⟩

variable (p : WorkerPool)

def held : Nat := p.calls.countP (·.stage.holdsPermit)

def count (stage : CallStage) : Nat := p.calls.countP (·.stage = stage)

def running : Nat := p.count .running

/-- Moves a call from one stage to another; nothing if it is not at that stage. -/
def move? (call : Nat) (source target : CallStage) (free : Nat) : Option WorkerPool := do
  let c ← p.calls[call]?
  if c.stage = source then some ⟨free, p.calls.set call { c with stage := target }⟩ else none

/-- The pool after an event; nothing if the event cannot happen. -/
def step? : Event → Option WorkerPool
  | .submit execution => some { p with calls := p.calls ++ [⟨execution, .waiting⟩] }
  | .grant call => if p.free = 0 then none else p.move? call .waiting .granted (p.free - 1)
  | .handOver call => p.move? call .granted .handed p.free
  | .start call => p.move? call .handed .running p.free
  | .finish call _ => p.move? call .running .ended (p.free + 1)
  | .drop call => p.move? call .handed .ended (p.free + 1)
  | .abandon execution =>
    let returned := p.calls.countP fun c => c.execution = execution ∧ c.stage = .granted
    some ⟨p.free + returned, p.calls.map (·.abandon execution)⟩

/-- The pool after some events, one after another; nothing if one of them cannot happen. -/
def run? (p : WorkerPool) : List Event → Option WorkerPool
  | [] => some p
  | event :: events => (p.step? event).bind fun q => q.run? events

/-- The call that an event takes from its thread. -/
def Event.ends? : Event → Option Nat
  | .finish call _ | .drop call => some call
  | _ => none

end WorkerPool

end Trellis
