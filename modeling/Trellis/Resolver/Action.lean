import Trellis.FieldError
import Trellis.Host.Value

/-!
What a resolver does once it is called.

Most resolvers answer at once. Others take time, write to the journal that an execution shares among
its resolvers, or never come to an end. One that blocks may break down: its worker lives on and
answers with a failure. One that suspends runs within the execution and would take it down, so that
the request has no answer at all: a suspension is an action that does not break down.
-/

namespace Trellis

inductive Action where
  | answer (result : Except FieldError Output)
  | wait (milliseconds : Nat) (next : Action)
  /-- Writes an entry to the journal and goes on with the number of its entries. -/
  | append (entry : String) (next : Nat → Action)
  | hang
  | crash (reason : String)

namespace Action

/-- How an action ended: its result, the nanoseconds it took and the journal after it. -/
structure Ending where
  result : Except FieldError Output
  elapsed : Nat
  journal : List String

/-- The failure that stands for a breakdown. The reason is what the host says of it. That text may
differ from call to call, as it tells tasks apart; here it belongs to the action and stays the same. -/
def breakdown (reason : String) : FieldError := .ofMessage s!"Blocking resolver failed: {reason}"

/-- Carries out an action; nothing if it never ends. -/
def perform? : Action → List String → Option Ending
  | .answer result, journal => some ⟨result, 0, journal⟩
  | .wait milliseconds next, journal =>
    (perform? next journal).map fun e => { e with elapsed := e.elapsed + milliseconds * 1000000 }
  | .append entry next, journal => perform? (next (journal.length + 1)) (journal ++ [entry])
  | .hang, _ => none
  | .crash reason, journal => some ⟨.error (breakdown reason), 0, journal⟩

/-- Nanoseconds before an action first writes to the journal, if it does. -/
def writesAfter? : Action → Option Nat
  | .wait milliseconds next => (writesAfter? next).map (milliseconds * 1000000 + ·)
  | .append .. => some 0
  | _ => none

end Action

/-- What a resolver does that suspends. -/
inductive Suspension where
  | answer (result : Except FieldError Output)
  | wait (milliseconds : Nat) (next : Suspension)
  | append (entry : String) (next : Nat → Suspension)
  | hang

def Suspension.action : Suspension → Action
  | .answer result => .answer result
  | .wait milliseconds next => .wait milliseconds next.action
  | .append entry next => .append entry fun entries => (next entries).action
  | .hang => .hang

end Trellis
