import Trellis.Document.Grammar
import Trellis.Execution.Planning
import Trellis.Execution.Run
import Trellis.Execution.Timetable
import Trellis.Schema.Basic

/-!
Requests against a schema.

A request that cannot be executed is refused before any resolver is called. Otherwise failures of
single fields are reported next to the data.
-/

namespace Trellis

open Document

/-- Why a request is not executed, or not to its end. -/
inductive RequestError where
  | malformed
  | noOperation
  | multipleOperations
  | unknownOperation
  | unsupported (kind : OperationKind)
  | unknownVariableType (variableName typeName : String)
  | timeout (limit : Duration)
  | runtime (reason : String)
deriving DecidableEq, Repr

namespace RequestError

def message : RequestError → String
  | .malformed => "Malformed query"
  | .noOperation => "No operation provided"
  | .multipleOperations => "Multiple operations provided"
  | .unknownOperation => "Unknown operation name"
  | .unsupported kind => s!"Schema does not support {kind.text} operations"
  | .unknownVariableType variableName typeName =>
    s!"Variable \"${variableName}\" has unknown input type \"{typeName}\""
  | .timeout limit => s!"Execution timed out after {limit.text}"
  | .runtime reason => s!"Failed to start execution runtime: {reason}"

end RequestError

/-- A parsed request. -/
structure Request where
  document : Document
  operation : Option String
  values : Variables
  context : Context

/-- The data of an execution, its errors in order, and the entries of its journal. -/
structure Outcome where
  data : Value
  errors : List ExecutionError
  journal : List String

/-- The outcome of an agenda. A root that failed is null. -/
def Outcome.ofEnded (e : Ended) : Outcome :=
  ⟨e.result.getD .null, ExecutionError.sort e.progress.errors.reverse, e.progress.journal⟩

/-- Picks the operation to execute: the last one with the given name, or the only one of the
document. -/
def selectOperation (document : Document) (name : Option String) : Except RequestError Operation :=
  match name, document.operations with
  | none, [] => .error .noOperation
  | none, [operation] => .ok operation
  | none, _ => .error .multipleOperations
  | some name, operations =>
    match operations.reverse.find? (·.name = some name) with
    | some operation => .ok operation
    | none => .error .unknownOperation

/-- Checks that every variable of an operation has an input type, and gives variables their
defaults. -/
def coerceVariables (graph : TypeGraph) :
    List VariableDefinition → Variables → Except RequestError Variables
  | [], values => .ok values
  | definition :: rest, values =>
    let typeName := definition.type.innermost
    if ((graph.type? typeName).map TypeNode.isInput).getD false then
      coerceVariables graph rest <| match definition.default with
        | some value => values.orElse definition.name value
        | none => values
    else .error (.unknownVariableType definition.name typeName)

/-- What a request is executed from. -/
structure Opening where
  scope : Scope
  root : ObjectType
  operation : Operation

/-- Lays out an operation, with objects inside each other at most `depth` deep. Root fields of a
mutation are carried out one after another. -/
def Opening.agenda (o : Opening) (depth : Nat) : Agenda :=
  o.scope.agenda depth o.root o.operation.selections (o.operation.kind = .mutation)

namespace Schema

variable (s : Schema)

/-- The root that an operation starts from. -/
def root? : OperationKind → Option ObjectType
  | .query => s.graph.queryType?
  | .mutation => s.graph.mutationType?
  | .subscription => none

/-- Picks the operation of a request with its root, and checks its variables. -/
def opening (r : Request) : Except RequestError Opening := do
  let operation ← selectOperation r.document r.operation
  match s.root? operation.kind with
  | none => .error (.unsupported operation.kind)
  | some root =>
    let values ← coerceVariables s.graph operation.variableDefinitions r.values
    return ⟨⟨s.graph, r.document, values, r.context⟩, root, operation⟩

def limit? : Option Nat := s.configuration.timeout.map Duration.nanoseconds

/-- Follows the calls of an agenda on workers until they end or the time is up. -/
def timetable (workers : Workers) (serial : Bool) (calls : List Call) : Timetable :=
  let start := Timetable.start workers
  if serial then start.followInTurn s.limit? calls else start.followAll s.limit? calls

/-- Answers for an agenda that is not laid out in full. If the time is up before anything is reached
that is missing, the execution has timed out; otherwise nothing is known. -/
def cutOff? (workers : Workers) (agenda : Agenda) :
    Option (Except RequestError Outcome × Workers) := do
  let limit ← s.configuration.timeout
  let begun ← agenda.begun.run fun _ => 0
  let table := s.timetable workers agenda.serial begun.calls
  if table.endless then none else some (.error (.timeout limit), table.workersAt limit.nanoseconds)

/-- Carries out an agenda on workers and answers with the workers as they are afterwards. The calls
are known from carrying it out in place; it is carried out again in the order of the journal.
Nothing if the agenda has no end and there is no limit, or if it is not known how it ends. -/
def finish? (workers : Workers) (agenda : Agenda) :
    Option (Except RequestError Outcome × Workers) :=
  match agenda.run fun _ => 0 with
  | none => s.cutOff? workers agenda
  | some inPlace =>
    let table := s.timetable workers agenda.serial inPlace.calls
    match s.configuration.timeout with
    | some limit =>
      let timeout := some (.error (.timeout limit), table.workersAt limit.nanoseconds)
      if table.isDone then do
        let e ← agenda.run table.ranking
        if Call.anyEndless e.calls then timeout
        else some (.ok (.ofEnded e), table.workersAt table.clock)
      else timeout
    | none =>
      if Call.anyEndless inPlace.calls then none
      else do
        let e ← agenda.run table.ranking
        if Call.anyEndless e.calls then none else some (.ok (.ofEnded e), workers)

/-- Executes a request on workers. -/
def executeOn? (workers : Workers) (depth : Nat) (r : Request) :
    Option (Except RequestError Outcome × Workers) :=
  match s.opening r with
  | .error e => some (.error e, workers)
  | .ok opening => s.finish? workers (opening.agenda depth)

def workers : Workers := .ofConfiguration s.configuration

/-- Executes a request with objects inside each other at most `depth` deep; nothing if it neither
ends nor times out within that depth. -/
def execute? (depth : Nat) (r : Request) : Option (Except RequestError Outcome) :=
  (s.executeOn? s.workers depth r).map (·.1)

/-- Parses a query text and executes it on workers. -/
def executeTextOn? (workers : Workers) (depth : Nat) (source : String) (operation : Option String)
    (values : Variables) (context : Context) : Option (Except RequestError Outcome × Workers) :=
  match Document.parse? source with
  | none => some (.error .malformed, workers)
  | some document => s.executeOn? workers depth ⟨document, operation, values, context⟩

/-- The refusal of an execution that would wait for its end inside another one. -/
def nestedRuntime : RequestError :=
  .runtime "execute_sync was called from within an async runtime"

end Schema

end Trellis
