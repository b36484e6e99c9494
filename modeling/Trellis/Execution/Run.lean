import Trellis.Execution.Call
import Trellis.Execution.Plan
import Trellis.Execution.Slots

/-!
Carrying out plans.

Parts that may be carried out in any order are taken by the rank of the calls they start with, and
among equals by their place. A call that never ends leaves no value, and nothing is done after it.
-/

namespace Trellis

/-- What an execution has written so far. The latest error comes first. -/
structure Progress where
  journal : List String
  errors : List ExecutionError

/-- The result of a plan, the calls that were made for it, and what was written up to its end. -/
structure Ended where
  result : Option Value
  calls : List Call
  progress : Progress

/-- Carries out a plan; nothing if the plan was not laid out in full. -/
abbrev Runner := Progress → Option Ended

/-- Ranks of calls by their paths. -/
abbrev Ranking := Path → Nat

/-- What the parts of a plan have come to so far, and whether one of them failed. -/
structure Tray where
  slots : Slots
  failed : Bool

namespace Tray

def ofSize (n : Nat) : Tray := ⟨.ofSize n, false⟩

def add (t : Tray) (index : Nat) : Option Value → Tray
  | some value => { t with slots := t.slots.fill index value }
  | none => { t with failed := true }

def assemble (t : Tray) (frame : Frame) : Option Value :=
  if t.failed then (if frame.nullable then some .null else none)
  else
    match frame.assembly with
    | .object keys => some (.object (t.slots.toObject keys))
    | .list => some (.list t.slots.toList)

end Tray

/-- The parts that have been carried out so far. The latest call comes first. -/
structure Gathered where
  tray : Tray
  calls : List Call
  progress : Progress

namespace Gathered

def start (size : Nat) (progress : Progress) : Gathered := ⟨.ofSize size, [], progress⟩

def add (g : Gathered) (index : Nat) (e : Ended) : Gathered :=
  ⟨g.tray.add index e.result, e.calls.reverseAux g.calls, e.progress⟩

end Gathered

/-- Carries out numbered parts in the given order. -/
def Runner.gather : List (Nat × Runner) → Gathered → Option Gathered
  | [], g => some g
  | (index, runner) :: rest, g => do
    let e ← runner g.progress
    gather rest (g.add index e)

/-- Carries out parts and puts them together. -/
def Runner.assemble (frame : Frame) (parts : List (Nat × Runner)) : Runner := fun progress => do
  let g ← gather parts (.start parts.length progress)
  return ⟨g.tray.assemble frame, g.calls.reverse, g.progress⟩

namespace Runner

def inPlace (runners : List Runner) : List (Nat × Runner) :=
  runners.zipIdx.map fun (runner, i) => (i, runner)

/-- Numbers parts and orders them by their ranks. -/
def inOrder (ranks : List Nat) (runners : List Runner) : List (Nat × Runner) :=
  ((ranks.zip runners.zipIdx).mergeSort fun a b => a.1 ≤ b.1).map fun (_, runner, i) => (i, runner)

end Runner

namespace Plan

def rank (ranking : Ranking) (plan : Plan) : Nat := (plan.entry?.map ranking).getD 0

mutual

def run (ranking : Ranking) : Plan → Runner
  | .done result => fun progress => some ⟨result, [], progress⟩
  | .report error rest => fun progress =>
    run ranking rest { progress with errors := error :: progress.errors }
  | .invoke path mode action next => fun progress =>
    match action.perform? progress.journal with
    | none => some ⟨none, [⟨path, mode, none, action.writesAfter?, []⟩], progress⟩
    | some ending => do
      let e ← run ranking (next ending.result) { progress with journal := ending.journal }
      let call : Call := ⟨path, mode, some ending.elapsed, action.writesAfter?, e.calls⟩
      return { e with calls := [call] }
  | .transformed _ _ rest => run ranking rest
  | .together frame parts =>
    Runner.assemble frame (Runner.inOrder (parts.map (rank ranking)) (runAll ranking parts))
  | .unfinished => fun _ => none

def runAll (ranking : Ranking) : List Plan → List Runner
  | [] => []
  | part :: parts => run ranking part :: runAll ranking parts

end

mutual

/-- The plan with a call that never ends in the place of every part that is not laid out. -/
def begun : Plan → Plan
  | .done result => .done result
  | .report error rest => .report error (begun rest)
  | .invoke path mode action next => .invoke path mode action fun result => begun (next result)
  | .transformed path index rest => .transformed path index (begun rest)
  | .together frame parts => .together frame (begunAll parts)
  | .unfinished => .invoke [] .native .hang fun _ => .unfinished

def begunAll : List Plan → List Plan
  | [] => []
  | part :: parts => begun part :: begunAll parts

end

end Plan

/-- The agenda with a call that never ends in the place of every part that is not laid out. -/
def Agenda.begun (agenda : Agenda) : Agenda := { agenda with parts := Plan.begunAll agenda.parts }

/-- Carries out an agenda. Its root may be null. -/
def Agenda.run (agenda : Agenda) (ranking : Ranking) : Option Ended :=
  let runners := Plan.runAll ranking agenda.parts
  let ordered :=
    if agenda.serial then Runner.inPlace runners
    else Runner.inOrder (agenda.parts.map (Plan.rank ranking)) runners
  Runner.assemble ⟨.object agenda.keys, true⟩ ordered ⟨[], agenda.errors.reverse⟩

end Trellis
