import Trellis.Execution.Call
import Trellis.Schema.Configuration

/-!
When calls act and end.

A timetable follows calls on the workers of a schema. Calls that do not block are under way as soon
as they can be made. A blocking call waits for an idle worker, in the order of arrival, and
occupies it until it ends; handing it over takes a nanosecond. An execution that runs out of time
abandons its calls, but workers that are occupied come back only when their calls end.
-/

namespace Trellis

/-- The idle workers of a schema, and the nanoseconds until occupied ones come back. Workers that
never come back are not counted. -/
structure Workers where
  idle : Nat
  returning : List Nat
deriving DecidableEq, Repr

/-- At least one worker is there. -/
def Workers.ofConfiguration (c : Configuration) : Workers := ⟨max 1 c.blockingWorkers, []⟩

/-- Something under way: when it ends, whether it occupies a worker, and the calls to be made then.
A call of an abandoned execution has none. -/
structure Underway where
  ends : Nat
  occupies : Bool
  after : Option (List Call)

/-- The calls of an execution at some nanosecond after its start. -/
structure Timetable where
  clock : Nat
  idle : Nat
  /-- Blocking calls that no worker has yet. -/
  waiting : Std.Queue Call
  /-- Ordered by the time of the end. -/
  underway : List Underway
  endless : Bool
  /-- The times at which calls first wrote to the journal. -/
  written : List (Path × Nat)

namespace Timetable

/-- Puts an entry behind those that end no later. -/
def enter (u : Underway) : List Underway → List Underway
  | [] => [u]
  | v :: rest => if v.ends ≤ u.ends then v :: enter u rest else u :: v :: rest

def start (w : Workers) : Timetable :=
  ⟨0, w.idle, .empty, w.returning.foldl (fun us ends => enter ⟨ends, true, none⟩ us) [], false, []⟩

variable (t : Timetable)

/-- Notes when a call that starts at some time writes. -/
def note (path : Path) (starts : Nat) : Option Nat → Timetable
  | some writes => { t with written := t.written ++ [(path, starts + writes)] }
  | none => t

mutual

/-- Makes a call. -/
def make (t : Timetable) : Call → Timetable
  | ⟨path, .blocking, takes, writes, after⟩ =>
    { t with waiting := t.waiting.enqueue ⟨path, .blocking, takes, writes, after⟩ }
  | ⟨path, _, takes, writes, after⟩ =>
    let t := t.note path t.clock writes
    match takes with
    | none => { t with endless := true }
    | some 0 => makeAll t after
    | some n => { t with underway := enter ⟨t.clock + n, false, some after⟩ t.underway }

def makeAll (t : Timetable) : List Call → Timetable
  | [] => t
  | call :: calls => makeAll (make t call) calls

end

def handOver (call : Call) : Timetable :=
  let starts := t.clock + 1
  let t := { t with idle := t.idle - 1 }.note call.path starts call.writes
  match call.takes with
  | none => { t with endless := true }
  | some n => { t with underway := enter ⟨starts + n, true, some call.after⟩ t.underway }

/-- Hands over so many of the waiting calls. -/
def assignUpTo : Nat → Timetable → Timetable
  | 0, t => t
  | n + 1, t =>
    match t.waiting.dequeue? with
    | none => t
    | some (call, rest) => assignUpTo n ({ t with waiting := rest }.handOver call)

/-- Hands over waiting calls as long as workers are idle. -/
def assign : Timetable := assignUpTo t.idle t

/-- Ends what ends first. -/
def advance : Timetable :=
  match t.underway with
  | [] => t
  | u :: rest =>
    let t := { t with
      clock := u.ends
      underway := rest
      idle := if u.occupies then t.idle + 1 else t.idle }
    (t.makeAll (u.after.getD [])).assign

/-- Whether all calls of the execution have ended. -/
def isDone : Bool := !t.endless && t.waiting.isEmpty && t.underway.all (·.after.isNone)

/-- Goes on until all calls have ended, nothing more will end, or the time is up; at most so many
calls end. -/
def follow (limit : Option Nat) : Nat → Timetable → Timetable
  | 0, t => t
  | n + 1, t =>
    if t.isDone then t
    else
      match t.underway with
      | [] => t
      | u :: _ => if limit.any (· < u.ends) then t else follow limit n t.advance

/-- Follows calls that can be made at once. -/
def followAll (limit : Option Nat) (calls : List Call) : Timetable :=
  follow limit (Call.sizeAll calls + t.underway.length) (t.makeAll calls).assign

/-- Follows calls one after another, each with all that are made because of it. -/
def followInTurn (limit : Option Nat) (t : Timetable) : List Call → Timetable
  | [] => t
  | call :: calls =>
    let t := t.followAll limit [call]
    if t.isDone then followInTurn limit t calls else t

/-- Ranks calls by the time at which they first wrote. -/
def ranking (path : Path) : Nat := (t.written.lookup path).getD 0

def workersAt (time : Nat) : Workers :=
  ⟨t.idle, (t.underway.filter (·.occupies)).map fun u => u.ends - time⟩

end Timetable

end Trellis
