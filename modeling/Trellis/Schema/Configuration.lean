/-!
Execution settings of a schema.
-/

namespace Trellis

/-- A span of time in nanoseconds. -/
structure Duration where
  nanoseconds : Nat
deriving DecidableEq, Repr

namespace Duration

/-- Pads digits with zeros in front and drops zeros at the end. -/
def fraction (digits width : Nat) : String :=
  let written := Nat.toDigits 10 digits
  let padded := List.replicate (width - written.length) '0' ++ written
  String.ofList ((padded.reverse.dropWhile (· = '0')).reverse)

/-- A number of units with what remains of them as a decimal fraction. -/
def inUnits (whole rest width : Nat) (unit : String) : String :=
  if rest = 0 then s!"{whole}{unit}" else s!"{whole}.{fraction rest width}{unit}"

/-- The duration in the largest unit that it fills at least once. -/
def text (d : Duration) : String :=
  let n := d.nanoseconds
  if 1000000000 ≤ n then inUnits (n / 1000000000) (n % 1000000000) 9 "s"
  else if 1000000 ≤ n then inUnits (n / 1000000) (n % 1000000) 6 "ms"
  else if 1000 ≤ n then inUnits (n / 1000) (n % 1000) 3 "µs"
  else s!"{n}ns"

end Duration

structure Configuration where
  /-- How many blocking resolvers may run at once. -/
  blockingWorkers : Nat
  workerThreads : Option Nat
  /-- Executions that take longer are abandoned. -/
  timeout : Option Duration
deriving DecidableEq, Repr

namespace Configuration

def default : Configuration := ⟨512, none, none⟩

/-- At least one blocking resolver may always run. -/
def withBlockingWorkers (c : Configuration) (workers : Nat) : Configuration :=
  { c with blockingWorkers := max 1 workers }

def withWorkerThreads (c : Configuration) (threads : Nat) : Configuration :=
  { c with workerThreads := some (max 1 threads) }

def withTimeout (c : Configuration) (limit : Duration) : Configuration :=
  { c with timeout := some limit }

def optional (text : Option String) : String :=
  match text with
  | some s => s!"Some({s})"
  | none => "None"

def text (c : Configuration) : String :=
  s!"SchemaConfiguration \x7b blocking_workers: {c.blockingWorkers}, " ++
    s!"worker_threads: {optional (c.workerThreads.map toString)}, " ++
    s!"timeout: {optional (c.timeout.map Duration.text)} \x7d"

end Configuration

end Trellis
