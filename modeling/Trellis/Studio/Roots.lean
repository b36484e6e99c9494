import Trellis.Studio.Routine
import Trellis.Studio.Show
import Trellis.Text.Split

/-!
Resolvers of root fields of the studio.
-/

namespace Trellis.Studio

/-- A node with the given number of ancestors, which are numbered upwards. -/
def chainFrom (id : Int32) : Nat → HostValue
  | 0 => nodeValue id .absent
  | n + 1 => nodeValue id (.present (chainFrom (id + 1) n))

def chain (depth : Int32) : HostValue :=
  if depth ≤ 1 then nodeValue depth .absent else chainFrom 1 (depth.toInt.toNat - 1)

/-- The texts of arguments of the given types, with bars between them. -/
def showAll (ts : List HostType) (bounds : List Bound) : HostValue :=
  .text (Text.join "|" ((ts.zip bounds).map fun
    | (t, .value v) => «show» t v
    | (_, .context _) => "?"))

namespace Routine

def const (t : HostType) (v : HostValue) : Routine := .ofBody [] t fun _ _ => .ok v

def fail (t : HostType) (e : FieldError) : Routine := .ofBody [] t fun _ _ => .error e

def echo (t : HostType) : Routine := .ofBody [arg t] t fun
  | _, [.value v] => .ok v
  | _, _ => .error mismatch

def showing (ts : List HostType) : Routine :=
  .ofBody (ts.map arg) .text fun _ bounds => .ok (showAll ts bounds)

def sum : Routine := .ofBody [arg .int, arg .int] .long fun
  | _, [.value (.int a), .value (.int b)] => .ok (.long (a.toInt64 + b.toInt64))
  | _, _ => .error mismatch

def pair : Routine := .ofBody [arg .int, arg .text] .text fun
  | _, [.value (.int a), .value (.text b)] => .ok (.text s!"{a.toInt}/{b}")
  | _, _ => .error mismatch

def reverse : Routine :=
  .ofBody (List.replicate 5 (arg .int)) (.sequence .int) fun _ bounds =>
    .ok (.sequence (bounds.reverse.filterMap fun
      | .value v => some v
      | .context _ => none))

/-- The text that the context puts in front. -/
def leading : Routine := .ofBody [.context] .text fun
  | _, [.context c] =>
    match lead? c with
    | some s => .ok (.text s)
    | none => .error (.ofMessage "No prefix in context")
  | _, _ => .error mismatch

/-- Takes the context between two arguments. -/
def scaled : Routine := .ofBody [arg .int, .context, arg .text] .text fun
  | _, [.value (.int a), .context c, .value (.text b)] =>
    let lead := (lead? c).getD "-"
    .ok (.text s!"{lead}:{(a * factor c).toInt}:{b}")
  | _, _ => .error mismatch

/-- Writes to the journal of the context, if it has one, and returns its length. -/
def record (entry : String) : Routine := ⟨[.context], .int, .suspending fun
  | _, [.context c] =>
    if hasJournal c then .append entry fun n => answer .int (.ok (.int (Int32.ofInt n)))
    else answer .int (.ok (.int 0))
  | _, _ => .answer (.error mismatch)⟩

def range : Routine := .ofBody [arg .int] (.sequence .int) fun
  | _, [.value (.int n)] => .ok (.sequence ((numbersBelow n).map .int))
  | _, _ => .error mismatch

def ancestry : Routine := .ofBody [arg .int] node fun
  | _, [.value (.int n)] => .ok (chain n)
  | _, _ => .error mismatch

def nodes : Routine := .ofBody [arg .int] (.sequence node) fun
  | _, [.value (.int n)] => .ok (.sequence ((numbersBelow n).map (nodeValue · .absent)))
  | _, _ => .error mismatch

def endless : Routine := ⟨[], .boolean, .suspending fun _ _ => .hang⟩

def slow : Routine := ⟨[], .boolean, .suspending fun _ _ =>
  .wait 150 (answer .boolean (.ok (.boolean true)))⟩

def broken : Routine := ⟨[], .int, .blocking fun _ _ => .crash "the worker broke down"⟩

end Routine

/-- The functions of root fields that are fixed by their names. -/
def rootRoutines : List (String × Routine) :=
  [("sum2", .sum), ("pick2", .pair),
    ("opt3", .showing [.optional .int, .optional .text, .optional .boolean]),
    ("four", .showing [filmType, .sequence .int, testInput, .optional idScalar]),
    ("five", .reverse), ("six", .showing [.int, .long, .float, .boolean, .text, .id]),
    ("ctx", .leading), ("ctx_mid", .scaled), ("range", .range), ("chain", .ancestry),
    ("nodes", .nodes), ("never", .endless), ("stuck", .slow), ("panic", .broken)]

end Trellis.Studio
