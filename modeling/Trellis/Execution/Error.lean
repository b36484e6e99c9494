import Trellis.Document.Basic
import Trellis.FieldError

/-!
Errors of an execution: failures of fields together with their place in the query and in the
response. The errors of a response are sorted by these places and by their messages, so their order
does not tell in which order they came up.
-/

namespace Trellis

/-- A step from a response value to one of its parts. -/
inductive PathSegment where
  | field (key : String)
  | index (i : Nat)
deriving DecidableEq, Repr

namespace PathSegment

def text : PathSegment → String
  | .field key => key
  | .index i => toString i

/-- Fields come before indices. -/
def compare : PathSegment → PathSegment → Ordering
  | .field a, .field b => Ord.compare a b
  | .field _, .index _ => .lt
  | .index _, .field _ => .gt
  | .index i, .index j => Ord.compare i j

end PathSegment

/-- The steps from the root of a response. -/
abbrev Path := List PathSegment

/-- Paths are compared step by step; a shorter one comes before its extensions. -/
def Path.compare : Path → Path → Ordering
  | [], [] => .eq
  | [], _ :: _ => .lt
  | _ :: _, [] => .gt
  | a :: as, b :: bs => (a.compare b).then (Path.compare as bs)

structure ExecutionError where
  location : Position
  path : Path
  error : FieldError
  kind : ErrorKind

namespace ExecutionError

/-- An error at the start of the query and the root of the response. -/
def atOrigin (error : FieldError) : ExecutionError := ⟨.origin, [], error, .resolver⟩

def compareLocation (p q : Position) : Ordering :=
  (Ord.compare p.line q.line).then (Ord.compare p.column q.column)

/-- Errors are ordered by location, path and message. -/
def compare (a b : ExecutionError) : Ordering :=
  (compareLocation a.location b.location).then
    ((Path.compare a.path b.path).then (Ord.compare a.error.message b.error.message))

/-- Sorts errors; equal ones keep their order. -/
def sort (errors : List ExecutionError) : List ExecutionError :=
  errors.mergeSort fun a b => (compare a b).isLE

end ExecutionError

end Trellis
