import Trellis.Execution.Error
import Trellis.Resolver.Basic
import Trellis.Value.Basic

/-!
Plans: what remains to be done for a response value.

A plan is a tree of calls and of parts that are put together. The parts of a list or of an object
may be carried out in any order; nothing in a plan depends on the order that is chosen. The result
of a plan is a value, or nothing if the value is not allowed to be null and failed, so that what it
belongs to becomes null. The root of a request is an agenda: its fields are carried out in any
order, or one after another.
-/

namespace Trellis

/-- What the parts of a plan make up. -/
inductive Assembly where
  | object (keys : List String)
  | list
deriving DecidableEq, Repr

/-- How parts are put together, and whether the whole may be null. -/
structure Frame where
  assembly : Assembly
  nullable : Bool
deriving DecidableEq, Repr

inductive Plan where
  | done (result : Option Value)
  | report (error : ExecutionError) (rest : Plan)
  /-- Calls the resolver of the field at a path and goes on with what it hands out. -/
  | invoke (path : Path) (mode : ResolverMode) (action : Action)
      (next : Except FieldError Output → Plan)
  /-- Goes on after a transformation of the field at a path, counted from zero, was called. -/
  | transformed (path : Path) (index : Nat) (rest : Plan)
  | together (frame : Frame) (parts : List Plan)
  /-- The part of a plan that is nested too deep to be laid out. -/
  | unfinished

namespace Plan

/-- The path of the call that a plan starts with, if it starts with one. -/
def entry? : Plan → Option Path
  | .report _ rest => entry? rest
  | .transformed _ _ rest => entry? rest
  | .invoke path _ _ _ => some path
  | _ => none

def reportAll (errors : List ExecutionError) (rest : Plan) : Plan := errors.foldr .report rest

end Plan

/-- The plan of a request: errors of its root, the keys and the plans of its fields, and whether the
fields are carried out one after another. -/
structure Agenda where
  errors : List ExecutionError
  keys : List String
  parts : List Plan
  serial : Bool

end Trellis
