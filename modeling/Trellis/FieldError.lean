import Trellis.Value.Basic

/-!
Failures of single fields.

A failure has a message for the reader and may carry a value with further data; null stands for no
further data.
-/

namespace Trellis

structure FieldError where
  message : String
  extensions : Value

namespace FieldError

/-- A failure without further data. -/
def ofMessage (message : String) : FieldError := ⟨message, .null⟩

/-- Puts a text in front of the message and keeps the data. -/
def prefixed (lead : String) (e : FieldError) : FieldError :=
  { e with message := lead ++ e.message }

/-- A value is of another type than its receiver works on. -/
def unexpectedType (expected : String) : FieldError :=
  .ofMessage s!"Expected a value of type {expected}"

end FieldError

/-- Stages of resolving a field at which it may fail. -/
inductive ErrorKind where
  | resolver
  | argumentBinding
  | unknownField
  | nullViolation
  | coercion
deriving DecidableEq, Repr

end Trellis
