import Trellis.Execution.Request
import Trellis.Value.Json

/-!
Responses as JSON.
-/

namespace Trellis

namespace PathSegment

def toJson : PathSegment → Json
  | .field key => .string key
  | .index i => .integer i

end PathSegment

/-- Lines and columns count from one. -/
def Position.toJson (p : Position) : Json :=
  .object [("line", .integer (p.line + 1 : Nat)), ("column", .integer (p.column + 1 : Nat))]

/-- Further data is left out if it is null. -/
def ExecutionError.toJson (e : ExecutionError) : Json :=
  .object ([("message", .string e.error.message), ("locations", .array [e.location.toJson]),
    ("path", .array (e.path.map PathSegment.toJson))] ++
      if e.error.extensions.isNull then [] else [("extensions", e.error.extensions.toJson)])

namespace RequestError

/-- The message that a response shows. -/
def publicMessage : RequestError → String
  | .noOperation => "Must provide an operation"
  | .multipleOperations => "Must provide operation name if query contains multiple operations"
  | .unknownOperation => "Unknown operation"
  | e => e.message

/-- A response without data. -/
def response (e : RequestError) : Json :=
  .object [("errors", .array [.object [("message", .string e.publicMessage)]])]

end RequestError

namespace Outcome

def ofError (error : FieldError) : Outcome := ⟨.null, [.atOrigin error], []⟩

/-- A response with data, and with errors if there are any. -/
def response (o : Outcome) : Json :=
  .object (("data", o.data.toJson) ::
    if o.errors.isEmpty then [] else [("errors", .array (o.errors.map ExecutionError.toJson))])

end Outcome

end Trellis
