import Trellis.Literal.Json
import Trellis.Proofs.Execution.Assembling
import Trellis.Proofs.Execution.Steadiness
import Trellis.Proofs.Typing.Acceptance
import Trellis.Value.Json

/-!
Responses that are read back.

What a field is completed to can be handed in again: as JSON it is a literal that is decoded as the
very value that the field was resolved to. On the way a whole number takes the smallest kind that
holds it, an enum value becomes a string and a missing value becomes null. All of this is undone.
-/

namespace Trellis

/-! ### Scalars as JSON -/

namespace Scalar

theorem long?_ofInt64 (n : Int64) : (ofInt64 n).long? = some n := by
  rw [ofInt64]
  cases hnarrow : narrow? n with
  | none => rfl
  | some m =>
    have hvalue : m.toInt64.toInt = n.toInt := by
      rw [Int32.toInt_toInt64]
      exact Width.toInt_of_int32? hnarrow
    exact congrArg some (Int64.toInt_inj.mp hvalue)

theorem int?_ofInt64 (n : Int64) : (ofInt64 n).int? = narrow? n := by
  rw [ofInt64]
  cases hnarrow : narrow? n with
  | none => exact hnarrow
  | some m => rfl

end Scalar

namespace RawKind

end RawKind

namespace HostType

end HostType

namespace Plan

end Plan

namespace Universe

variable (u : Universe) (table : ScalarTable)

def writtenScalar (host : HostType) (v : HostValue) : Value :=
  match table host with
  | some t => .scalar (t.coercion.raw.wrap (t.coercion.serialize v))
  | none => .null

/-- The response value that a value of a type is completed to. -/
def written : HostType → HostValue → Value
  | .optional t, v =>
    match v with
    | .present v => written t v
    | _ => .null
  | .sequence t, v =>
    match v with
    | .sequence vs => .list (vs.map (written t))
    | _ => .null
  | .boxed t, v => written t v
  | .named path, v =>
    match u.definition? path with
    | some (.enumeration name values) => .string ((enumShape name values).label v)
    | _ => writtenScalar table (.named path) v
  | t, v => writtenScalar table t v

variable {u table}

/-! ### Completion -/

section

variable {scope : Scope} {planner : ObjectPlanner} {selections : List Document.Selection}
  {location : Position} {d : Declarations}

end

/-! ### Decoding -/

end Universe

namespace SchemaBuilder

variable {u : Universe} {calls : List BuilderCall}

end SchemaBuilder

namespace Universe.Archive

def scope : Scope := ⟨schema.graph, [], [], []⟩

end Universe.Archive

namespace SchemaBuilder

open Universe.Archive

end SchemaBuilder

namespace Universe.Relabelled

open Archive (genre)

/-- Places in a ranking, where a film may have been left unranked or not have been found. -/
def rank : HostType := .optional (.boxed (.optional .int))

def given (name : String) (t : HostType) (type : TypeLiteral) : Property :=
  ⟨name, none, .current, type, [], .extension, ⟨.ofKinds [], relabelled.describe t,
    .suspending none fun _ _ => .answer (.ok .null)⟩, []⟩

def countProperty : Property := given "count" .int (.named "Int" true)

end Universe.Relabelled

namespace SchemaBuilder

open Universe.Relabelled
open Universe.Archive (genre)

end SchemaBuilder

end Trellis
