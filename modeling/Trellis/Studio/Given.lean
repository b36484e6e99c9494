import Trellis.Json.Number
import Trellis.Studio.Scalars
import Trellis.Studio.TypeExpression

/-!
Host values of the studio given as JSON.

What JSON says of a value depends on the type asked for: a record is an object with its fields, of
which missing ones stand for absent values, and a member of a union names its type.
-/

namespace Trellis.Json

/-- A value under a key is smaller than the object. -/
theorem sizeOf_lt_of_field? {key : String} {j v : Json} (h : j.field? key = some v) :
    sizeOf v < sizeOf j := by
  cases j with
  | object entries =>
    have := List.sizeOf_lt_of_mem (List.mem_reverse.1 (Entries.mem_of_lookup h))
    simp_all
    omega
  | _ => simp [field?] at h

end Trellis.Json

namespace Trellis.Studio

def typeAt? (j : Json) (key : String) : Option HostType :=
  ((j.field? key).bind Json.string?).bind typeOf?

/-- A value of a custom scalar. -/
def givenScalar? (host : HostType) (j : Json) : Option HostValue :=
  if host = uuid then j.string?.bind fun s => (Uuid.parse? s).map .text
  else if host = idScalar then do
    let literal ← (j.field? "literal").bind Json.string?
    let numeric ← (j.field? "numeric").bind Json.int32?
    some (idValue literal numeric)
  else if host = celsius then j.int32?.map .int
  else if host = stamp then j.int64?.map .long
  else if host = ratio then j.float?.map .float
  else if host = flag then j.boolean?.map .boolean
  else none

/-- The value that a missing field stands for. Types without values always have one. -/
def missing? : HostType → Option HostValue
  | .optional _ => some .absent
  | .boxed t | .shared t => missing? t
  | .named path =>
    match types.definition? path with
    | some .scalar | some (.enumeration ..) | some (.object ..) => none
    | _ => some .nothing
  | .generic path (.parameter _ (.parameter shape _)) =>
    match types.definition? path with
    | some .disguise => missing? shape
    | _ => some .nothing
  | .text | .id | .int | .long | .float | .boolean | .sequence _ | .member => none
  | _ => some .nothing

mutual

/-- The value of a type. -/
def given? (t : HostType) (j : Json) : Option HostValue :=
  match t with
  | .text | .id => j.string?.map .text
  | .int => j.int32?.map .int
  | .long => j.int64?.map .long
  | .float => j.float?.map .float
  | .boolean => j.boolean?.map .boolean
  | .optional t =>
    match j with
    | .null => some .absent
    | j => (given? t j).map .present
  | .sequence t =>
    match j with
    | .array items => (givenItems? t items).map .sequence
    | _ => none
  | .boxed t | .shared t => given? t j
  | .member => do
    let t ← typeAt? j "member"
    let v ← (match _h : j.field? "value" with
      | some v => given? t v
      | none => missing? t)
    some (.member (types.erase t v))
  | .named path =>
    match types.definition? path with
    | some .scalar => givenScalar? (.named path) j
    | some (.enumeration ..) => j.string?.map .variant
    | some (.object _ fields) =>
      match j with
      | .object entries => (givenFields? (.object entries) fields).map .record
      | _ => none
    | _ => some .nothing
  | .generic path (.parameter _ (.parameter shape _)) =>
    match types.definition? path with
    | some .disguise => given? shape j
    | _ => some .nothing
  | _ => some .nothing
termination_by (sizeOf j, sizeOf t, 0)
decreasing_by
  · exact Prod.Lex.right _ (Prod.Lex.left _ _ (by simp))
  · exact Prod.Lex.left _ _ (by simp)
  · exact Prod.Lex.right _ (Prod.Lex.left _ _ (by simp))
  · exact Prod.Lex.right _ (Prod.Lex.left _ _ (by simp))
  · exact Prod.Lex.left _ _ (Json.sizeOf_lt_of_field? _h)
  · exact Prod.Lex.right _ (Prod.Lex.left _ _ (by
      rw [HostType.named.sizeOf_spec]
      omega))
  · exact Prod.Lex.right _ (Prod.Lex.left _ _ (by
      rw [HostType.generic.sizeOf_spec, HostType.parameter.sizeOf_spec,
        HostType.parameter.sizeOf_spec]
      omega))

/-- The values of the items of a sequence. -/
def givenItems? (t : HostType) (items : List Json) : Option (List HostValue) :=
  match items with
  | [] => some []
  | item :: items => do
    let v ← given? t item
    let vs ← givenItems? t items
    some (v :: vs)
termination_by (sizeOf items, sizeOf t, 0)
decreasing_by
  all_goals
    refine Prod.Lex.left _ _ ?_
    rw [List.cons.sizeOf_spec]
    omega

/-- The values of the declared fields of a record. -/
def givenFields? (j : Json) (fields : List (String × HostType)) :
    Option (List (String × HostValue)) :=
  match fields with
  | [] => some []
  | (name, t) :: fields => do
    let v ← (match _h : j.field? name with
      | some v => given? t v
      | none => missing? t)
    let vs ← givenFields? j fields
    some ((name, v) :: vs)
termination_by (sizeOf j, 0, fields.length)
decreasing_by
  · exact Prod.Lex.left _ _ (Json.sizeOf_lt_of_field? _h)
  · exact Prod.Lex.right _ (Prod.Lex.right _ (by simp))

end

def givenAt? (t : HostType) (j : Json) (key : String) : Option HostValue :=
  match j.field? key with
  | some v => given? t v
  | none => missing? t

end Trellis.Studio
