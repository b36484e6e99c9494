import Trellis.Host.Universe
import Trellis.Literal.Weight

/-!
Decoding host values from literals.

Null is admitted by optional types alone. A list is decoded element by element, and a literal that
is no list stands for the list of that one element. The fields of an input object are decoded in
the order of their declaration, an absent one as null, and no others may be given.
-/

namespace Trellis.Universe

/-- Reads a builtin scalar by a view. -/
def decodeBuiltin (name : String) (view : Scalar → Option HostValue) (l : Literal) :
    Except FieldError HostValue :=
  match l.scalar?.bind view with
  | some v => .ok v
  | none => .error (.ofMessage s!"Expected \"{name}\", found {l.text}")

/-- An identifier is a string or a whole number of 32 bits. -/
def viewId (s : Scalar) : Option HostValue :=
  (s.string?.map .text).or (s.int?.map fun n => .text (toString n.toInt))

/-- Reads a custom scalar by the coercion declared for its host type. -/
def decodeScalar (table : ScalarTable) (host : HostType) (l : Literal) :
    Except FieldError HostValue :=
  match table host with
  | none => .error (.ofMessage s!"No scalar is registered for {host.name}")
  | some scalar =>
    match l.scalar? with
    | none => .error (.ofMessage s!"Expected \"{scalar.name}\", found {l.text}")
    | some raw => scalar.coercion.read raw

/-- An enum value is given by its name, plainly or as a string. -/
def decodeVariant (name : String) (values : List String) (l : Literal) :
    Except FieldError HostValue :=
  match (l.enum?).or l.string? with
  | some v =>
    if v ∈ values then .ok (.variant v)
    else .error (.ofMessage s!"Invalid value {l.text} for enum \"{name}\"")
  | none => .error (.ofMessage s!"Invalid value {l.text} for enum \"{name}\"")

/-- Refuses the first key that is not declared. -/
def checkKeys (name : String) (known : List String) (given : List String) :
    Except FieldError Unit :=
  match given.find? (· ∉ known) with
  | some key => .error (.ofMessage s!"Unknown field \"{key}\" on input type \"{name}\"")
  | none => .ok ()

/-- Host types without a literal form are refused. -/
def undecodable (host : HostType) : FieldError :=
  .ofMessage s!"Generic types are not supported by GraphQL, found {host.name}"

variable (u : Universe) (table : ScalarTable)

mutual

def decode (l : Literal) (t : HostType) : Except FieldError HostValue :=
  match t with
  | .text => decodeBuiltin "String" (fun s => s.string?.map .text) l
  | .int => decodeBuiltin "Int" (fun s => s.int?.map .int) l
  | .long => decodeBuiltin "Long" (fun s => s.long?.map .long) l
  | .float => decodeBuiltin "Float" (fun s => s.float?.map .float) l
  | .boolean => decodeBuiltin "Boolean" (fun s => s.boolean?.map .boolean) l
  | .id => decodeBuiltin "ID" viewId l
  | .optional t =>
    match l with
    | .null => .ok .absent
    | l => (decode l t).map .present
  | .sequence t =>
    match l with
    | .list items => (decodeItems items t).map .sequence
    | .null => .error (.ofMessage "Expected a list, found null")
    | l => (decode l t).map fun v => .sequence [v]
  | .boxed t => decode l t
  | .named path =>
    match u.definition? path with
    | some .scalar => decodeScalar table (.named path) l
    | some (.enumeration name values) => decodeVariant name values l
    | some (.inputObject name declared) =>
      match l with
      | .object fields => do
        checkKeys name (declared.map (·.1)) (Entries.keys (Entries.ofPairs fields))
        (decodeFields fields declared).map .record
      | l => .error (.ofMessage s!"Expected input object \"{name}\", found {l.text}")
    | some (.mask _) => .ok .nothing
    | some (.object ..) | some .disguise | none => .error (undecodable (.named path))
  | t => .error (undecodable t)
termination_by (Literal.weight l, sizeOf t)
decreasing_by
  all_goals simp only [Prod.lex_def, Literal.weight, HostType.optional.sizeOf_spec,
    HostType.sequence.sizeOf_spec, HostType.boxed.sizeOf_spec, true_and]
  all_goals omega

/-- Decodes the elements of a list and stops at the first failure. -/
def decodeItems (items : List Literal) (t : HostType) : Except FieldError (List HostValue) :=
  match items with
  | [] => .ok []
  | item :: items => do
    let v ← decode item t
    let vs ← decodeItems items t
    return v :: vs
termination_by (Literal.weightOfItems items, 0)
decreasing_by
  all_goals simp only [Prod.lex_def, Literal.weightOfItems]
  all_goals omega

/-- Decodes the declared fields and stops at the first failure, which names its field. -/
def decodeFields (fields : List (String × Literal)) (declared : List (String × HostType)) :
    Except FieldError (List (String × HostValue)) :=
  match declared with
  | [] => .ok []
  | (name, t) :: declared => do
    let v ← (match _h : Literal.last? fields name with
      | some l => decode l t
      | none => decode .null t).mapError (.prefixed s!"In field \"{name}\": ")
    let vs ← decodeFields fields declared
    return (name, v) :: vs
termination_by (Literal.weightOfFields fields, declared.length)
decreasing_by
  · exact Prod.Lex.left _ _ (Literal.weight_lt_of_last? _h)
  · exact Prod.Lex.left _ _ (Literal.weightOfFields_pos fields)
  · exact Prod.Lex.right _ (by simp)

end

end Trellis.Universe
