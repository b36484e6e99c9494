import Trellis.Studio.Routine

/-!
Transformations of the studio, by name.
-/

namespace Trellis.Studio

/-- Whether a text occurs in another one. -/
def occurs (needle : List Char) : List Char → Bool
  | [] => needle.isEmpty
  | c :: rest => needle.isPrefixOf (c :: rest) || occurs needle rest

def upper (s : String) : String := String.ofList (s.toList.map Char.toUpper)

def lower (s : String) : String := String.ofList (s.toList.map Char.toLower)

def onText (kinds : List Parameter) (f : String → List Bound → Except FieldError String) :
    Transformation :=
  types.transformation .text kinds fun
    | .text s, bounds => (f s bounds).map .text
    | _, _ => .error mismatch

def onInt (kinds : List Parameter) (f : Int32 → List Bound → Except FieldError Int32) :
    Transformation :=
  types.transformation .int kinds fun
    | .int n, bounds => (f n bounds).map .int
    | _, _ => .error mismatch

def onList (t : HostType) (kinds : List Parameter)
    (f : List HostValue → List Bound → Except FieldError (List HostValue)) : Transformation :=
  types.transformation (.sequence t) kinds fun
    | .sequence vs, bounds => (f vs bounds).map .sequence
    | _, _ => .error mismatch

def unchanged (t : HostType) (kinds : List Parameter) : Transformation :=
  types.transformation t kinds fun v _ => .ok v

def renamed (a : HostValue) (name : String) : HostValue := actorValue name (ageOf a)

def aged (a : HostValue) (years : Int32) : HostValue := actorValue (nameOf a) (ageOf a + years)

/-- The texts in a list, joined. -/
def joinTexts (separator : String) (vs : List HostValue) : String :=
  separator.intercalate (vs.map fun | .text s => s | _ => "")

def textTransformation? (name : String) : Option Transformation :=
  match name with
  | "str_tag" => some <| onText [] fun s _ => .ok s!"<{s}>"
  | "str_upper" => some <| onText [] fun s _ => .ok (upper s)
  | "str_suffix" => some <| onText [arg .text] fun
    | c, [.value (.text s)] => .ok s!"{c}-{s}"
    | _, _ => .error mismatch
  | "str_case" => some <| onText [arg (.optional .boolean)] fun
    | s, [.value (.present (.boolean true))] => .ok (upper s)
    | s, [.value (.present (.boolean false))] => .ok (lower s)
    | s, _ => .ok s
  | "str_repeat" => some <| onText [arg .int] fun
    | s, [.value (.int times)] => .ok (String.join (List.replicate times.toInt.toNat s))
    | _, _ => .error mismatch
  | "str_flag" => some <| onText [arg .boolean] fun
    | c, [.value (.boolean b)] => .ok (c ++ if b then "true" else "false")
    | _, _ => .error mismatch
  | "str_fail" => some <| onText [] fun c _ => .error (.ofMessage s!"cannot transform {c}")
  | "str_fail_if" => some <| onText [arg .text] fun
    | c, [.value (.text needle)] =>
      if occurs needle.toList c.toList then .error (.ofMessage s!"found {needle}") else .ok c
    | _, _ => .error mismatch
  | "str_ctx" => some <| onText [.context] fun
    | s, [.context c] => .ok ((lead? c).getD "?" ++ s)
    | _, _ => .error mismatch
  | "str_ctx_mid" => some <| onText [arg .int, .context, arg .text] fun
    | s, [.value (.int a), .context c, .value (.text b)] =>
      .ok (s ++ toString a.toInt ++ (lead? c).getD "?" ++ b)
    | _, _ => .error mismatch
  | "str_map" => some <| unchanged .text [arg (hashMap .text .int)]
  | _ => none

def numberTransformation? (name : String) : Option Transformation :=
  match name with
  | "int_add" => some <| onInt [arg .int] fun
    | v, [.value (.int n)] => .ok (v + n)
    | _, _ => .error mismatch
  | "int_double" => some <| onInt [] fun v _ => .ok (v + v)
  | "int_checked" => some <| onInt [arg .int] fun
    | v, [.value (.int n)] =>
      match Width.int32? (v.toInt + n.toInt) with
      | some sum => .ok sum
      | none => .error ⟨"overflow", .list [.scalar (.int v), .scalar (.int n)]⟩
    | _, _ => .error mismatch
  | "optint_or" => some <| types.transformation (.optional .int) [arg .int] fun
    | .absent, [.value d] => .ok (.present d)
    | v, _ => .ok v
  | "optint_null" => some <| types.transformation (.optional .int) [arg .boolean] fun
    | .present (.int n), [.value (.boolean odd)] =>
      .ok (if (n.toInt % 2 != 0) == odd then .present (.int n) else .absent)
    | v, _ => .ok v
  | "ints_reverse" => some <| onList .int [] fun vs _ => .ok vs.reverse
  | "ints_take" => some <| onList .int [arg .int] fun
    | vs, [.value (.int n)] => .ok (vs.take n.toInt.toNat)
    | _, _ => .error mismatch
  | "strs_join" => some <| onList .text [arg .text] fun
    | vs, [.value (.text separator)] => .ok [.text (joinTexts separator vs)]
    | _, _ => .error mismatch
  | _ => none

def domainTransformation? (name : String) : Option Transformation :=
  match name with
  | "actor_rename" => some <| types.transformation actor [arg .text] fun
    | a, [.value (.text name)] => .ok (renamed a name)
    | _, _ => .error mismatch
  | "optactor_older" => some <| types.transformation (.optional actor) [arg .int] fun
    | .present a, [.value (.int years)] => .ok (.present (aged a years))
    | v, _ => .ok v
  | "actors_older_than" => some <| onList actor [arg .int] fun
    | vs, [.value (.int least)] => .ok (vs.filter fun a => least < ageOf a)
    | _, _ => .error mismatch
  | "film_flip" => some <| types.transformation filmType [] fun
    | .variant "SHORT_LENGTH", _ => .ok (.variant "FULL_LENGTH")
    | _, _ => .ok (.variant "SHORT_LENGTH")
  | "id_bump" => some <| types.transformation idScalar [arg .int] fun
    | v, [.value (.int step)] =>
      match v.field "numeric" with
      | .int n => .ok (.record [("literal", v.field "literal"), ("numeric", .int (n + step))])
      | _ => .error mismatch
    | _, _ => .error mismatch
  | "union_actor" => some <| types.transformation .member [arg (.optional .boolean)] fun
    | _, [.value (.present (.boolean true))] =>
      .ok (.member (.single actor (actorValue "Swapped" 0)))
    | v, _ => .ok v
  | "liar" => some <| unchanged (liar .int .int) []
  | "fn_id" => some <| unchanged numberFunction []
  | _ => none

def transformation? (name : String) : Option Transformation :=
  (textTransformation? name).or ((numberTransformation? name).or (domainTransformation? name))

end Trellis.Studio
