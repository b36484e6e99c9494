import Trellis.Studio.Roots

/-!
Resolvers of properties of the studio's actors and nodes.
-/

namespace Trellis.Studio

/-- A member of a union, by the name of its kind; the actor it is asked of may be one. -/
def pick (a : HostValue) (kind : String) : Output :=
  match kind with
  | "actor" => .single actor a
  | "scenario" => .single scenario (.record
      [("id", .text "GKalus"), ("author", .text "Gamil Kalus"), ("content", .text "TOO LONG")])
  | "int" => .single .int (.int (ageOf a))
  | "null" => .null
  | "list" => .list [.single actor a]
  | _ => .single empty (.record [])

/-- A member picked by an optional text. -/
def pickOptional (a : HostValue) : HostValue → HostValue
  | .present (.text kind) => .present (.member (pick a kind))
  | _ => .absent

/-- The kind in a text value. -/
def pickText (a : HostValue) : HostValue → HostValue
  | .text kind => .member (pick a kind)
  | _ => .member .null

/-- The first dishes of the menu; all of them unless a number is given. -/
def dishesUpTo (size : Option Int32) : List String :=
  ["steak", "burger", "soup"].take ((size.getD 3).toInt.toNat)

namespace Routine

/-! ### Actors -/

def linked : Routine := .ofBody [] (.optional actor) fun a _ =>
  .ok (if 1 < ageOf a then .present (actorValue (nameOf a ++ " Jr.") (ageOf a - 1)) else .absent)

/-- Fails for names that start with a J. -/
def brokenName : Routine := .ofBody [] .text fun a _ =>
  if (nameOf a).toList.head? = some 'J' then
    .error (.ofMessage s!"{nameOf a} is unavailable")
  else .ok (.text (nameOf a ++ "!"))

def older : Routine := .ofBody [arg .int] .boolean fun
  | a, [.value (.int than)] => .ok (.boolean (than < ageOf a))
  | _, _ => .error mismatch

def dishes : Routine := .ofBody [arg (.optional .int)] (.sequence .text) fun
  | _, [.value (.present (.int size))] =>
    .ok (.sequence ((dishesUpTo (some size)).map .text))
  | _, [.value .absent] => .ok (.sequence ((dishesUpTo none).map .text))
  | _, _ => .error mismatch

def greet : Routine := .ofBody [arg .text, .context] .text fun
  | a, [.value (.text g), .context c] =>
    .ok (.text ((lead? c).getD "" ++ s!"{g}, {nameOf a}"))
  | _, _ => .error mismatch

def pickOne : Routine := .ofBody [arg .text] .member fun
  | a, [.value v] => .ok (pickText a v)
  | _, _ => .error mismatch

def maybePick : Routine := .ofBody [arg (.optional .text)] (.optional .member) fun
  | a, [.value v] => .ok (pickOptional a v)
  | _, _ => .error mismatch

def pickAll : Routine := .ofBody [arg (.sequence .text)] (.sequence .member) fun
  | a, [.value (.sequence vs)] => .ok (.sequence (vs.map (pickText a)))
  | _, _ => .error mismatch

def pickSome : Routine :=
  .ofBody [arg (.sequence (.optional .text))] (.sequence (.optional .member)) fun
    | a, [.value (.sequence vs)] => .ok (.sequence (vs.map (pickOptional a)))
    | _, _ => .error mismatch

/-- Fails above an age, with the age as further data. -/
def failAbove : Routine := .ofBody [arg .int] (.optional .int) fun
  | a, [.value (.int limit)] =>
    if limit < ageOf a then
      .error ⟨"too old", .object [("age", .scalar (.int (ageOf a)))]⟩
    else .ok (.present (.int (ageOf a)))
  | _, _ => .error mismatch

/-! ### Nodes -/

def children : Routine := .ofBody [arg .int] (.sequence node) fun
  | n, [.value (.int size)] =>
    .ok (.sequence ((numbersBelow size).map fun i => nodeValue (nodeId n * 10 + i) .absent))
  | _, _ => .error mismatch

def label : Routine := .ofBody [] .text fun n _ => .ok (.text s!"node {(nodeId n).toInt}")

/-- The number of a node, if it is even. -/
def evenNumber (n : HostValue) : Except FieldError HostValue :=
  if (nodeId n).toInt % 2 = 0 then .ok (.int (nodeId n))
  else .error (.ofMessage s!"node {(nodeId n).toInt} is odd")

def even : Routine := .ofBody [] .int fun n _ => evenNumber n

def maybeEven : Routine := .ofBody [] (.optional .int) fun n _ => (evenNumber n).map .present

end Routine

def actorRoutines : List (String × Routine) :=
  [("linked", .linked), ("broken", .brokenName), ("older", .older), ("dishes", .dishes),
    ("greet", .greet), ("pick", .pickOne), ("maybe_pick", .maybePick), ("pick_all", .pickAll),
    ("pick_some", .pickSome), ("fail_if", .failAbove)]

def nodeRoutines : List (String × Routine) :=
  [("children", .children), ("label", .label), ("even", .even), ("maybe_even", .maybeEven)]

/-- The functions of properties of a type that are fixed by their names. -/
def propertyRoutines (t : HostType) : List (String × Routine) :=
  ("show2", .showing [testInput, .optional genre]) ::
    if t = actor then actorRoutines else if t = node then nodeRoutines else []

end Trellis.Studio
