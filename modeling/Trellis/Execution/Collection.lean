import Trellis.Document.Basic
import Trellis.Schema.Graph

/-!
Collecting the fields selected for an object.

Selections are walked depth first. Directives may exclude a selection, and a type condition keeps a
fragment out unless it names the object or a union with it. A named fragment is entered once for an
object, so fragments that spread themselves come to an end. Fields are grouped by response key in
the order of first occurrence.
-/

namespace Trellis

open Document

/-- What is fixed during one execution. -/
structure Scope where
  graph : TypeGraph
  document : Document
  values : Variables
  context : Context

namespace Scope

variable (scope : Scope)

/-- Whether the condition of a directive holds; anything but a true boolean counts as false. -/
def holds (d : Directive) : Bool :=
  (((d.argument? "if").map (·.resolve scope.values)).bind fun l =>
    l.scalar?.bind Scalar.boolean?).getD false

/-- Whether some directive excludes a selection. -/
def isExcluded (directives : List Directive) : Bool :=
  directives.any fun d =>
    match d.name with
    | "skip" => scope.holds d
    | "include" => !scope.holds d
    | _ => false

/-- Whether a type condition admits an object. -/
def applies (condition : String) (object : ObjectType) : Bool :=
  condition == object.name ||
    match scope.graph.union? condition with
    | some u => u.contains object.name
    | none => false

end Scope

/-- The fields under one response key. The first one counts; the others add to its selections. -/
structure FieldGroup where
  key : String
  first : Field
  rest : List Field

def FieldGroup.selections (g : FieldGroup) : List Selection :=
  (g.first :: g.rest).flatMap fun f => f.selections.getD []

/-- Fields collected so far, names of the fragments that were met, and spreads of fragments that the
document does not have. -/
structure Collected where
  groups : List FieldGroup
  visited : List String
  missing : List (Position × String)

namespace Collected

def empty : Collected := ⟨[], [], []⟩

def addTo (f : Field) : List FieldGroup → List FieldGroup
  | [] => [⟨f.key, f, []⟩]
  | g :: groups =>
    if g.key = f.key then { g with rest := g.rest ++ [f] } :: groups else g :: addTo f groups

def add (c : Collected) (f : Field) : Collected := { c with groups := addTo f c.groups }

def keys (c : Collected) : List String := c.groups.map (·.key)

end Collected

namespace Scope

variable (scope : Scope) (object : ObjectType)

mutual

/-- Collects from one selection; `enter` collects from a fragment that is spread. -/
def collectSelection (enter : Fragment → Collected → Collected) :
    Selection → Collected → Collected
  | .field f, c => if scope.isExcluded f.directives then c else c.add f
  | .spread start name directives, c =>
    if scope.isExcluded directives || c.visited.contains name then c
    else
      let c := { c with visited := name :: c.visited }
      match scope.document.fragment? name with
      | none => { c with missing := c.missing ++ [(start, name)] }
      | some fragment => if scope.applies fragment.condition object then enter fragment c else c
  | .inlineFragment _ condition directives selections, c =>
    if scope.isExcluded directives then c
    else if condition.all (scope.applies · object) then collectSelections enter selections c
    else c

def collectSelections (enter : Fragment → Collected → Collected) :
    List Selection → Collected → Collected
  | [], c => c
  | s :: rest, c => collectSelections enter rest (collectSelection enter s c)

end

/-- Collects from selections that spread fragments inside each other at most `depth` deep. -/
def collectWithin : Nat → List Selection → Collected → Collected
  | 0, selections, c => scope.collectSelections object (fun _ c => c) selections c
  | depth + 1, selections, c =>
    scope.collectSelections object (fun f c => collectWithin depth f.selections c) selections c

/-- The fields selected for an object. As no fragment is entered twice, their number bounds how deep
they are spread inside each other. -/
def collect (selections : List Selection) : Collected :=
  scope.collectWithin object scope.document.fragments.length selections .empty

end Scope

end Trellis
