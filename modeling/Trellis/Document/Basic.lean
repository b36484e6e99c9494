import Trellis.Literal.Basic
import Trellis.TypeLiteral

/-!
Query documents.

A document lists operations and fragments. Selections, directives and definitions carry the place in
the text where they start; a name or an argument has the place of what it belongs to.
-/

namespace Trellis

/-- A place in a text. Both numbers count from zero. -/
structure Position where
  line : Nat
  column : Nat
deriving DecidableEq, Repr, Inhabited

namespace Position

def origin : Position := ⟨0, 0⟩

/-- Lines and columns are shown counting from one. -/
def text (p : Position) : String := toString (p.line + 1) ++ ":" ++ toString (p.column + 1)

/-- The place after some characters. -/
def after (p : Position) : List Char → Position
  | [] => p
  | c :: rest =>
    if c = '\n' then after ⟨p.line + 1, 0⟩ rest else after ⟨p.line, p.column + 1⟩ rest

end Position

namespace Document

structure Directive where
  start : Position
  name : String
  arguments : List (String × Literal)

/-- The value of the first argument with a name. -/
def Directive.argument? (d : Directive) (name : String) : Option Literal := d.arguments.lookup name

mutual

structure Field where
  start : Position
  responseName : Option String
  name : String
  arguments : List (String × Literal)
  directives : List Directive
  selections : Option (List Selection)

inductive Selection where
  | field (field : Field)
  | spread (start : Position) (fragment : String) (directives : List Directive)
  | inlineFragment (start : Position) (condition : Option String) (directives : List Directive)
      (selections : List Selection)

end

/-- The key of a field in the response: its alias, or else its name. -/
def Field.key (f : Field) : String := f.responseName.getD f.name

inductive OperationKind where
  | query
  | mutation
  | subscription
deriving DecidableEq, Repr

def OperationKind.text : OperationKind → String
  | .query => "query"
  | .mutation => "mutation"
  | .subscription => "subscription"

structure VariableDefinition where
  start : Position
  name : String
  type : TypeLiteral
  default : Option Literal

structure Operation where
  start : Position
  kind : OperationKind
  name : Option String
  variableDefinitions : List VariableDefinition
  directives : List Directive
  selections : List Selection

structure Fragment where
  start : Position
  name : String
  condition : String
  directives : List Directive
  selections : List Selection

inductive Definition where
  | operation (operation : Operation)
  | fragment (fragment : Fragment)

end Document

/-- The definitions of a query text in order. -/
abbrev Document := List Document.Definition

namespace Document

def operations (d : Document) : List Operation :=
  d.filterMap fun
    | .operation o => some o
    | .fragment _ => none

def fragments (d : Document) : List Fragment :=
  d.filterMap fun
    | .operation _ => none
    | .fragment f => some f

/-- The last fragment with a name. -/
def fragment? (d : Document) (name : String) : Option Fragment :=
  d.fragments.reverse.find? (·.name == name)

end Document

end Trellis
