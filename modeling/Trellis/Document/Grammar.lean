import Trellis.Document.Token
import Trellis.Document.Written

/-!
The grammar of query documents.

`Document.parse?` reads a text by recursive descent. One token decides between the alternatives of a
rule, and an alternative once taken is not given up. Every rule that calls itself takes a token
first, so the number of tokens bounds the depth of the descent.
-/

namespace Trellis.Document

/-- A reader that takes tokens from the front of a list or fails. -/
abbrev Parser := StateT (List PlacedToken) Option

namespace Parser

/-- The next token, left in place. -/
def peek : Parser (Option Token) := fun tokens => some (tokens.head?.map (·.token), tokens)

/-- The place of the next token. At the end of the text it is never used. -/
def position : Parser Position := fun tokens =>
  some ((tokens.head?.map (·.start)).getD .origin, tokens)

def skip : Parser Unit := fun tokens => some ((), tokens.tail)

def expect (p : Punctuator) : Parser Unit := do
  match ← peek with
  | some (.punctuator q) => if p = q then skip else failure
  | _ => failure

def name : Parser String := do
  match ← peek with
  | some (.name s) => skip; pure s
  | _ => failure

def word (s : String) : Parser Unit := do
  if (← name) = s then pure () else failure

def isNext (p : Punctuator) : Parser Bool := do
  match ← peek with
  | some (.punctuator q) => pure (p = q)
  | _ => pure false

def isName : Parser Bool := do
  match ← peek with
  | some (.name _) => pure true
  | _ => pure false

def name? : Parser (Option String) := do
  if ← isName then some <$> name else pure none

/-- Takes a punctuator if it is next, and tells whether it was. -/
def accept (p : Punctuator) : Parser Bool := do
  if ← isNext p then skip; pure true else pure false

/-- Reads items as long as one can start. The first argument bounds their number. -/
def many {α : Type} (starts : Parser Bool) (item : Parser α) : Nat → Parser (List α)
  | 0 => failure
  | n + 1 => do
    if ← starts then
      let x ← item
      let xs ← many starts item n
      pure (x :: xs)
    else pure []

def oneOrMore {α : Type} (starts : Parser Bool) (item : Parser α) (bound : Nat) :
    Parser (List α) := do
  let x ← item
  let xs ← many starts item bound
  pure (x :: xs)

/-- Reads a name and, behind a colon, what it is given to. -/
def keyed {α : Type} (item : Parser α) : Parser (String × α) := do
  let key ← name
  expect .colon
  pure (key, ← item)

end Parser

open Trellis.Document.Parser

/-- A layer of a type, with the mark behind it if there is one. -/
def marked (type : WrittenType) : Parser WrittenType := do
  if ← accept .bang then pure (.nonNull type) else pure type

def writtenType : Nat → Parser WrittenType
  | 0 => failure
  | n + 1 => do
    if ← accept .openBracket then
      let inner ← writtenType n
      expect .closeBracket
      marked (.list inner)
    else marked (.named (← name))

/-- Reads a type and takes it for a type literal. -/
def typeLiteral (bound : Nat) : Parser TypeLiteral := WrittenType.literal <$> writtenType bound

/-- Sorts the fields of an object by key; a repeated key keeps its last value. -/
def sortFields {α : Type} (fields : List (String × α)) : List (String × α) :=
  (Entries.ofPairs fields).mergeSort fun a b => a.1 ≤ b.1

def valueStarts : Parser Bool := do
  match ← peek with
  | some (.punctuator p) => pure (p = .dollar ∨ p = .openBracket ∨ p = .openBrace)
  | some _ => pure true
  | none => pure false

/-- A value; a constant one has no variables. -/
def writtenValue (constant : Bool) (bound : Nat) : Nat → Parser WrittenValue
  | 0 => failure
  | n + 1 => do
    match ← peek with
    | some (.name s) =>
      skip
      match s with
      | "true" => pure (.boolean true)
      | "false" => pure (.boolean false)
      | "null" => pure .null
      | _ => pure (.enum s)
    | some (.int i) => skip; pure (.int i)
    | some (.float x) => skip; pure (.float x)
    | some (.string s) => skip; pure (.string s)
    | some (.punctuator .dollar) =>
      if constant then failure
      else
        skip
        pure (.reference (← name))
    | some (.punctuator .openBracket) =>
      skip
      let items ← many valueStarts (writtenValue constant bound n) bound
      expect .closeBracket
      pure (.list items)
    | some (.punctuator .openBrace) =>
      skip
      let fields ← many isName (keyed (writtenValue constant bound n)) bound
      expect .closeBrace
      pure (.object (sortFields fields))
    | _ => failure

/-- Reads a value and takes it for a literal. -/
def value (constant : Bool) (bound n : Nat) : Parser Literal :=
  WrittenValue.literal <$> writtenValue constant bound n

/-- Arguments in parentheses, at least one; or none at all. -/
def arguments (bound : Nat) : Parser (List (String × Literal)) := do
  if ← accept .openParen then
    let args ← oneOrMore isName (keyed (value false bound bound)) bound
    expect .closeParen
    pure args
  else pure []

def directive (bound : Nat) : Parser Directive := do
  let start ← position
  expect .at
  let name ← name
  pure ⟨start, name, ← arguments bound⟩

def directives (bound : Nat) : Parser (List Directive) := many (isNext .at) (directive bound) bound

/-- Whether a selection can start with the next token. -/
def selectionStarts : Parser Bool := do
  pure ((← isName) || (← isNext .ellipsis))

/-- What follows the dots of a spread or an inline fragment. The word that introduces a type
condition is never the name of a spread fragment. -/
def spread (bound : Nat) (set : Parser (List Selection)) : Parser Selection := do
  let start ← position
  match ← peek with
  | some (.name "on") =>
    skip
    let condition ← name
    let directives ← directives bound
    pure (.inlineFragment start (some condition) directives (← set))
  | some (.name s) =>
    skip
    pure (.spread start s (← directives bound))
  | _ =>
    let directives ← directives bound
    pure (.inlineFragment start none directives (← set))

def field (bound : Nat) (set : Parser (List Selection)) : Parser Field := do
  let start ← position
  let first ← name
  let second ← if ← accept .colon then some <$> name else pure none
  let arguments ← arguments bound
  let directives ← directives bound
  let selections ← if ← isNext .openBrace then some <$> set else pure none
  match second with
  | some name => pure ⟨start, some first, name, arguments, directives, selections⟩
  | none => pure ⟨start, none, first, arguments, directives, selections⟩

/-- A selection set in braces, never empty. -/
def selectionSet (bound : Nat) : Nat → Parser (List Selection)
  | 0 => failure
  | n + 1 => do
    expect .openBrace
    let selections ← oneOrMore selectionStarts (do
      if ← accept .ellipsis then spread bound (selectionSet bound n)
      else Selection.field <$> field bound (selectionSet bound n)) bound
    expect .closeBrace
    pure selections

def variableDefinition (bound : Nat) : Parser VariableDefinition := do
  let start ← position
  expect .dollar
  let name ← name
  expect .colon
  let type ← typeLiteral bound
  let default ← if ← accept .equals then some <$> value true bound bound else pure none
  pure ⟨start, name, type, default⟩

/-- The variables of an operation in parentheses, at least one; or none at all. -/
def variableDefinitions (bound : Nat) : Parser (List VariableDefinition) := do
  if ← accept .openParen then
    let definitions ← oneOrMore (isNext .dollar) (variableDefinition bound) bound
    expect .closeParen
    pure definitions
  else pure []

/-- An operation after the word for its kind. -/
def operation (bound : Nat) (start : Position) (kind : OperationKind) : Parser Definition := do
  let name ← name?
  let definitions ← variableDefinitions bound
  let directives ← directives bound
  pure (.operation ⟨start, kind, name, definitions, directives, ← selectionSet bound bound⟩)

/-- A definition. A selection set alone is a query without a name. -/
def definition (bound : Nat) : Parser Definition := do
  let start ← position
  match ← peek with
  | some (.name "query") => skip; operation bound start .query
  | some (.name "mutation") => skip; operation bound start .mutation
  | some (.name "subscription") => skip; operation bound start .subscription
  | some (.name "fragment") =>
    skip
    let name' ← name
    word "on"
    let condition ← name
    let directives ← directives bound
    pure (.fragment ⟨start, name', condition, directives, ← selectionSet bound bound⟩)
  | _ => pure (.operation ⟨start, .query, none, [], [], ← selectionSet bound bound⟩)

/-- A document: one or more definitions and nothing else. -/
def ofTokens? (tokens : List PlacedToken) : Option Document :=
  let bound := tokens.length + 1
  match oneOrMore (do pure (← peek).isSome) (definition bound) bound tokens with
  | some (document, []) => some document
  | _ => none

def parse? (text : String) : Option Document := (Token.scan? text).bind ofTokens?

end Trellis.Document
