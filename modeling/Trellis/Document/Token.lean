import Trellis.Document.Basic
import Trellis.Text.Blank
import Trellis.Text.Escape
import Trellis.Text.Number

/-!
Tokens of query texts.

`Token.scan?` cuts a text into tokens, each with the place of its first character. Blanks, commas
and comments between tokens are skipped. A text with more than fifty brackets open at once is
refused.
-/

namespace Trellis.Document

inductive Punctuator where
  | openParen | closeParen | openBracket | closeBracket | openBrace | closeBrace
  | bang | dollar | colon | equals | at | bar | ampersand | ellipsis
deriving DecidableEq, Repr

inductive Token where
  | punctuator (p : Punctuator)
  | name (s : String)
  | int (n : Int64)
  | float (x : Float)
  | string (s : String)

structure PlacedToken where
  start : Position
  token : Token

namespace Token

/-- Skips what may stand between tokens. A tab is eight columns wide, a carriage return and a byte
order mark have no width, and the line ends after a comment even at a carriage return. -/
def skipBlanks (inComment : Bool) (p : Position) : List Char → Position × List Char
  | [] => (p, [])
  | c :: rest =>
    if inComment then
      if c = '\r' ∨ c = '\n' then skipBlanks false ⟨p.line + 1, 0⟩ rest
      else skipBlanks true p rest
    else
      match c with
      | '\ufeff' | '\r' => skipBlanks false p rest
      | '\t' => skipBlanks false ⟨p.line, p.column + 8⟩ rest
      | '\n' => skipBlanks false ⟨p.line + 1, 0⟩ rest
      | ' ' | ',' => skipBlanks false ⟨p.line, p.column + 1⟩ rest
      | '#' => skipBlanks true p rest
      | _ => (p, c :: rest)

def punctuator? : Char → Option Punctuator
  | '(' => some .openParen
  | ')' => some .closeParen
  | '[' => some .openBracket
  | ']' => some .closeBracket
  | '\x7b' => some .openBrace
  | '\x7d' => some .closeBrace
  | '!' => some .bang
  | '$' => some .dollar
  | ':' => some .colon
  | '=' => some .equals
  | '@' => some .at
  | '|' => some .bar
  | '&' => some .ampersand
  | _ => none

def isNameStart (c : Char) : Bool := c == '_' || c.isAlpha

def isNamePart (c : Char) : Bool := c == '_' || c.isAlphanum

/-- Whether a number ends before this character. -/
def endsNumber (c : Char) : Bool :=
  c == ' ' || c == '\n' || c == '\r' || c == '\t' || c == ',' || c == '#' ||
    (punctuator? c).isSome

/-- Whole digits of a number: no leading zero but a lone one. -/
def wholeDigits? (digits : List Char) : Option (List Char) :=
  match digits with
  | ['0'] => some digits
  | '0' :: _ => none
  | _ => (Text.digits? digits).map fun _ => digits

/-- The power of ten after the letter of an exponent. Without a sign it must start with one of the
digits 1 to 8. -/
def exponent? (text : List Char) : Option Int :=
  match text with
  | '-' :: digits => (Text.digits? digits).map fun n => -(n : Int)
  | '+' :: digits => (Text.digits? digits).map fun n => (n : Int)
  | c :: _ => if '0' < c ∧ c < '9' then (Text.digits? text).map fun n => (n : Int) else none
  | [] => none

/-- Splits at the first exponent letter. -/
def cutExponent (text : List Char) : List Char × Option (List Char) :=
  match text.dropWhile fun c => c != 'e' && c != 'E' with
  | [] => (text, none)
  | _ :: exponent => (text.takeWhile fun c => c != 'e' && c != 'E', some exponent)

/-- The number a run of characters without a sign stands for. -/
def unsigned? (negative : Bool) (text : List Char) : Option Token := do
  let (mantissa, exponent) := cutExponent text
  let (whole, fraction) := Text.cut '.' mantissa
  let digits ← wholeDigits? whole
  match fraction, exponent with
  | none, none =>
    let n : Int := Decimal.digitsValue digits
    let n := if negative then -n else n
    (Width.int64? n).map .int
  | fraction, exponent =>
    let fraction ← match fraction with
      | none => some []
      | some ds => (Text.digits? ds).map fun _ => ds
    let exponent ← match exponent with
      | none => some 0
      | some e => exponent? e
    let x := Decimal.ofDigits digits fraction exponent
    some (.float (if negative then -x else x))

def number? (text : List Char) : Option Token :=
  match text with
  | '-' :: rest => unsigned? true rest
  | _ => unsigned? false text

/-- The character with a number written by four characters, the first of which may be a plus
sign. -/
def codePoint? (a b c d : Char) : Option Char := do
  let n ← if a = '+' then Text.hex? [b, c, d] else Text.hex? [a, b, c, d]
  if h : n.isValidChar then some (Char.ofNatAux n h) else none

/-- The characters of a string up to its closing quote, and the text after it. -/
def string? : List Char → Option (List Char × List Char)
  | [] => none
  | '"' :: rest => some ([], rest)
  | '\\' :: 'u' :: a :: b :: c :: d :: rest => do
    if a = '"' ∨ b = '"' ∨ c = '"' ∨ d = '"' then none
    let x ← codePoint? a b c d
    let (xs, rest) ← string? rest
    some (x :: xs, rest)
  | '\\' :: e :: rest => do
    let x ← Text.simpleEscape? '\x10' e
    let (xs, rest) ← string? rest
    some (x :: xs, rest)
  | c :: rest =>
    if c = '\n' ∨ c = '\\' then none
    else do
      let (xs, rest) ← string? rest
      some (c :: xs, rest)

/-- The raw content of a block string and the text after its closing quotes. Three quotes after a
backslash belong to the content and lose the backslash later. -/
def block? (escaped : Bool) : List Char → Option (List Char × List Char)
  | '"' :: '"' :: '"' :: rest =>
    if escaped then
      (block? false rest).map fun (content, rest) => ('"' :: '"' :: '"' :: content, rest)
    else some ([], rest)
  | c :: rest => (block? (c == '\\') rest).map fun (content, rest) => (c :: content, rest)
  | [] => none

/-- Lines end at a line feed, with a carriage return before it if there is one. A line feed at the
end opens no further line. -/
def lines (text : List Char) : List (List Char) :=
  let pieces := Text.split '\n' text
  let complete := pieces.dropLast.map fun line =>
    match line.reverse with
    | '\r' :: rest => rest.reverse
    | _ => line
  match pieces.getLast? with
  | none | some [] => complete
  | some last => complete ++ [last]

/-- Takes the backslash from quotes it escapes. -/
def unescapeQuotes : List Char → List Char
  | '\\' :: '"' :: '"' :: '"' :: rest => '"' :: '"' :: '"' :: unescapeQuotes rest
  | c :: rest => c :: unescapeQuotes rest
  | [] => []

/-- The value of a block string: the common indent of the lines after the first is cut, and blank
lines at both ends are dropped. -/
def blockValue (content : List Char) : List Char :=
  let all := lines content
  let indents := (all.drop 1).filterMap fun line =>
    if Text.allBlank line then none else some (Text.indentBytes line)
  let cutIndent (line : List Char) : List Char :=
    match indents.min? with
    | none => line
    | some indent =>
      if Text.byteCount line < indent then line else Text.dropBytes indent line
  let stripped := all.take 1 ++ (all.drop 1).map cutIndent
  let trimmed := ((stripped.dropWhile Text.allBlank).reverse.dropWhile Text.allBlank).reverse
  ['\n'].intercalate (trimmed.map unescapeQuotes)

/-- The token at the start of a text, and the text after it. -/
def next? (text : List Char) : Option (Token × List Char) :=
  match text with
  | '.' :: '.' :: '.' :: rest => some (.punctuator .ellipsis, rest)
  | '"' :: '"' :: '"' :: rest =>
    (block? false rest).map fun (content, rest) =>
      (.string (String.ofList (blockValue content)), rest)
  | '"' :: rest => (string? rest).map fun (cs, rest) => (.string (String.ofList cs), rest)
  | c :: rest =>
    match punctuator? c with
    | some p => some (.punctuator p, rest)
    | none =>
      if isNameStart c then
        some (.name (String.ofList (c :: rest.takeWhile isNamePart)), rest.dropWhile isNamePart)
      else if c = '-' ∨ c.isDigit then
        (number? (c :: rest.takeWhile fun c => !endsNumber c)).map
          (·, rest.dropWhile fun c => !endsNumber c)
      else none
  | [] => none

/-- The most brackets that may be open at once. -/
def openLimit : Nat := 50

/-- Number of open brackets after a token; none if there are too many. -/
def track? (opened : Nat) : Token → Option Nat
  | .punctuator .openParen | .punctuator .openBracket | .punctuator .openBrace =>
    if opened < openLimit then some (opened + 1) else none
  | .punctuator .closeParen | .punctuator .closeBracket | .punctuator .closeBrace =>
    some (opened - 1)
  | _ => some opened

/-- The tokens of a text from a place on. A token has at least one character, so the length of the
text bounds their number. -/
def scanFrom? : Nat → Nat → Position → List Char → Option (List PlacedToken)
  | 0, _, _, _ => none
  | n + 1, opened, p, text =>
    match skipBlanks false p text with
    | (_, []) => some []
    | (start, text) => do
      let (token, rest) ← next? text
      let opened ← track? opened token
      let tokens ← scanFrom? n opened (start.after (text.take (text.length - rest.length))) rest
      some (⟨start, token⟩ :: tokens)

def scan? (text : String) : Option (List PlacedToken) :=
  scanFrom? (text.length + 1) 0 .origin text.toList

end Token

end Trellis.Document
