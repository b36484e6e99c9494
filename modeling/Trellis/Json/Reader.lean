import Trellis.Decimal.Nearest
import Trellis.Json.Basic
import Trellis.Text.Escape
import Trellis.Width

/-!
Reading JSON text.

`Json.read?` accepts exactly one JSON value with blanks around it. Lists and objects may be nested
127 deep. A number outside the range of binary64 is refused, and so are lone surrogates.
-/

namespace Trellis.Json

namespace Reader

/-- The four blanks of JSON. -/
def isBlank (c : Char) : Bool := c == ' ' || c == '\n' || c == '\t' || c == '\r'

def skipBlanks (text : List Char) : List Char := text.dropWhile isBlank

/-- The rest of the text after a fixed word. -/
def expect? (word : List Char) (text : List Char) : Option (List Char) :=
  match word, text with
  | [], rest => some rest
  | w :: word, c :: rest => if w = c then expect? word rest else none
  | _ :: _, [] => none

/-- The 16-bit unit written by four hexadecimal digits. -/
def unit? : List Char → Option (Nat × List Char)
  | a :: b :: c :: d :: rest => do
    let n ← Text.hex? [a, b, c, d]
    some (n, rest)
  | _ => none

/-- The character of one escaped unit, or of two that form a surrogate pair. -/
def escapedUnit? (text : List Char) : Option (Char × List Char) := do
  let (first, rest) ← unit? text
  if 0xDC00 ≤ first && first ≤ 0xDFFF then none
  else if 0xD800 ≤ first && first ≤ 0xDBFF then
    let rest ← expect? ['\\', 'u'] rest
    let (second, rest) ← unit? rest
    if 0xDC00 ≤ second && second ≤ 0xDFFF then
      some (Char.ofNat (0x10000 + (first - 0xD800) * 0x400 + (second - 0xDC00)), rest)
    else none
  else some (Char.ofNat first, rest)

/-- The characters of a string up to its closing quote. Every step takes at least one character, so
the length of the text bounds the number of steps. -/
def characters? : Nat → List Char → Option (List Char × List Char)
  | 0, _ => none
  | _ + 1, [] => none
  | _ + 1, '"' :: rest => some ([], rest)
  | n + 1, '\\' :: 'u' :: rest => do
    let (c, rest) ← escapedUnit? rest
    let (cs, rest) ← characters? n rest
    some (c :: cs, rest)
  | n + 1, '\\' :: e :: rest => do
    let c ← Text.simpleEscape? '\x08' e
    let (cs, rest) ← characters? n rest
    some (c :: cs, rest)
  | _ + 1, ['\\'] => none
  | n + 1, c :: rest =>
    if c.toNat < 0x20 then none
    else do
      let (cs, rest) ← characters? n rest
      some (c :: cs, rest)

def string? (text : List Char) : Option (String × List Char) :=
  (characters? (text.length + 1) text).map fun (cs, rest) => (String.ofList cs, rest)

def isDigit (c : Char) : Bool := (Decimal.digitValue? c).isSome

def digits? (text : List Char) : Option (List Char × List Char) :=
  match text.takeWhile isDigit with
  | [] => none
  | ds => some (ds, text.dropWhile isDigit)

/-- The part of a number after its whole digits, if it makes the number a fraction. -/
structure Tail where
  fraction : List Char
  exponent : Int

def exponent? (text : List Char) : Option (Int × List Char) :=
  match text with
  | '+' :: rest => (digits? rest).map fun (ds, rest) => ((Decimal.digitsValue ds : Int), rest)
  | '-' :: rest => (digits? rest).map fun (ds, rest) => (-(Decimal.digitsValue ds : Int), rest)
  | rest => (digits? rest).map fun (ds, rest) => ((Decimal.digitsValue ds : Int), rest)

/-- Reads a fraction and an exponent; `none` inside the result stands for neither. -/
def tail? (text : List Char) : Option (Option Tail × List Char) := do
  let (fraction, rest) ← match text with
    | '.' :: rest => (digits? rest).map fun (ds, rest) => (some ds, rest)
    | rest => some (none, rest)
  let (exponent, rest) ← match rest with
    | 'e' :: rest => (exponent? rest).map fun (e, rest) => (some e, rest)
    | 'E' :: rest => (exponent? rest).map fun (e, rest) => (some e, rest)
    | rest => some (none, rest)
  match fraction, exponent with
  | none, none => some (none, rest)
  | _, _ => some (some ⟨fraction.getD [], exponent.getD 0⟩, rest)

/-- The number with the given digits. Negative zero is no whole number. -/
def number? (negative : Bool) (whole : List Char) : Option Tail → Option Json
  | none =>
    let n := Decimal.digitsValue whole
    if negative then
      if n ≠ 0 ∧ (Width.int64? (-(n : Int))).isSome then some (.integer (-(n : Int)))
      else real? ⟨[], 0⟩
    else if n < UInt64.size then some (.integer n) else real? ⟨[], 0⟩
  | some tail => real? tail
where
  real? (tail : Tail) : Option Json :=
    let x := Decimal.ofDigits whole tail.fraction tail.exponent
    if x.isInf then none else some (.real (if negative then -x else x))

/-- A number whose sign has been read. A leading zero stands alone. -/
def unsigned? (negative : Bool) (text : List Char) : Option (Json × List Char) := do
  let (whole, rest) ← digits? text
  if whole.head? == some '0' && 1 < whole.length then none
  else
    let (tail, rest) ← tail? rest
    let n ← number? negative whole tail
    some (n, rest)

/-- The items of a list whose opening bracket and first blanks have been read. -/
def items? (read : List Char → Option (Json × List Char)) :
    Nat → List Char → Option (List Json × List Char)
  | 0, _ => none
  | n + 1, text => do
    let (item, rest) ← read text
    match skipBlanks rest with
    | ']' :: rest => some ([item], rest)
    | ',' :: rest =>
      let (items, rest) ← items? read n (skipBlanks rest)
      some (item :: items, rest)
    | _ => none

/-- The entries of an object whose opening brace and first blanks have been read. -/
def entries? (read : List Char → Option (Json × List Char)) :
    Nat → List Char → Option (List (String × Json) × List Char)
  | 0, _ => none
  | n + 1, text =>
    match text with
    | '"' :: rest => do
      let (key, rest) ← string? rest
      match skipBlanks rest with
      | ':' :: rest =>
        let (item, rest) ← read (skipBlanks rest)
        match skipBlanks rest with
        | '\x7d' :: rest => some ([(key, item)], rest)
        | ',' :: rest =>
          let (entries, rest) ← entries? read n (skipBlanks rest)
          some ((key, item) :: entries, rest)
        | _ => none
      | _ => none
    | _ => none

/-- A value at the start of the text, nested less than `depth` deep. -/
def value? : Nat → List Char → Option (Json × List Char)
  | 0, _ => none
  | depth + 1, text =>
    match text with
    | 'n' :: rest => (expect? ['u', 'l', 'l'] rest).map (Json.null, ·)
    | 't' :: rest => (expect? ['r', 'u', 'e'] rest).map (Json.boolean true, ·)
    | 'f' :: rest => (expect? ['a', 'l', 's', 'e'] rest).map (Json.boolean false, ·)
    | '"' :: rest => (string? rest).map fun (s, rest) => (Json.string s, rest)
    | '-' :: rest => unsigned? true rest
    | '[' :: rest =>
      if depth = 0 then none
      else match skipBlanks rest with
        | ']' :: rest => some (.array [], rest)
        | rest => (items? (value? depth) (rest.length + 1) rest).map fun (is, r) => (.array is, r)
    | '\x7b' :: rest =>
      if depth = 0 then none
      else match skipBlanks rest with
        | '\x7d' :: rest => some (.object [], rest)
        | rest =>
          (entries? (value? depth) (rest.length + 1) rest).map fun (es, r) => (.object es, r)
    | _ => unsigned? false text

end Reader

/-- The deepest nesting of lists and objects that is read, plus one. -/
def depthLimit : Nat := 128

/-- The value at the start of the text after blanks, and what follows it. -/
def readStart? (text : String) : Option (Json × List Char) :=
  Reader.value? depthLimit (Reader.skipBlanks text.toList)

def read? (text : String) : Option Json := do
  let (value, rest) ← readStart? text
  if Reader.skipBlanks rest = [] then some value else none

end Trellis.Json
