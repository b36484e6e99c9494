import Trellis.ScalarType

/-!
Universally unique identifiers as a scalar.

The text of an identifier is 32 hexadecimal digits in five groups. It is read with or without its
hyphens, in braces, or as a URN, in either case of letters, and written in lower case with hyphens.
-/

namespace Trellis.Uuid

/-- The host type of identifiers. Its values are their texts. -/
def host : HostType := .named "uuid::Uuid"

def digit? (c : Char) : Option Char :=
  if ('0' ≤ c ∧ c ≤ '9') ∨ ('a' ≤ c ∧ c ≤ 'f') then some c
  else if 'A' ≤ c ∧ c ≤ 'F' then some (Char.ofNat (c.toNat + 32))
  else none

/-- Lengths of the groups of digits. -/
def groups : List Nat := [8, 4, 4, 4, 12]

/-- Digits with hyphens between the groups. -/
def hyphenate (digits : List Char) : List Char :=
  match groups with
  | [] => digits
  | first :: rest => go digits first rest
where
  go (digits : List Char) (first : Nat) : List Nat → List Char
    | [] => digits.take first
    | next :: rest => digits.take first ++ '-' :: go (digits.drop first) next rest

/-- The digits of a text with hyphens between the groups. -/
def ofHyphenated? (text : List Char) : Option (List Char) :=
  let digits := text.filter (· ≠ '-')
  if hyphenate digits = text then digits.mapM digit? else none

/-- The digits of an identifier in one of the accepted forms. -/
def digits? (text : List Char) : Option (List Char) :=
  if text.length = 32 then text.mapM digit?
  else if text.length = 36 then ofHyphenated? text
  else if text.length = 38 ∧ text.head? = some '\x7b' ∧ text.getLast? = some '\x7d' then
    ofHyphenated? (text.drop 1).dropLast
  else if text.length = 45 ∧ (text.take 9).map Char.toLower = "urn:uuid:".toList then
    ofHyphenated? (text.drop 9)
  else none

def parse? (text : String) : Option String :=
  (digits? text.toList).map fun digits => String.ofList (hyphenate digits)

def malformed : FieldError := .ofMessage "Failed to parse `Uuid`: malformed identifier"

/-- Identifiers as strings. -/
def serialize : HostValue → String
  | .text s => s
  | _ => ""

def deserialize (raw : String) : Except FieldError HostValue :=
  match parse? raw with
  | some s => .ok (.text s)
  | none => .error malformed

end Trellis.Uuid
