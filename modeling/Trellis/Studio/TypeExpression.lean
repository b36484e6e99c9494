import Trellis.Studio.Types

/-!
Host types of the studio written as type expressions, such as `Option<Vec<Actor>>`,
`(i32, String)` or `fn(i32) -> bool`. Blanks only separate words.
-/

namespace Trellis.Studio

/-- Words and symbols of a type expression. -/
inductive Mark where
  | word (s : String)
  | arrow
  | symbol (c : Char)
deriving DecidableEq, Repr

namespace Mark

def isWordPart (c : Char) : Bool := c.isAlphanum || c == '_'

/-- Puts a character in front of the first mark, if both belong to one word. -/
def prepend (c : Char) : List Char → List Mark → List Mark
  | next :: _, .word s :: rest => if isWordPart next then .word (String.ofList [c] ++ s) :: rest
    else .word (String.ofList [c]) :: .word s :: rest
  | _, rest => .word (String.ofList [c]) :: rest

def ofChars : List Char → List Mark
  | [] => []
  | '-' :: '>' :: rest => .arrow :: ofChars rest
  | c :: rest =>
    if isWordPart c then prepend c rest (ofChars rest)
    else if c.isWhitespace then ofChars rest
    else .symbol c :: ofChars rest

end Mark

/-- A type that is written as one word. -/
def plainType? (word : String) : Option HostType :=
  match word with
  | "String" => some .text
  | "i32" => some .int
  | "i64" => some .long
  | "f64" => some .float
  | "bool" => some .boolean
  | "ID" => some .id
  | "UnionMember" => some .member
  | "Uuid" => some uuid
  | _ => (types.definition? ("fx::t::" ++ word)).map fun _ => ours word

/-- A type that is written as a word with parameters. -/
def appliedType? (word : String) (parameters : List HostType) : Option HostType :=
  match word, parameters with
  | "Option", [t] => some (.optional t)
  | "Vec", [t] => some (.sequence t)
  | "Box", [t] => some (.boxed t)
  | "Arc", [t] => some (.shared t)
  | "HashMap", [k, v] => some (hashMap k v)
  | "BTreeMap", [k, v] => some (sortedMap k v)
  | "Liar", [shown, shape] => some (liar shown shape)
  | _, _ => none

mutual

/-- A type at the start of some marks. Every step takes a mark, so their number bounds the depth. -/
def readType? : Nat → List Mark → Option (HostType × List Mark)
  | 0, _ => none
  | n + 1, marks =>
    match marks with
    | .symbol '(' :: rest => do
      let (ts, rest) ← readTypes? n ')' rest
      some (.tuple (.parameters ts), rest)
    | .word "fn" :: .symbol '(' :: rest => do
      let (ts, rest) ← readTypes? n ')' rest
      let (result, rest) ← readResult? n rest
      some (.function (.parameters ts) result, rest)
    | .word "Arc" :: .symbol '<' :: .word "dyn" :: .word "Fn" :: .symbol '(' :: rest => do
      let (ts, rest) ← readTypes? n ')' rest
      let (result, rest) ← readResult? n rest
      match rest with
      | .symbol '+' :: .word "Send" :: .symbol '+' :: .word "Sync" :: .symbol '>' :: rest =>
        some (.closure (.parameters ts) result, rest)
      | _ => none
    | .word w :: .symbol '<' :: rest => do
      let (ts, rest) ← readTypes? n '>' rest
      let t ← appliedType? w ts
      some (t, rest)
    | .word w :: rest => (plainType? w).map (·, rest)
    | _ => none

/-- Types between commas up to a closing symbol. -/
def readTypes? : Nat → Char → List Mark → Option (List HostType × List Mark)
  | 0, _, _ => none
  | n + 1, close, marks =>
    match marks with
    | .symbol c :: rest =>
      if c = close then some ([], rest)
      else if c = '(' then readMore? n close marks
      else none
    | _ => readMore? n close marks

/-- At least one type and what follows it. -/
def readMore? : Nat → Char → List Mark → Option (List HostType × List Mark)
  | 0, _, _ => none
  | n + 1, close, marks => do
    let (t, rest) ← readType? n marks
    match rest with
    | .symbol ',' :: rest =>
      let (ts, rest) ← readTypes? n close rest
      some (t :: ts, rest)
    | .symbol c :: rest => if c = close then some ([t], rest) else none
    | _ => none

/-- The result of a function, if it has one. -/
def readResult? : Nat → List Mark → Option (HostType × List Mark)
  | 0, _ => none
  | n + 1, marks =>
    match marks with
    | .arrow :: rest => readType? n rest
    | _ => some (.nothing, marks)

end

/-- The type an expression stands for. -/
def typeOf? (expression : String) : Option HostType :=
  let marks := Mark.ofChars expression.toList
  match readType? (3 * marks.length + 3) marks with
  | some (t, []) => some t
  | _ => none

end Trellis.Studio
