import Trellis.Decimal.Layout
import Trellis.Json.Basic

/-!
Writing JSON text without blanks.

Only quotes, backslashes and control characters are escaped. A number that is not finite is
written as null.
-/

namespace Trellis.Json

/-- Numbers are positional from 1e-5 up to 1e16, where a whole number keeps one decimal. -/
def numbers : Decimal.Layout where
  tie := .even
  positional leading := -5 ≤ leading && leading ≤ 15
  whole := ".0"
  notANumber := "null"
  infinite := "null"
  negativeInfinite := "null"

/-- Lower-case hexadecimal digits, as many as asked for. -/
def hexDigits (n width : Nat) : List Char :=
  let digits := Nat.toDigits 16 n
  List.replicate (width - digits.length) '0' ++ digits

/-- A character as it stands between quotes. -/
def escape (c : Char) : List Char :=
  match c with
  | '"' => ['\\', '"']
  | '\\' => ['\\', '\\']
  | '\x08' => ['\\', 'b']
  | '\x0c' => ['\\', 'f']
  | '\n' => ['\\', 'n']
  | '\r' => ['\\', 'r']
  | '\t' => ['\\', 't']
  | c => if c.toNat < 0x20 then '\\' :: 'u' :: hexDigits c.toNat 4 else [c]

def quote (s : String) : String :=
  String.ofList ('"' :: s.toList.flatMap escape ++ ['"'])

mutual

def text : Json → String
  | .null => "null"
  | .boolean b => if b then "true" else "false"
  | .integer n => toString n
  | .real x => numbers.render x
  | .string s => quote s
  | .array items => "[" ++ textOfItems items ++ "]"
  | .object entries => "\x7b" ++ textOfEntries entries ++ "\x7d"

def textOfItems : List Json → String
  | [] => ""
  | [item] => text item
  | item :: items => text item ++ "," ++ textOfItems items

def textOfEntries : List (String × Json) → String
  | [] => ""
  | [(key, value)] => quote key ++ ":" ++ text value
  | (key, value) :: entries => quote key ++ ":" ++ text value ++ "," ++ textOfEntries entries

end

end Trellis.Json
