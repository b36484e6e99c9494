import Trellis.Value.Basic

/-!
The text of a value in messages: lists in brackets, objects in braces with quoted keys, strings
between quotes without any escaping.
-/

namespace Trellis.Value

mutual

def text : Value → String
  | .null => "null"
  | .scalar s => s.text
  | .list items => "[" ++ textOfItems items ++ "]"
  | .object fields => "\x7b" ++ textOfFields fields ++ "\x7d"

def textOfItems : List Value → String
  | [] => ""
  | [item] => text item
  | item :: items => text item ++ ", " ++ textOfItems items

def textOfFields : List (String × Value) → String
  | [] => ""
  | [(key, value)] => "\"" ++ key ++ "\": " ++ text value
  | (key, value) :: fields => "\"" ++ key ++ "\": " ++ text value ++ ", " ++ textOfFields fields

end

end Trellis.Value
