import Trellis.Json.Writer
import Trellis.Studio.Types

/-!
Texts of host values of the studio.

Values are shown by their type: identifiers and custom scalars with their names around them, floats
by their bits, missing values as `none`.
-/

namespace Trellis.Studio

/-- The bits of a float as sixteen hexadecimal digits. -/
def floatBits (x : Float) : String :=
  if x.isNaN then "nan" else String.ofList (Json.hexDigits x.toBits.toNat 16)

/-- The type inside boxes and shared pointers. -/
def pointee : HostType → HostType
  | .boxed t => pointee t
  | .shared t => pointee t
  | t => t

/-- A named value around a text. -/
def wrapped (name inner : String) : String := name ++ "(" ++ inner ++ ")"

/-- The text of a value that is no list, no record and not missing. -/
def showLeaf (t : HostType) (v : HostValue) : String :=
  match v with
  | .text s =>
    if t = .id then wrapped "ID" s
    else if t = uuid then wrapped "Uuid" s
    else "\"" ++ s ++ "\""
  | .int n => if t = celsius then wrapped "Celsius" (toString n.toInt) else toString n.toInt
  | .long n => if t = stamp then wrapped "Stamp" (toString n.toInt) else toString n.toInt
  | .float x => if t = ratio then wrapped "Ratio" (floatBits x) else "f:" ++ floatBits x
  | .boolean b =>
    let s := if b then "true" else "false"
    if t = flag then wrapped "Flag" s else s
  | .variant name => name
  | .nothing => t.shortName
  | _ => "?"

/-- The declared types of the fields of a record. -/
def fieldTypes (t : HostType) : List (String × HostType) :=
  match t with
  | .named path =>
    match types.definition? path with
    | some (.inputObject _ fields) => fields
    | _ => []
  | _ => []

mutual

def «show» (t : HostType) : HostValue → String
  | .absent => "none"
  | .present v =>
    match pointee t with
    | .optional inner => wrapped "some" («show» inner v)
    | other => wrapped "some" («show» other v)
  | .sequence items =>
    match pointee t with
    | .sequence inner => "[" ++ showItems inner items ++ "]"
    | other => "[" ++ showItems other items ++ "]"
  | .record fields =>
    match fields with
    | [("literal", .text literal), ("numeric", .int numeric)] =>
      wrapped "Id" (literal ++ "|" ++ toString numeric.toInt)
    | fields => "\x7b" ++ showFields (fieldTypes (pointee t)) fields ++ "\x7d"
  | v => showLeaf (pointee t) v

def showItems (t : HostType) : List HostValue → String
  | [] => ""
  | [v] => «show» t v
  | v :: vs => «show» t v ++ ", " ++ showItems t vs

def showFields (declared : List (String × HostType)) : List (String × HostValue) → String
  | [] => ""
  | [(name, v)] => name ++ ": " ++ «show» ((declared.lookup name).getD .nothing) v
  | (name, v) :: rest =>
    name ++ ": " ++ «show» ((declared.lookup name).getD .nothing) v ++ ", " ++
      showFields declared rest

end

end Trellis.Studio
