import Trellis.Host.Universe
import Trellis.Uuid

/-!
The host types of a film studio.

The universe of an example program: actors, films and scenarios, the inputs its queries take, its
custom scalars, and a few types that no schema admits.
-/

namespace Trellis.Studio

def ours (name : String) : HostType := .named ("fx::t::" ++ name)

def actor : HostType := ours "Actor"

def scenario : HostType := ours "Scenario"

def film : HostType := ours "Film"

def director : HostType := ours "Director"

def node : HostType := ours "Node"

def empty : HostType := ours "Empty"

def filmType : HostType := ours "FilmType"

def genre : HostType := ours "Genre"

def inputOne : HostType := ours "InputOne"

def testInput : HostType := ours "TestInput"

def idScalar : HostType := ours "Id"

def celsius : HostType := ours "Celsius"

def stamp : HostType := ours "Stamp"

def ratio : HostType := ours "Ratio"

def flag : HostType := ours "Flag"

def uuid : HostType := Uuid.host

def hashMap (key value : HostType) : HostType :=
  .generic "std::collections::hash::map::HashMap" (.parameters [key, value])

def sortedMap (key value : HostType) : HostType :=
  .generic "alloc::collections::btree::map::BTreeMap" (.parameters [key, value])

/-- A type that is described as one type and handed out as another. -/
def liar (shown shape : HostType) : HostType :=
  .generic "fx::t::Liar" (.parameters [shown, shape])

/-- A function without parameters that returns a number. -/
def numberFunction : HostType := .function .nothing .int

def scalars : List (String × Definition) :=
  [("uuid::Uuid", .scalar), ("fx::t::Id", .scalar), ("fx::t::Celsius", .scalar),
    ("fx::t::Stamp", .scalar), ("fx::t::Ratio", .scalar), ("fx::t::Flag", .scalar)]

def enums : List (String × Definition) :=
  [("fx::t::FilmType", .enumeration "FilmType" ["SHORT_LENGTH", "FULL_LENGTH"]),
    ("fx::t::Genre", .enumeration "GENRE" ["DRAMA", "COMEDY", "SCI_FI"]),
    ("fx::t::EnumImpostor", .enumeration "Actor" ["A"])]

def objects : List (String × Definition) :=
  [("fx::t::Actor", .object "Actor" [("name", .text), ("age", .int)]),
    ("fx::t::Scenario", .object "Scenario" [("id", .text), ("author", .text), ("content", .text)]),
    ("fx::t::Film", .object "Movie"
      [("title", .text), ("year", .optional .int), ("kind", filmType),
        ("director", .optional (.boxed director))]),
    ("fx::t::Director", .object "Director"
      [("name", .text), ("debut", .optional (.boxed film))]),
    ("fx::t::Node", .object "Node"
      [("id", .int), ("parent", .optional (.boxed node)), ("kids", .sequence node)]),
    ("fx::t::Everything", .object "Everything"
      [("s", .text), ("i", .int), ("l", .long), ("f", .float), ("b", .boolean), ("id", .id),
        ("e", filmType), ("a", .shared actor), ("os", .optional .text), ("oi", .optional .int),
        ("ol", .optional .long), ("of", .optional .float), ("ob", .optional .boolean),
        ("oid", .optional .id), ("oe", .optional filmType), ("oa", .optional actor),
        ("vi", .sequence .int), ("voi", .sequence (.optional .int)),
        ("ovi", .optional (.sequence .int)), ("vvi", .sequence (.sequence .int)),
        ("va", .sequence actor)]),
    ("fx::t::Holder", .object "Holder"
      [("id", idScalar), ("temp", .optional celsius), ("stamps", .sequence stamp)]),
    ("fx::t::Impostor", .object "Actor" [("name", .text)]),
    ("fx::t::Empty", .object "Empty" []),
    ("fx::t::Pair", .object "Pair"
      [("tag", .text), ("pair", .tuple (.parameters [.int, .text]))]),
    ("fx::t::MapHolder", .object "MapHolder" [("map", hashMap .text .int)]),
    ("fx::t::Lambda", .object "Lambda" [("lambda", numberFunction), ("tag", .text)]),
    ("fx::t::ArcLambda", .object "ArcLambda"
      [("call", .closure (.parameters [.text, .int]) .boolean)]),
    ("fx::t::Shapes", .object "Shapes" [("shape", .member)]),
    ("fx::t::Weird", .object "Weird" [("w", ours "InputAsOutput")]),
    ("fx::t::Twice", .object "Twice" [("x", .int), ("x", .int)])]

def inputs : List (String × Definition) :=
  [("fx::t::InputOne", .inputObject "InputOne" [("kind", filmType), ("id", .text)]),
    ("fx::t::InputTwo", .inputObject "OrderInput"
      [("one", inputOne), ("quantity", .int), ("tokens", .sequence .text)]),
    ("fx::t::TestInput", .inputObject "TestInput"
      [("a", .optional .text), ("b", .optional (.sequence (.optional .text))), ("c", .text)]),
    ("fx::t::TestNested", .inputObject "TestNested" [("na", testInput), ("nb", .text)]),
    ("fx::t::RecInput", .inputObject "RecInput"
      [("v", .int), ("next", .optional (.boxed (ours "RecInput")))]),
    ("fx::t::AllInput", .inputObject "AllInput"
      [("i", .int), ("l", .long), ("f", .float), ("b", .boolean), ("s", .text), ("id", .id),
        ("e", genre), ("oi", .optional .int), ("vv", .sequence (.sequence .int))]),
    ("fx::t::ScalarInput", .inputObject "ScalarInput"
      [("id", idScalar), ("temp", .optional celsius)]),
    ("fx::t::EmptyInput", .inputObject "EmptyInput" []),
    ("fx::t::InputImpostor", .inputObject "Actor" [("name", .text)]),
    ("fx::t::GenericInput", .inputObject "GenericInput"
      [("ok", .int), ("map", hashMap .text .int)])]

/-- Types whose descriptions do not fit their values. -/
def pretenders : List (String × Definition) :=
  [("fx::t::Liar", .disguise), ("fx::t::InputAsOutput", .mask (.inputObject inputOne inputOne)),
    ("fx::t::ObjectArg", .mask (.object actor actor)), ("fx::t::UnionArg", .mask (.union .member)),
    ("fx::t::FnArg", .mask (.function numberFunction))]

/-- All types of the studio. -/
def types : Universe := ⟨scalars ++ enums ++ objects ++ inputs ++ pretenders⟩

end Trellis.Studio
