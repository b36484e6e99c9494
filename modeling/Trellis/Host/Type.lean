/-!
Types of the host program.

A host type identifies the values that resolvers pass around: two values belong to one type exactly
when their host types are equal. The name of a host type is spelled in full, as messages show it.
-/

namespace Trellis

/-- Types of host values. `nothing` and `parameter` build parameter lists and are no types of values
themselves. -/
inductive HostType where
  | text
  | int
  | long
  | float
  | boolean
  | id
  | member
  | named (path : String)
  | optional (inner : HostType)
  | sequence (inner : HostType)
  | boxed (inner : HostType)
  | shared (inner : HostType)
  | nothing
  | parameter (first rest : HostType)
  | generic (path : String) (parameters : HostType)
  | tuple (parameters : HostType)
  | function (parameters result : HostType)
  | closure (parameters result : HostType)
deriving DecidableEq, Repr, Inhabited

namespace HostType

def parameters : List HostType → HostType
  | [] => .nothing
  | first :: rest => .parameter first (parameters rest)

def applied (path parameters : String) : String := path ++ "<" ++ parameters ++ ">"

def called (path parameters : String) : String := path ++ "(" ++ parameters ++ ")"

def name : HostType → String
  | .text => "alloc::string::String"
  | .int => "i32"
  | .long => "i64"
  | .float => "f64"
  | .boolean => "bool"
  | .id => "juniper_dynamic::types::scalars::ID"
  | .member => "juniper_dynamic::types::union::UnionMember"
  | .named path => path
  | .optional inner => applied "core::option::Option" inner.name
  | .sequence inner => applied "alloc::vec::Vec" inner.name
  | .boxed inner => applied "alloc::boxed::Box" inner.name
  | .shared inner => applied "alloc::sync::Arc" inner.name
  | .nothing => ""
  | .parameter first .nothing => first.name
  | .parameter first rest => first.name ++ ", " ++ rest.name
  | .generic path parameters => applied path parameters.name
  | .tuple parameters => called "" parameters.name
  | .function parameters result => called "fn" parameters.name ++ arrow result.name
  | .closure parameters result =>
    applied "alloc::sync::Arc" (called "dyn core::ops::function::Fn" parameters.name ++
      arrow result.name ++ " + core::marker::Send + core::marker::Sync")
where
  arrow (result : String) : String := if result = "" then "" else " -> " ++ result

/-- What follows the last pair of colons. -/
def lastSegment (text : List Char) : List Char := go text text
where
  go (found : List Char) : List Char → List Char
    | ':' :: ':' :: rest => go rest rest
    | _ :: rest => go found rest
    | [] => found

/-- The last segment of the name up to its parameters. -/
def shortName (t : HostType) : String :=
  String.ofList (lastSegment (t.name.toList.takeWhile (· ≠ '<')))

end HostType

end Trellis
