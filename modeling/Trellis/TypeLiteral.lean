/-!
Type literals, such as `[Int!]!`.

A type literal names one type, wrapped in any number of lists; each layer is either nullable or
not. It says nothing about whether the named type exists.
-/

namespace Trellis

inductive TypeLiteral where
  | named (name : String) (nonNull : Bool)
  | list (inner : TypeLiteral) (nonNull : Bool)
deriving DecidableEq, Repr, Inhabited

namespace TypeLiteral

def name? : TypeLiteral → Option String
  | .named name _ => some name
  | .list .. => none

def innermost : TypeLiteral → String
  | .named name _ => name
  | .list inner _ => inner.innermost

/-- The type of the elements of a list. -/
def contents? : TypeLiteral → Option TypeLiteral
  | .named .. => none
  | .list inner _ => some inner

/-- Whether null is excluded at the outermost layer. -/
def isNonNull : TypeLiteral → Bool
  | .named _ nonNull => nonNull
  | .list _ nonNull => nonNull

/-- The type with null admitted at the outermost layer. -/
def nullable : TypeLiteral → TypeLiteral
  | .named name _ => .named name false
  | .list inner _ => .list inner false

def text : TypeLiteral → String
  | .named name nonNull => name ++ (if nonNull then "!" else "")
  | .list inner nonNull => "[" ++ inner.text ++ "]" ++ (if nonNull then "!" else "")

@[simp] theorem isNonNull_nullable (t : TypeLiteral) : t.nullable.isNonNull = false := by
  cases t <;> rfl

@[simp] theorem innermost_nullable (t : TypeLiteral) : t.nullable.innermost = t.innermost := by
  cases t <;> rfl

end TypeLiteral

end Trellis
