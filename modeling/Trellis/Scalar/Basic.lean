import Trellis.Decimal.Layout
import Trellis.Width

/-!
Leaf values of responses and literals.

`Scalar.long` is meant for whole numbers that do not fit 32 bits, but holds smaller ones as well.
The views read a scalar as a kind: whole numbers by their value, and every number as a float.
-/

namespace Trellis

inductive Scalar where
  | int (n : Int32)
  | long (n : Int64)
  | float (x : Float)
  | string (s : String)
  | boolean (b : Bool)
deriving Inhabited

namespace Scalar

/-- The number as 32 bits, if it fits. -/
def narrow? (n : Int64) : Option Int32 := Width.int32? n.toInt

/-- A whole number in the smallest kind that holds it. -/
def ofInt64 (n : Int64) : Scalar :=
  match narrow? n with
  | some m => .int m
  | none => .long n

def int? : Scalar → Option Int32
  | .int n => some n
  | .long n => narrow? n
  | _ => none

def long? : Scalar → Option Int64
  | .int n => some n.toInt64
  | .long n => some n
  | _ => none

def float? : Scalar → Option Float
  | .int n => some n.toFloat
  | .long n => some n.toFloat
  | .float x => some x
  | _ => none

def string? : Scalar → Option String
  | .string s => some s
  | _ => none

def boolean? : Scalar → Option Bool
  | .boolean b => some b
  | _ => none

/-- Name of the kind a scalar carries. -/
def kind : Scalar → String
  | .int _ => "Int"
  | .long _ => "Long"
  | .float _ => "Float"
  | .string _ => "String"
  | .boolean _ => "Boolean"

/-- Whether two scalars are of one kind and equal in it. Floats compare as numbers, so one that is
not a number differs from itself. -/
def same : Scalar → Scalar → Bool
  | .int a, .int b => a == b
  | .long a, .long b => a == b
  | .float a, .float b => a == b
  | .string a, .string b => a == b
  | .boolean a, .boolean b => a == b
  | _, _ => false

/-- Numbers in messages never have an exponent, and a whole float has no point. -/
def numbers : Decimal.Layout where
  tie := .up
  positional _ := true
  whole := ""
  notANumber := "NaN"
  infinite := "inf"
  negativeInfinite := "-inf"

/-- The text of a scalar in messages. Strings stand between quotes as they are. -/
def text : Scalar → String
  | .int n => toString n.toInt
  | .long n => toString n.toInt
  | .float x => numbers.render x
  | .string s => "\"" ++ s ++ "\""
  | .boolean b => if b then "true" else "false"

end Scalar

end Trellis
