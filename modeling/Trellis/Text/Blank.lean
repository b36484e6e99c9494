/-!
White space of the Unicode standard.
-/

namespace Trellis.Text

/-- The ranges of characters with the property White_Space. -/
def blankRanges : List (Nat × Nat) :=
  [(0x09, 0x0d), (0x20, 0x20), (0x85, 0x85), (0xa0, 0xa0), (0x1680, 0x1680), (0x2000, 0x200a),
    (0x2028, 0x2029), (0x202f, 0x202f), (0x205f, 0x205f), (0x3000, 0x3000)]

def isBlank (c : Char) : Bool := blankRanges.any fun (low, high) => low ≤ c.toNat && c.toNat ≤ high

theorem isBlank_of_isWhitespace {c : Char} (h : c.isWhitespace = true) : isBlank c = true := by
  simp only [Char.isWhitespace, Bool.or_eq_true, decide_eq_true_eq] at h
  rcases h with ((h | h) | h) | h <;> subst h <;> decide

/-- Whether a text has no other characters than blanks. -/
def allBlank (text : List Char) : Bool := text.all isBlank

def byteCount : List Char → Nat
  | [] => 0
  | c :: rest => c.utf8Size + byteCount rest

/-- Number of bytes of the blanks at the start of a text. -/
def indentBytes (text : List Char) : Nat := byteCount (text.takeWhile isBlank)

def dropBytes (count : Nat) : List Char → List Char
  | [] => []
  | c :: rest => if c.utf8Size ≤ count then dropBytes (count - c.utf8Size) rest else c :: rest

end Trellis.Text
