/-!
White space in the sense of Unicode's `White_Space` property.
-/

namespace TripleQuery.Text

def blankRanges : List (Nat × Nat) :=
  [(0x09, 0x0d), (0x20, 0x20), (0x85, 0x85), (0xa0, 0xa0), (0x1680, 0x1680), (0x2000, 0x200a),
   (0x2028, 0x2029), (0x202f, 0x202f), (0x205f, 0x205f), (0x3000, 0x3000)]

def isBlankChar (c : Char) : Bool :=
  blankRanges.any fun range => decide (range.1 ≤ c.toNat ∧ c.toNat ≤ range.2)

/-- A text is blank when it holds white space only; the empty text is blank. -/
def isBlank (text : String) : Bool := text.toList.all isBlankChar

end TripleQuery.Text
