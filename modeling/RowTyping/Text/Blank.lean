/-! # Blank characters and trimming -/

namespace RowTyping.Text

/-- The first and last character of each run of blank characters: the Unicode spaces, line and
paragraph ends, and the four information separators. -/
def blankRanges : List (Nat × Nat) := [
  (0x9, 0xd), (0x1c, 0x20), (0x85, 0x85), (0xa0, 0xa0), (0x1680, 0x1680), (0x2000, 0x200a),
  (0x2028, 0x2029), (0x202f, 0x202f), (0x205f, 0x205f), (0x3000, 0x3000)]

/-- Whether a character is blank. -/
def isBlank (c : Char) : Bool := blankRanges.any fun r => r.1 ≤ c.toNat && c.toNat ≤ r.2

/-- A text without the blanks at its end. -/
def trimEnd (l : List Char) : List Char := (l.reverse.dropWhile isBlank).reverse

/-- A text without the blanks at its two ends. -/
def trim (l : List Char) : List Char := trimEnd (l.dropWhile isBlank)

end RowTyping.Text
