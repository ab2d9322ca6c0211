/-!
# Blank characters

The Unicode `White_Space` property, and trimming by it.  Names and settings
are trimmed by this property, which is wider than the ASCII blanks.
-/

namespace CallBinding

/-- The closed ranges of code points with the `White_Space` property. -/
def blankRanges : List (Nat × Nat) :=
  [(0x09, 0x0D), (0x20, 0x20), (0x85, 0x85), (0xA0, 0xA0), (0x1680, 0x1680), (0x2000, 0x200A),
    (0x2028, 0x2029), (0x202F, 0x202F), (0x205F, 0x205F), (0x3000, 0x3000)]

/-- A blank is a character with the `White_Space` property. -/
def isBlank (c : Char) : Bool :=
  blankRanges.any fun range => range.1 ≤ c.toNat && c.toNat ≤ range.2

/-- Drops the last characters of a text while they satisfy a test. -/
def dropEndWhile (p : Char → Bool) (text : List Char) : List Char :=
  (text.reverse.dropWhile p).reverse

/-- A text without its leading and trailing blanks. -/
def trimBlanks (text : List Char) : List Char :=
  dropEndWhile isBlank (text.dropWhile isBlank)

theorem dropEndWhile_nil (p : Char → Bool) : dropEndWhile p [] = [] := rfl

end CallBinding
