/-!
# Blanks

A blank is a character with the Unicode property White_Space. Message bodies may be surrounded by
blanks, which `trim` removes; blanks inside a text are left alone.
-/

namespace LogShipping.Text

/-- The ranges of characters with the Unicode property White_Space, in order. -/
def blankRanges : List (Nat × Nat) :=
  [(0x09, 0x0D), (0x20, 0x20), (0x85, 0x85), (0xA0, 0xA0), (0x1680, 0x1680), (0x2000, 0x200A),
   (0x2028, 0x2029), (0x202F, 0x202F), (0x205F, 0x205F), (0x3000, 0x3000)]

/-- Whether a character has the Unicode property White_Space. -/
def isBlank (c : Char) : Bool := blankRanges.any fun r => r.1 ≤ c.toNat && c.toNat ≤ r.2

/-- A list of characters without the blanks at either end. -/
def trimList (chars : List Char) : List Char :=
  ((chars.dropWhile isBlank).reverse.dropWhile isBlank).reverse

/-- A string without the blanks at either end. -/
def trim (s : String) : String := String.ofList (trimList s.toList)

end LogShipping.Text
