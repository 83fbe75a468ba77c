/-!
# Blank characters, words and rows

Cutting text at blanks and at the two ends, and putting texts in a row. A character is *blank* when
Unicode gives it the property `White_Space`; this is the notion used for emptiness, for trimming and
for the words of a schema line. The rule notation has a narrower notion of its own.
-/

namespace Conjunct

namespace Text

/-! ## Blanks -/

/-- The Unicode property `White_Space`. -/
def isBlank (c : Char) : Bool :=
  let code := c.toNat
  (0x09 ≤ code && code ≤ 0x0D) || code == 0x20 || code == 0x85 || code == 0xA0 ||
    code == 0x1680 || (0x2000 ≤ code && code ≤ 0x200A) || code == 0x2028 || code == 0x2029 ||
    code == 0x202F || code == 0x205F || code == 0x3000

/-- Drop the blanks at both ends. -/
def trim (cs : List Char) : List Char :=
  ((cs.dropWhile isBlank).reverse.dropWhile isBlank).reverse

/-- Whether a text holds nothing but blanks. -/
def isEmpty (text : String) : Bool :=
  text.toList.all isBlank

/-- The maximal runs of characters that are not blank. -/
def words (cs : List Char) : List (List Char) :=
  (cs.splitOnP isBlank).filter (· ≠ [])

/-! ## Joining -/

/-- Put texts in a row with a separator between neighbours. -/
def joined (sep : String) : List String → String
  | [] => ""
  | [text] => text
  | text :: next :: rest => text ++ sep ++ joined sep (next :: rest)

end Text

end Conjunct
