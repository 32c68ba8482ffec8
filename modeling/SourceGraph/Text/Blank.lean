/-!
# Blanks

White space in the sense of the Unicode property `White_Space`, and what is cut or joined by it.

* `isBlank`: the characters with the property.
* `trim`, `trimEnd`: a text without blanks at both ends, or at its end.
* `words`: the maximal runs of other characters.
* `collapse`: a text on one line, its words separated by one space.
-/

set_option autoImplicit false

namespace SourceGraph.Text

/-- The characters with the Unicode property `White_Space`. -/
def isBlank (c : Char) : Bool :=
  let n := c.toNat
  (9 ≤ n && n ≤ 13) || n == 0x20 || n == 0x85 || n == 0xA0 || n == 0x1680 ||
    (0x2000 ≤ n && n ≤ 0x200A) || n == 0x2028 || n == 0x2029 || n == 0x202F || n == 0x205F ||
    n == 0x3000

/-- The characters from the first one that is no blank. -/
def trimStart (cs : List Char) : List Char := cs.dropWhile isBlank

/-- The characters up to the last one that is no blank. -/
def trimEnd (cs : List Char) : List Char := (cs.reverse.dropWhile isBlank).reverse

/-- The characters between the blanks at both ends. -/
def trim (cs : List Char) : List Char := trimEnd (trimStart cs)

/-- The maximal runs of characters that are no blanks. -/
def words (cs : List Char) : List (List Char) := (cs.splitOnP isBlank).filter (· ≠ [])

/-- The words of a text with one space between them. -/
def collapse (s : String) : String := " ".intercalate ((words s.toList).map String.ofList)

end SourceGraph.Text
