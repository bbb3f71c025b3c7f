/-! # Blanks

The characters with the Unicode property `White_Space`, and texts without them
at their ends.
-/

namespace MembershipLowering.Text

/-- Whether a character has the Unicode property `White_Space`. -/
def isBlank (c : Char) : Bool :=
  let n := c.toNat
  (0x09 ≤ n && n ≤ 0x0d) || n == 0x20 || n == 0x85 || n == 0xa0 || n == 0x1680 ||
    (0x2000 ≤ n && n ≤ 0x200a) || n == 0x2028 || n == 0x2029 || n == 0x202f || n == 0x205f ||
    n == 0x3000

/-- The text without the blanks at its ends. -/
def trim (cs : List Char) : List Char :=
  ((cs.dropWhile isBlank).reverse.dropWhile isBlank).reverse

/-- Whether the text, without the blanks at its ends and apart from case, is the
    given word. The word has to be in lower case and, of letters, to have ASCII
    ones other than `k`: those are no lower case of any letter outside ASCII. -/
def spells (word : String) (cs : List Char) : Bool :=
  (trim cs).map Char.toLower = word.toList

end MembershipLowering.Text
