/-!
# White space

The characters with the Unicode property White_Space, and texts without them at either end.
-/

namespace LuaInfer.Text

/-- Whether a character is white space. -/
def isWhite (c : Char) : Bool :=
  let n := c.toNat
  (0x09 ≤ n && n ≤ 0x0d) || n == 0x20 || n == 0x85 || n == 0xa0 || n == 0x1680
    || (0x2000 ≤ n && n ≤ 0x200a) || n == 0x2028 || n == 0x2029 || n == 0x202f || n == 0x205f
    || n == 0x3000

/-- A text without the white space at its ends. -/
def trim (s : List Char) : List Char :=
  ((s.dropWhile isWhite).reverse.dropWhile isWhite).reverse

/-- A word for comparison: no white space around it, and the letters `A` to `Z` in lower case. No other
character has a letter of the words in question as its lower case. -/
def word (s : String) : String :=
  .ofList ((trim s.toList).map Char.toLower)

end LuaInfer.Text
