/-!
Blanks: the characters with the `White_Space` property.
-/

namespace ShaderGen.Text

/-- Whether a character separates words: the controls from tab to carriage
return, the space, the next-line control, the no-break space, the Ogham space
mark, the typographic spaces, the line and paragraph separators, the narrow
no-break space, the medium mathematical space and the ideographic space. -/
def isBlank (c : Char) : Bool :=
  let n := c.toNat
  (0x09 ≤ n && n ≤ 0x0D) || n == 0x20 || n == 0x85 || n == 0xA0 || n == 0x1680 ||
    (0x2000 ≤ n && n ≤ 0x200A) || n == 0x2028 || n == 0x2029 || n == 0x202F || n == 0x205F ||
    n == 0x3000

/-- The text without the blanks at its ends. -/
def trim (cs : List Char) : List Char :=
  ((cs.dropWhile isBlank).reverse.dropWhile isBlank).reverse

end ShaderGen.Text
