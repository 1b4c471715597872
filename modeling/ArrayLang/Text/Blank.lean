/-!
# Blank characters

The white space of Unicode: the ASCII controls from tab to carriage return, the space, U+0085, and
the separators of category Z.  Lines of input are trimmed with it.
-/

namespace ArrayLang.Text

/-- White space in the sense of Unicode. -/
def isBlank (c : Char) : Bool :=
  let n := c.val
  (0x09 ≤ n && n ≤ 0x0d) || n == 0x20 || n == 0x85 || n == 0xa0 || n == 0x1680 ||
    (0x2000 ≤ n && n ≤ 0x200a) || n == 0x2028 || n == 0x2029 || n == 0x202f || n == 0x205f ||
    n == 0x3000

end ArrayLang.Text
