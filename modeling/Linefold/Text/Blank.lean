/-!
# Blank characters

The characters with the Unicode property White_Space, and the operations that skip them.
-/

namespace Linefold

/-- The character has the Unicode property White_Space. -/
def isBlank (c : Char) : Bool :=
  let n := c.toNat
  (0x09 ≤ n && n ≤ 0x0d) || n = 0x20 || n = 0x85 || n = 0xa0 || n = 0x1680 ||
    (0x2000 ≤ n && n ≤ 0x200a) || n = 0x2028 || n = 0x2029 || n = 0x202f || n = 0x205f ||
    n = 0x3000

/-- The text without the blanks at its two ends. -/
def trimBlank (s : List Char) : List Char :=
  ((s.dropWhile isBlank).reverse.dropWhile isBlank).reverse

example : (isBlank '\t' && isBlank ' ' && isBlank '\u00a0' && isBlank '\u3000') = true := by decide

example : (isBlank '\u200b' || isBlank 'x' || isBlank '\u0008') = false := by decide

end Linefold
