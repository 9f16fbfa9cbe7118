import Linefold.Number.Text

/-!
# Literal values

What the comparison operators and `CONCAT` see of a literal node. Numbers and strings are both text
to them; every comparison but equality looks at the numbers that its operands stand for.
-/

namespace Linefold

/-- The payload of a literal node. -/
inductive Literal where
  | text (s : String)
  | bool (b : Bool)
  | null
  deriving DecidableEq, Repr

namespace Literal

/-- The number that a literal stands for. -/
def toNumber : Literal → Number
  | text s => .ofText s
  | bool b => .ofInt (if b then 1 else 0)
  | null => .nan

/-- The literal as a piece of text. -/
def toText : Literal → String
  | text s => s
  | bool b => if b then "true" else "false"
  | null => "null"

/-- Loose equality: text compares as text, booleans as booleans, one with the other as numbers, and
null equals itself only. -/
def looseEq : Literal → Literal → Bool
  | null, null => true
  | null, _ | _, null => false
  | text s, text t => s = t
  | bool a, bool b => a = b
  | x, y => x.toNumber.sameValue y.toNumber

/-- What a comparison operator makes of two literals; other tags make nothing of them. -/
def compare? : Tag → Literal → Literal → Option Bool
  | .eq, x, y => some (x.looseEq y)
  | .ne, x, y => some (!x.toNumber.sameValue y.toNumber)
  | .lt, x, y => some (x.toNumber.lt y.toNumber)
  | .gt, x, y => some (y.toNumber.lt x.toNumber)
  | .le, x, y => some (x.toNumber.le y.toNumber)
  | .ge, x, y => some (y.toNumber.le x.toNumber)
  | _, _, _ => none

end Literal

end Linefold
