/-!
# Places in a text

Columns count characters, lines count from zero. A `Span` is a half-open range of columns on one
line, a `Position` is one of its two ends.
-/

namespace Linefold

/-- A column on a line. -/
structure Position where
  line : Nat
  column : Nat
  deriving DecidableEq, Repr

/-- The columns from `start` up to but not including `stop`, on one line. -/
structure Span where
  line : Nat
  start : Nat
  stop : Nat
  deriving DecidableEq, Repr

namespace Span

/-- The empty range at the start of the text, for what has no place of its own. -/
def zero : Span := ⟨0, 0, 0⟩

instance : Inhabited Span := ⟨zero⟩

def first (s : Span) : Position := ⟨s.line, s.start⟩

def last (s : Span) : Position := ⟨s.line, s.stop⟩

end Span

end Linefold
