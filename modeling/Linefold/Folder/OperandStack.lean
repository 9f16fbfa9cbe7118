import Linefold.Node

/-!
# The operand stack

Values of finished expressions, in frames. The values of all frames stand in one array and a frame
is the position at which it starts, so opening and closing frames moves nothing.
-/

namespace Linefold

/-- A stack of values that is divided into frames. -/
structure OperandStack where
  items : Array NodeId := #[]
  /-- Where the open frames start, innermost first. -/
  frames : List Nat := []
  deriving DecidableEq, Repr

namespace OperandStack

instance : Inhabited OperandStack := ⟨{}⟩

/-- Where the current frame starts. Without an open frame it is the whole stack. -/
def base (s : OperandStack) : Nat := s.frames.head?.getD 0

def push (s : OperandStack) (id : NodeId) : OperandStack := { s with items := s.items.push id }

/-- Takes the top value of the current frame; none if the frame is empty. -/
def pop (s : OperandStack) : Option NodeId × OperandStack :=
  if s.base < s.items.size then (s.items.back?, { s with items := s.items.pop }) else (none, s)

/-- Takes up to `n` values from the current frame, top first. -/
def popMany (s : OperandStack) : Nat → List NodeId × OperandStack
  | 0 => ([], s)
  | n + 1 =>
    match s.pop with
    | (none, s) => ([], s)
    | (some id, s) =>
      let (ids, s) := s.popMany n
      (id :: ids, s)

/-- The number of values in the current frame. -/
def frameSize (s : OperandStack) : Nat := s.items.size - s.base

def openFrame (s : OperandStack) : OperandStack := { s with frames := s.items.size :: s.frames }

/-- Closes the current frame and takes its values, bottom first. Without an open frame it takes all
values. -/
def closeFrame (s : OperandStack) : List NodeId × OperandStack :=
  ((s.items.extract s.base s.items.size).toList,
    { items := s.items.take s.base, frames := s.frames.tail })

end OperandStack

end Linefold
