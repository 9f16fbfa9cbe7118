import Linefold.Proofs.Folding.Frames
import Linefold.Proofs.Requests

/-!
# The operand stack is a stack of lists

One array and the positions at which the frames start stand for a stack of lists (`Stack.flat`). From the
empty stack on, whatever is asked, the two give the same replies and stay in step, and the positions are in
order and within the array (`OperandStack.serveEach_lays`).
-/

namespace Linefold

/-- What may be asked of a stack with frames. -/
inductive StackRequest where
  | push (id : NodeId)
  | pop
  | openFrame
  | closeFrame

inductive StackReply where
  | done
  | popped (id : Option NodeId)
  | closed (ids : List NodeId)
  deriving DecidableEq

/-! ### Stacks of lists -/

/-- Lists of values, last value first, one inside the other. The outermost list is always there. -/
structure Stack where
  innermost : List NodeId := []
  /-- The lists around the innermost one, from the inside out. -/
  outer : List (List NodeId) := []

namespace Stack

def push (s : Stack) (id : NodeId) : Stack := { s with innermost := id :: s.innermost }

def pop (s : Stack) : Option NodeId × Stack :=
  match s.innermost with
  | [] => (none, s)
  | id :: ids => (some id, { s with innermost := ids })

def openFrame (s : Stack) : Stack := ⟨[], s.innermost :: s.outer⟩

/-- Takes the innermost list away, bottom first; the outermost one is only emptied. -/
def closeFrame (s : Stack) : List NodeId × Stack :=
  (s.innermost.reverse,
    match s.outer with
    | [] => {}
    | ids :: outer => ⟨ids, outer⟩)

def serve : StackRequest → Stack → StackReply × Stack
  | .push id, s => (.done, s.push id)
  | .pop, s => (.popped s.pop.1, s.pop.2)
  | .openFrame, s => (.done, s.openFrame)
  | .closeFrame, s => (.closed s.closeFrame.1, s.closeFrame.2)

/-- All values in one array, from the outermost list to the innermost one and each bottom first, with the
positions at which the inner lists start. -/
def flatten (innermost : List NodeId) : List (List NodeId) → OperandStack
  | [] => { items := innermost.reverse.toArray }
  | ids :: outer => (flatten ids outer).stacked [innermost]

def flat (s : Stack) : OperandStack := flatten s.innermost s.outer

end Stack

namespace OperandStack

def serve : StackRequest → OperandStack → StackReply × OperandStack
  | .push id, s => (.done, s.push id)
  | .pop, s => (.popped s.pop.1, s.pop.2)
  | .openFrame, s => (.done, s.openFrame)
  | .closeFrame, s => (.closed s.closeFrame.1, s.closeFrame.2)

end OperandStack

namespace Stack

theorem push_flat (s : Stack) (id : NodeId) : s.flat.push id = (s.push id).flat := by
  obtain ⟨innermost, outer⟩ := s
  cases outer with
  | nil => simp [flat, flatten, push, OperandStack.push]
  | cons ids outer =>
    show ((flatten ids outer).stacked [innermost]).push id = (flatten ids outer).stacked [id :: innermost]
    exact OperandStack.push_stacked

theorem pop_flat (s : Stack) : s.flat.pop = (s.pop.1, s.pop.2.flat) := by
  obtain ⟨innermost, outer⟩ := s
  cases outer with
  | nil =>
    cases innermost with
    | nil => rfl
    | cons id innermost => simp [flat, flatten, pop, OperandStack.pop, OperandStack.base]
  | cons ids outer =>
    cases innermost with
    | nil =>
      show ((flatten ids outer).stacked [[]]).pop = (none, (flatten ids outer).stacked [[]])
      exact OperandStack.pop_stacked_nil
    | cons id innermost =>
      show ((flatten ids outer).stacked [id :: innermost]).pop = (some id, (flatten ids outer).stacked [innermost])
      exact OperandStack.pop_stacked

theorem openFrame_flat (s : Stack) : s.flat.openFrame = s.openFrame.flat :=
  @OperandStack.openFrame_stacked s.flat []

theorem closeFrame_flat (s : Stack) : s.flat.closeFrame = (s.closeFrame.1, s.closeFrame.2.flat) := by
  obtain ⟨innermost, outer⟩ := s
  cases outer with
  | nil =>
    have hall : innermost.reverse.take innermost.length = innermost.reverse := List.take_of_length_le (by simp)
    simp [flat, flatten, closeFrame, OperandStack.closeFrame, OperandStack.base, hall]
  | cons ids outer =>
    show ((flatten ids outer).stacked [innermost]).closeFrame = (innermost.reverse, (flatten ids outer).stacked [])
    exact OperandStack.closeFrame_stacked

theorem serve_flat (r : StackRequest) (s : Stack) : s.flat.serve r = ((s.serve r).1, (s.serve r).2.flat) := by
  cases r with
  | push id => exact congrArg (StackReply.done, ·) (s.push_flat id)
  | pop =>
    show (StackReply.popped s.flat.pop.1, s.flat.pop.2) = _
    rw [s.pop_flat]
    rfl
  | openFrame => exact congrArg (StackReply.done, ·) s.openFrame_flat
  | closeFrame =>
    show (StackReply.closed s.flat.closeFrame.1, s.flat.closeFrame.2) = _
    rw [s.closeFrame_flat]
    rfl

end Stack

/-! ### The shape of the array -/

namespace OperandStack

/-- The array and the start positions are those of a stack of lists, and every frame starts within the array, no
sooner than the frame around it. Closing the innermost frame takes its values and leaves all others. -/
structure Lays (s : OperandStack) (lists : Stack) : Prop where
  flat : s = lists.flat
  sorted : s.frames.Pairwise fun inner outer => outer ≤ inner
  start_le : ∀ b ∈ s.frames, b ≤ s.items.size
  base_le : s.base ≤ s.items.size
  frameSize : s.frameSize = lists.innermost.length
  closed : s.closeFrame.2.items.toList ++ s.closeFrame.1 = s.items.toList
  kept : s.closeFrame.2.items.size = s.base

end OperandStack

namespace Stack

variable {innermost ids : List NodeId} {outer : List (List NodeId)}

theorem size_flatten_cons :
    (flatten innermost (ids :: outer)).items.size = (flatten ids outer).items.size + innermost.length := by
  simp [flatten, OperandStack.stacked]

theorem frames_flatten_cons : (flatten innermost (ids :: outer)).frames =
    (flatten ids outer).items.size :: (flatten ids outer).frames := rfl

/-- The innermost list is all that stands behind the last start position. -/
theorem base_flatten : (flatten innermost outer).base + innermost.length = (flatten innermost outer).items.size := by
  cases outer with
  | nil => simp [flatten, OperandStack.base]
  | cons ids outer => exact size_flatten_cons.symm

theorem start_le_flatten : ∀ b ∈ (flatten innermost outer).frames, b ≤ (flatten innermost outer).items.size := by
  induction outer generalizing innermost with
  | nil => intro b hb; cases hb
  | cons ids outer ih =>
    intro b hb
    rw [size_flatten_cons]
    rcases List.mem_cons.1 hb with rfl | hb
    · exact Nat.le_add_right _ _
    · exact Nat.le_add_right_of_le (ih b hb)

theorem sorted_flatten : (flatten innermost outer).frames.Pairwise fun inner outer => outer ≤ inner := by
  induction outer generalizing innermost with
  | nil => exact .nil
  | cons ids outer ih =>
    rw [frames_flatten_cons]
    exact .cons start_le_flatten ih

theorem lays_flat (s : Stack) : s.flat.Lays s := by
  have hbase : s.flat.base + s.innermost.length = s.flat.items.size := base_flatten
  have hle : s.flat.base ≤ s.flat.items.size := hbase ▸ Nat.le_add_right _ _
  refine ⟨rfl, sorted_flatten, start_le_flatten, hle, ?_, ?_, ?_⟩
  · unfold OperandStack.frameSize
    omega
  · have hall : (s.flat.items.toList.drop s.flat.base).take (s.flat.items.size - s.flat.base) =
        s.flat.items.toList.drop s.flat.base := List.take_of_length_le (by simp)
    simp [OperandStack.closeFrame, hall]
  · simp [OperandStack.closeFrame, hle]

end Stack

namespace OperandStack

/-- From the empty stack on, any requests get the replies of a stack of lists, and leave its lists laid out one
after the other in the array. -/
theorem serveEach_lays (rs : List StackRequest) :
    (serveEach serve rs {}).1 = (serveEach Stack.serve rs {}).1 ∧
      (serveEach serve rs {}).2.Lays (serveEach Stack.serve rs {}).2 := by
  have hempty : ({} : OperandStack) = Stack.flat {} := rfl
  have hserve (r : StackRequest) (s : OperandStack) (lists : Stack) (h : s = lists.flat) :
      (serve r s).1 = (lists.serve r).1 ∧ (serve r s).2 = (lists.serve r).2.flat := by
    rw [h, Stack.serve_flat]
    exact ⟨rfl, rfl⟩
  obtain ⟨hreplies, hflat⟩ := serveEach_simulates hserve hempty rs
  refine ⟨hreplies, ?_⟩
  rw [hflat]
  exact Stack.lays_flat _

/-- Nothing is popped from under an open frame, and without an open frame all values are closed. -/
example : (serveEach serve [.push 1, .openFrame, .pop, .push 2, .push 3, .closeFrame, .push 4, .closeFrame] {}).1 =
    [.done, .done, .popped none, .done, .done, .closed [2, 3], .done, .closed [1, 4]] := by
  decide

end OperandStack

end Linefold
