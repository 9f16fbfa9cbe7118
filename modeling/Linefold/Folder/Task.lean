import Linefold.Node

/-!
# Folding tasks

What is still to be done in a fold. Tasks run last in, first out and leave their values on the
operand stack, so that nesting costs no native stack. A `Reduction` works on finished values alone; the
other tasks look at nodes, and the scope tasks at the environment.
-/

namespace Linefold

/-- Work on values that are on the operand stack already. -/
inductive Reduction where
  /-- Closes a frame and leaves one value for all of its values. -/
  | collect
  /-- Closes a frame and leaves a `PROG`, `PAREN` or `LIST` over its values. -/
  | close (tag : Tag)
  | push (id : NodeId)
  /-- Replaces the top `arity` values by a node over them. -/
  | build (tag : Tag) (arity : Nat)
  | arithmetic (tag : Tag)
  | concat
  | compare (tag : Tag)
  | negate
  /-- Makes a `LAMBDA` of the folded body on the stack. -/
  | lambda (names pattern : NodeId)
  deriving DecidableEq, Repr

/-- Pending work. -/
inductive Task where
  /-- Folds a node in the current frame; it may take values there and leave any number of them. -/
  | visit (nid : NodeId)
  /-- Folds a node in a frame of its own to one value. -/
  | operand (nid : NodeId)
  | reduce (r : Reduction)
  /-- Tries the clauses of a case on the folded scrutinee, which is on the stack. -/
  | select (nid : NodeId)
  /-- Tries the first of the clauses left, the folded pattern of which is on the stack. -/
  | clause (nid : NodeId) (clauses : List NodeId) (scrutinee : NodeId)
  /-- Opens a scope in which a name is a pattern variable without a value. -/
  | enter (name : String)
  | exit
  deriving DecidableEq, Repr

end Linefold
