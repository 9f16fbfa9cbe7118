import Linefold.Error
import Linefold.Folder.OperandStack
import Linefold.Folder.Task
import Linefold.Pool

/-!
# Reductions

What becomes of values on the operand stack. Operators on literals are computed, all others leave a
node for what is not known yet.
-/

namespace Linefold

/-- The pool and the values that a fold works on. -/
structure Values where
  pool : Pool
  stack : OperandStack

instance : Inhabited Values := ⟨⟨.empty, {}⟩⟩

/-- A computation on a pool and an operand stack. What it did before it failed stays done. -/
abbrev ValuesM := EStateM Error Values

namespace ValuesM

def intern (n : Node) : ValuesM NodeId := fun v =>
  match v with
  | ⟨pool, stack⟩ =>
    let (id, pool) := pool.intern n
    .ok id ⟨pool, stack⟩

def push (id : NodeId) : ValuesM Unit := fun v =>
  match v with
  | ⟨pool, stack⟩ => .ok () ⟨pool, stack.push id⟩

/-- Takes the top value of the current frame. -/
def pop : ValuesM NodeId := fun v =>
  match v with
  | ⟨pool, stack⟩ =>
    match stack.pop with
    | (some id, stack) => .ok id ⟨pool, stack⟩
    | (none, stack) => .error (.internal .operandUnderflow) ⟨pool, stack⟩

/-- Takes the top two values, the lower one first. -/
def popPair : ValuesM (NodeId × NodeId) := do
  let b ← pop
  let a ← pop
  return (a, b)

/-- Takes `n` values, the lowest first. -/
def popMany : Nat → ValuesM (List NodeId)
  | 0 => return []
  | n + 1 => do
    let id ← pop
    let ids ← popMany n
    return ids ++ [id]

/-- Closes the current frame and takes its values in source order, which is top first. -/
def closeFrame : ValuesM (List NodeId) := fun v =>
  match v with
  | ⟨pool, stack⟩ =>
    let (ids, stack) := stack.closeFrame
    .ok ids.reverse ⟨pool, stack⟩

/-- Looks something up in the pool. -/
def ask {α : Type} (f : Pool → α) : ValuesM α := fun v => .ok (f v.pool) v

/-- One value stands for itself, any other number of them is an `EXPRS`. -/
def single : List NodeId → ValuesM NodeId
  | [id] => return id
  | ids => intern (.branch .exprs ids)

/-- Puts a node on the stack. -/
def leave (n : Node) : ValuesM Unit := do push (← intern n)

/-- Leaves a result, or the operator over its operands if there is none. -/
def leaveResult (tag : Tag) (a b : NodeId) (result : Option Node) : ValuesM Unit :=
  leave (result.getD (.branch tag [a, b]))

end ValuesM

namespace Reduction

open ValuesM

/-- Carries a reduction out. -/
def run : Reduction → ValuesM Unit
  | collect => do ValuesM.push (← single (← closeFrame))
  | close .prog => do
    let exprs ← intern (.branch .exprs (← closeFrame))
    leave (.branch .prog [exprs])
  | close .paren => do
    let inner ← single (← closeFrame)
    leave (.branch .paren [inner])
  | close t => do leave (.branch t (← closeFrame))
  | push id => ValuesM.push id
  | build t arity => do leave (.branch t (← popMany arity))
  | arithmetic t => do
    let (a, b) ← popPair
    let x ← ask (·.number? a)
    let y ← ask (·.number? b)
    leaveResult t a b (do return .num (← Number.arithmetic? t (← x) (← y)))
  | concat => do
    let (a, b) ← popPair
    let x ← ask (·.literal? a)
    let y ← ask (·.literal? b)
    leaveResult .concat a b (do return .str ((← x).toText ++ (← y).toText))
  | compare t => do
    let (a, b) ← popPair
    let x ← ask (·.literal? a)
    let y ← ask (·.literal? b)
    leaveResult t a b (do return .bool (← Literal.compare? t (← x) (← y)))
  | negate => do
    let a ← pop
    match ← ask (·.number? a) with
    | some x => leave (.num x.neg)
    | none => leave (.branch .neg [a])
  | lambda names pattern => do
    let body ← pop
    leave (.branch .lambda [names, body, pattern])

end Reduction

end Linefold
