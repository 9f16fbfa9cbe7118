import Linefold.Environment
import Linefold.Pool

/-!
# What has been parsed

The parser interns nodes as it recognises them and keeps the ids of finished parts on a stack. A
construct remembers how high the stack was when it began and collects what lies above.
-/

namespace Linefold

/-- The outcome of a parse so far. -/
structure Parsed where
  pool : Pool
  /-- The ids of finished parts, last first. -/
  operands : List NodeId
  env : Environment
  /-- Soft errors, in source order. -/
  errors : Array Diagnostic

/-- A part of the parser. What it did before it failed stays done. -/
abbrev ParseM := EStateM Error Parsed

namespace ParseM

/-- Reads off what has been parsed. -/
def ask {α : Type} (f : Parsed → α) : ParseM α := fun s => .ok (f s) s

def internal {α : Type} (fault : InternalFault) : ParseM α := throw (.internal fault)

/-! ### Nodes -/

def intern (n : Node) : ParseM NodeId := fun s =>
  match s with
  | ⟨pool, operands, env, errors⟩ =>
    let (id, pool) := pool.intern n
    .ok id ⟨pool, operands, env, errors⟩

/-- Interns a node that occurs at the given place. -/
def internAt (n : Node) (span : Span) : ParseM NodeId := fun s =>
  match s with
  | ⟨pool, operands, env, errors⟩ =>
    let (id, pool) := pool.internAt n span
    .ok id ⟨pool, operands, env, errors⟩

/-- A list of names, each as a node. -/
def internNames : List String → ParseM (List NodeId)
  | [] => return []
  | name :: names => do
    let id ← intern (.ident name)
    let ids ← internNames names
    return id :: ids

/-! ### Operands -/

def push (id : NodeId) : ParseM Unit :=
  modify fun s => { s with operands := id :: s.operands }

def pop : ParseM NodeId := fun s =>
  match s.operands with
  | [] => .error (.internal .operandUnderflow) s
  | id :: operands => .ok id { s with operands }

def height : ParseM Nat := ask (·.operands.length)

/-- Takes the operands above a height, in source order. -/
def drainFrom (base : Nat) : ParseM (List NodeId) := fun s =>
  let n := s.operands.length - base
  .ok (s.operands.take n).reverse { s with operands := s.operands.drop n }

/-- Puts a node on the stack. -/
def leave (n : Node) : ParseM Unit := do push (← intern n)

/-- Puts a node that occurs at the given place on the stack. -/
def leaveAt (n : Node) (span : Span) : ParseM Unit := do push (← internAt n span)

/-! ### Scopes and errors -/

/-- Defines a name in the innermost scope. -/
def define (name : String) (word : Word) : ParseM Unit :=
  modify fun s => { s with env := s.env.bind name word }

def enter (name : String) : ParseM Unit := fun s =>
  match s.env.enter name with
  | .ok env => .ok () { s with env }
  | .error e => .error e s

/-- Closes the scope that a construct opened. -/
def exit (owner : ScopeOwner) : ParseM Scope := fun s =>
  match s.env.exit with
  | (some scope, env) => .ok scope { s with env }
  | (none, _) => .error (.internal (.missingScope owner)) s

def lookup? (name : String) : ParseM (Option Word) := ask (·.env.lookup? name)

def report (d : Diagnostic) : ParseM Unit :=
  modify fun s => { s with errors := s.errors.push d }

end ParseM

end Linefold
