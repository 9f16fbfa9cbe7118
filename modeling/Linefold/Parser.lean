import Linefold.Parser.Grammar

/-!
# The resumable parser

`ParseState.step` feeds one token. The positions are offered the token from the innermost outwards
until one takes it; then the positions that need no token do their work. Each position is looked at
once, so a step is a recursion on the stack of positions. A state is a value: keeping it is a
checkpoint.
-/

namespace Linefold

/-! ### Stacks of positions -/

/-- The positions after a token was taken, or the root of the program that it ended. -/
inductive Advance where
  | taken (cls : TokenClass) (conts : List Cont)
  | finished (root : NodeId)
  deriving DecidableEq, Repr

/-- Offers a token from the innermost position outwards. -/
def advance (t : Token) : List Cont → ParseM Advance
  | [] => return .taken .error []
  | c :: conts => do
    match ← c.offer t with
    | .taken cls next => return .taken cls (next ++ conts)
    | .declined => advance t conts
    | .finished root => return .finished root

/-- Lets the innermost positions that need no token do their work. -/
def settle : List Cont → ParseM (List Cont)
  | [] => return []
  | c :: conts =>
    if c.isReduction then do
      c.reduce
      settle conts
    else return c :: conts

/-! ### Parse states -/

/-- How far a parse is. -/
inductive Status where
  | parsing
  /-- The program has ended; its `PROG` node is given. -/
  | complete (root : NodeId)
  | failed (cause : Error)
  deriving DecidableEq, Repr

/-- What the parser keeps between tokens. -/
structure ParseState where
  conts : List Cont
  /-- The ids of finished parts, last first. -/
  operands : List NodeId
  env : Environment
  /-- Soft errors, in source order. -/
  errors : Array Diagnostic
  status : Status

namespace ParseState

/-- Before the first token of a program. -/
def initial (env : Environment) : ParseState where
  conts := [.exprs .dot 0, .program]
  operands := []
  env := env
  errors := #[]
  status := .parsing

/-- The `PROG` node of a complete program, else absent. -/
def root (s : ParseState) : NodeId :=
  match s.status with
  | .complete root => root
  | _ => 0

/-- The error that stopped the parse. -/
def fatal? (s : ParseState) : Option Error :=
  match s.status with
  | .failed e => some e
  | _ => none

/-- What the parser does with a token, given what it has parsed so far. -/
def consume (t : Token) (conts : List Cont) : ParseM Advance := do
  match ← advance t conts with
  | .taken cls conts => return .taken cls (← settle conts)
  | .finished root => return .finished root

/-- Feeds one token. Once the program is complete or has failed, every token is an error and nothing
changes. -/
def step (s : ParseState) (pool : Pool) (t : Token) : Except Error TokenClass × ParseState × Pool :=
  match s with
  | ⟨conts, operands, env, errors, .parsing⟩ =>
    match consume t conts ⟨pool, operands, env, errors⟩ with
    | .ok (.taken cls conts) ⟨pool, operands, env, errors⟩ =>
      (.ok cls, ⟨conts, operands, env, errors, .parsing⟩, pool)
    | .ok (.finished root) ⟨pool, operands, env, errors⟩ =>
      (.ok .comment, ⟨[], operands, env, errors, .complete root⟩, pool)
    | .error e ⟨pool, operands, env, errors⟩ =>
      (.error e, ⟨[], operands, env, errors, .failed e⟩, pool)
  | s => (.ok .error, s, pool)

end ParseState

end Linefold
