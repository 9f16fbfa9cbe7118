import Linefold.Folder
import Linefold.Parser
import Linefold.Scanner
import Linefold.Table
import Linefold.Text.Lines

/-!
# Sessions

A session parses one text line by line, or token by token, and folds it at the end. It may be taken
back to a checkpoint; the nodes made since stay in the pool.
-/

namespace Linefold

/-- The class of a range of the text. -/
structure Highlight where
  span : Span
  cls : TokenClass
  deriving DecidableEq, Repr

/-- What a complete program folds to. -/
structure Outcome where
  /-- The `PROG` node as parsed. -/
  parsed : NodeId
  /-- The folded `PROG` node. -/
  root : NodeId
  /-- The values of the expressions at the top, in source order. -/
  values : List NodeId
  /-- Soft errors. -/
  diagnostics : Array Diagnostic

/-- A position in a parse to which a session can return. -/
structure Checkpoint where
  state : ParseState
  line : Nat

/-- The state of one text that is being entered. -/
structure Session where
  config : Config
  /-- The environment that a parse starts in. -/
  env : Environment
  pool : Pool
  state : ParseState
  /-- The number of the next line. -/
  line : Nat

namespace Session

def ofConfig (config : Config) : Except Error Session :=
  (Environment.ofConfig config).map fun env =>
    { config, env, pool := .empty, state := .initial env, line := 0 }

/-- A session with the default configuration. -/
def fresh : Session :=
  { config := {}, env := .initial, pool := .empty, state := .initial .initial, line := 0 }

/-! ### Parsing -/

/-- Feeds one token. -/
def step (s : Session) (t : Token) : Except Error TokenClass × Session :=
  match s with
  | ⟨config, env, pool, state, line⟩ =>
    let (r, state, pool) := state.step pool t
    (r, ⟨config, env, pool, state, line⟩)

/-- Feeds what is left of a line. Operator words are looked up where the parse has got to. -/
def feed (s : Session) (scanner : Scanner) : List Highlight × Session :=
  match h : scanner.scan s.state.env.globals with
  | (none, _) => ([], s)
  | (some lexed, rest) =>
    have := Scanner.length_rest_scan_lt h
    let (first, s) : Highlight × Session := match lexed with
      | .comment span => (⟨span, .comment⟩, s)
      | .token t =>
        let (r, s) := s.step t
        match r with
        | .ok cls => (⟨t.span, cls⟩, s)
        | .error _ => (⟨t.span, .error⟩, s)
    let (others, s) := s.feed rest
    (first :: others, s)
termination_by scanner.rest.length

theorem feed_of_none {s : Session} {scanner rest : Scanner}
    (h : scanner.scan s.state.env.globals = (none, rest)) : s.feed scanner = ([], s) := by
  rw [feed]
  split
  · rfl
  · next h' => rw [h] at h'; cases h'

theorem feed_of_comment {s : Session} {scanner rest : Scanner} {span : Span}
    (h : scanner.scan s.state.env.globals = (some (.comment span), rest)) :
    s.feed scanner = (⟨span, .comment⟩ :: (s.feed rest).1, (s.feed rest).2) := by
  rw [feed]
  split
  · next h' => rw [h] at h'; cases h'
  · next h' => rw [h] at h'; cases h'; rfl

/-- A token that is refused is an error. -/
theorem feed_of_token {s : Session} {scanner rest : Scanner} {t : Token}
    (h : scanner.scan s.state.env.globals = (some (.token t), rest)) :
    s.feed scanner = (⟨t.span, (s.step t).1.toOption.getD .error⟩ :: ((s.step t).2.feed rest).1,
      ((s.step t).2.feed rest).2) := by
  rw [feed]
  split
  · next h' => rw [h] at h'; cases h'
  · next h' =>
    rw [h] at h'
    cases h'
    dsimp only
    cases (s.step t).1 <;> rfl

/-- Feeds a line and gives the class of each token and comment in it. -/
def parseLine (s : Session) (text : String) : List Highlight × Session :=
  let (highlights, s) := s.feed (.ofText s.line text)
  (highlights, { s with line := s.line + 1 })

def parseLines (s : Session) (lines : List String) : Session :=
  lines.foldl (fun s text => (s.parseLine text).2) s

/-! ### Finishing -/

/-- The expressions of a folded program. -/
def topValues (p : Pool) (root : NodeId) : List NodeId :=
  match p.elts root with
  | [exprs] =>
    match p.get? exprs with
    | some (.branch .exprs es) => es
    | _ => []
  | _ => []

/-- Feeds the end of the text, unless the parse is over. -/
def close (s : Session) : Session :=
  match s.state.status with
  | .parsing => (s.step (.eof ⟨s.line, 0, 0⟩)).2
  | _ => s

/-- Ends the text and folds the program, in the environment that the parse left. -/
def finish (s : Session) : Except Error Outcome × Session :=
  match s.close with
  | ⟨config, env, pool, state, line⟩ =>
    match state.status with
    | .failed e => (.error e, ⟨config, env, pool, state, line⟩)
    | _ =>
      match (Machine.ofPool pool state.env).fold state.root with
      | .ok root m =>
        let pool := m.values.pool
        (.ok ⟨state.root, root, topValues pool root, state.errors⟩, ⟨config, env, pool, state, line⟩)
      | .error e m => (.error e, ⟨config, env, m.values.pool, state, line⟩)

theorem finish_of_failed {s : Session} {e : Error} (h : s.close.state.status = .failed e) :
    s.finish = (.error e, s.close) := by
  unfold finish
  simp only [h]

/-- The end of a text that was not refused is that of its fold. -/
theorem finish_of_ne_failed {s : Session} (h : ∀ e, s.close.state.status ≠ .failed e) :
    s.finish =
      match (Machine.ofPool s.close.pool s.close.state.env).fold s.close.state.root with
      | .ok root m => (.ok ⟨s.close.state.root, root, topValues m.values.pool root, s.close.state.errors⟩,
        { s.close with pool := m.values.pool })
      | .error e m => (.error e, { s.close with pool := m.values.pool }) := by
  unfold finish
  generalize s.close = c at h ⊢
  obtain ⟨config, env, pool, state, line⟩ := c
  simp only

/-! ### Checkpoints -/

def checkpoint (s : Session) : Checkpoint := ⟨s.state, s.line⟩

/-- Returns to a checkpoint; the pool stays as it is. -/
def restore (s : Session) (c : Checkpoint) : Session := { s with state := c.state, line := c.line }

/-- Starts a new text. -/
def reset (s : Session) : Session := { s with state := .initial s.env, line := 0 }

/-- The table of the session's pool. -/
def table (s : Session) (root : NodeId) : Json := s.pool.toTable root s.config.version

/-! ### Whole texts -/

/-- Parses and folds a whole text. -/
def compile (config : Config) (source : String) : Except Error (Session × Outcome) := do
  let s ← ofConfig config
  let (r, s) := (s.parseLines (linesOf source)).finish
  return (s, ← r)

end Session

end Linefold
