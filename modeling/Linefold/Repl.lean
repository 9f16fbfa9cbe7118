import Linefold.CommandLine
import Linefold.Text.Backspace
import Linefold.Text.Blank

/-!
# The interactive program

Each line is parsed when it is entered, and the program so far is folded in a copy of the session. A
value is shown once, when it first appears. A line that cannot be parsed or folded is taken back.
Backspaces in a line take effect before anything else.
-/

namespace Linefold

/-- The state between two lines. -/
structure Repl where
  session : Session
  /-- How many values were shown. -/
  shown : Nat := 0
  /-- How many soft errors were shown. -/
  reported : Nat := 0

namespace Repl

/-- The name and version of the program. -/
def programVersion : String := "graff 0.1.0"

def banner : List String :=
  [programVersion, "Type :help for commands, or Ctrl+D to exit.", ""]

def help : List String :=
  ["Lines are parsed as you enter them; values print as soon as they fold.",
    "  :help   - Show this help message",
    "  :reset  - Discard the buffer and start over",
    "  :export - Print the exported AST table for the buffer",
    "  :quit   - Exit",
    "",
    "Examples:",
    "  1 + 2 ^ 3.",
    "  let double x = x + x.. double 4.",
    "  case 2 of 1: 10 of 2: 20 end."]

def errorLine (message : String) : String := "Error: " ++ message

/-! ### Commands -/

/-- What a line asks for. -/
inductive Command where
  | help
  | quit
  | reset
  | showTable
  | enter (text : String)
  deriving DecidableEq, Repr

/-- A command stands alone on its line; every other line belongs to the program. -/
def Command.ofLine (line : String) : Command :=
  match String.ofList (trimBlank line.toList) with
  | ":help" => .help
  | ":quit" => .quit
  | ":exit" => .quit
  | ":reset" => .reset
  | ":export" => .showTable
  | _ => .enter line

/-! ### Lines of the program -/

/-- Folds a copy of the session. -/
def preview (r : Repl) : Except Error Outcome × Session := r.session.finish

/-- The table of the program so far. -/
def tableLines (r : Repl) : List String :=
  match r.preview with
  | (.ok outcome, copy) => [(copy.table outcome.root).pretty]
  | (.error e, _) => [errorLine e.message]

/-- Shows what the program so far has brought. A syntax error at its end says only that the program is
not complete yet; any other error takes the line back. -/
def showNew (r : Repl) (before : Checkpoint) : List String × Repl :=
  match r.preview with
  | (.ok outcome, copy) =>
    let errors := (outcome.diagnostics.toList.drop r.reported).map (errorLine ·.message)
    let values := treeLines copy.pool (outcome.values.drop r.shown)
    (errors ++ values,
      { r with shown := outcome.values.length, reported := outcome.diagnostics.size })
  | (.error (.unexpected ..), _) => ([], r)
  | (.error e, _) => ([errorLine e.message], { r with session := r.session.restore before })

/-- Enters a line. -/
def enter (r : Repl) (text : String) : List String × Repl :=
  let before := r.session.checkpoint
  let session := (r.session.parseLine text).2
  match session.state.status with
  | .failed e => ([errorLine e.message], { r with session := session.restore before })
  | _ => showNew { r with session } before

/-- What comes after a line. -/
inductive Next where
  | more (r : Repl)
  | quit
  /-- A backspace cut a character in two, and the program breaks off. -/
  | broken

/-- Answers a command. -/
def perform (r : Repl) : Command → List String × Next
  | .help => (help, .more r)
  | .quit => ([], .quit)
  | .reset => ([], .more { session := r.session.reset })
  | .showTable => (r.tableLines, .more r)
  | .enter text =>
    let (output, r) := r.enter text
    (output, .more r)

/-- Answers one line. -/
def reply (r : Repl) (line : String) : List String × Next :=
  match Text.typed? line with
  | some line => r.perform (.ofLine line)
  | none => ([], .broken)

/-- The exit status of a program that broke off. -/
def brokenCode : Nat := 101

/-- Answers lines until one asks to quit; gives the exit status, too. -/
def answer (r : Repl) : List String → List String × Nat
  | [] => ([], 0)
  | line :: lines =>
    match r.reply line with
    | (output, .more r) =>
      let (rest, code) := r.answer lines
      (output ++ rest, code)
    | (output, .quit) => (output, 0)
    | (output, .broken) => (output, brokenCode)

/-- Starts the program. The banner comes before anything that the configuration may have wrong but
its form. -/
def start (configFile : Option Source) : Except Answer Repl :=
  match loadConfig configFile with
  | .error e => .error (.ofError [] e)
  | .ok config =>
    match Session.ofConfig config with
    | .error e => .error (.ofError banner e)
    | .ok session => .ok { session }

/-- Runs the program on the given lines. -/
def run (configFile : Option Source) (lines : List String) : Answer :=
  match start configFile with
  | .error a => a
  | .ok r =>
    let (output, code) := r.answer lines
    ⟨code, banner ++ output, []⟩

end Repl

end Linefold
