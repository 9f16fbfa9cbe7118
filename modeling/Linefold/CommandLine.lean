import Linefold.Report

/-!
# The command line

What the program is asked to do, and what it prints for a file. Reading files and printing are left
to the caller.
-/

namespace Linefold

/-- What a run of the program leaves behind: its exit status, its output and its error records. -/
structure Answer where
  code : Nat
  output : List String
  records : List Diagnostic

/-- The answer to a fatal error. -/
def Answer.ofError (output : List String) (e : Error) : Answer := ⟨1, output, [e.diagnostic]⟩

/-! ### Arguments -/

/-- The settings of one run. -/
structure Invocation where
  /-- The file to compile; without one the program is interactive. -/
  file : Option String := none
  config : Option String := none
  tokens : Bool := false
  values : Bool := false
  parsed : Bool := false
  quiet : Bool := false
  verbose : Nat := 0
  deriving DecidableEq, Repr

/-- Why there is nothing to run. -/
inductive Refusal where
  | usage
  | help
  | version
  deriving DecidableEq, Repr

namespace Invocation

/-- Sets something that may be set once. -/
def setFile (i : Invocation) (file : String) : Except Refusal Invocation :=
  if i.file.isSome || file.isEmpty then .error .usage else .ok { i with file := some file }

def setConfig (i : Invocation) (config : String) : Except Refusal Invocation :=
  if i.config.isSome || config.isEmpty then .error .usage else .ok { i with config := some config }

def setQuiet (i : Invocation) : Except Refusal Invocation :=
  if i.quiet then .error .usage else .ok { i with quiet := true }

/-- A flag without a value, by its long name. -/
def setLong (i : Invocation) : String → Except Refusal Invocation
  | "tokens" => if i.tokens then .error .usage else .ok { i with tokens := true }
  | "values" => if i.values then .error .usage else .ok { i with values := true }
  | "parsed" => if i.parsed then .error .usage else .ok { i with parsed := true }
  | "quiet" => i.setQuiet
  | "verbose" => .ok { i with verbose := i.verbose + 1 }
  | "help" => .error .help
  | "version" => .error .version
  | _ => .error .usage

/-- The argument may stand for a value: it does not look like a flag. -/
def isPlain (arg : String) : Bool := arg = "-" || arg.toList.head? ≠ some '-'

/-- Short flags in one argument. `-c` takes what follows it as its value, after an optional equals
sign; with nothing left its value is the next argument, which is then still to be read. -/
def setShort (i : Invocation) : List Char → Except Refusal (Invocation × Bool)
  | [] => .ok (i, false)
  | 'q' :: cs => do (← i.setQuiet).setShort cs
  | 'v' :: cs => setShort { i with verbose := i.verbose + 1 } cs
  | ['c'] => .ok (i, true)
  | 'c' :: '=' :: cs => do return (← i.setConfig (String.ofList cs), false)
  | 'c' :: cs => do return (← i.setConfig (String.ofList cs), false)
  | 'h' :: _ => .error .help
  | 'V' :: _ => .error .version
  | _ => .error .usage

/-- Reads arguments. `wanted` says that a value for the configuration comes next, `plain` that no
flags come any more. -/
def read (wanted plain : Bool) (i : Invocation) : List String → Except Refusal Invocation
  | [] => if wanted then .error .usage else .ok i
  | arg :: args => do
    if wanted then
      if isPlain arg then read false plain (← i.setConfig arg) args else .error .usage
    else if plain || isPlain arg then read false plain (← i.setFile arg) args
    else
      match arg.toList with
      | ['-', '-'] => read false true i args
      | '-' :: '-' :: name =>
        if name = "config".toList then read true plain i args
        else if "config=".toList.isPrefixOf name then
          read false plain (← i.setConfig (String.ofList (name.drop 7))) args
        else read false plain (← i.setLong (String.ofList name)) args
      | _ :: shorts => do
        let (i, wanted) ← i.setShort shorts
        read wanted plain i args
      | [] => .error .usage

/-- The settings that the arguments ask for. The classes of tokens are shown instead of a result, so
they do not go with a form of the result. -/
def ofArgs (args : List String) : Except Refusal Invocation := do
  let i ← read false false {} args
  if i.tokens && (i.values || i.parsed) then .error .usage else .ok i

end Invocation

/-! ### Files -/

/-- The lines for the trees of some nodes. -/
def treeLines (p : Pool) (ids : List NodeId) : List String :=
  ids.filterMap fun id => (p.tree? id).map Tree.text

/-- The classes of the tokens of each line, a line of output for a line of text. -/
def tokenLines (s : Session) : List String → List String
  | [] => []
  | text :: lines =>
    let (highlights, s) := s.parseLine text
    (Json.array (highlights.map Highlight.toJson)).compact :: tokenLines s lines

/-- A file that is asked for: its path, and its text or why it cannot be read. -/
structure Source where
  path : String
  text : Except String String

/-- The reason that is given for a file that is not there. -/
def missingFile : String := "No such file or directory (os error 2)"

/-- The configuration in a file, or the default one without a file. -/
def loadConfig : Option Source → Except Error Config
  | none => .ok {}
  | some ⟨path, .error reason⟩ => .error (.unreadableConfig path reason)
  | some ⟨_, .ok text⟩ =>
    match Config.ofText? text with
    | some config => .ok config
    | none => .error .malformedConfig

/-- Compiles a text and shows what was asked for. -/
def compileFile (i : Invocation) (config : Config) (source : String) : Answer :=
  match Session.ofConfig config with
  | .error e => .ofError [] e
  | .ok s =>
    let lines := linesOf source
    if i.tokens then ⟨0, tokenLines s lines, []⟩
    else
      match (s.parseLines lines).finish with
      | (.error e, _) => .ofError [] e
      | (.ok outcome, s) =>
        let output :=
          if i.values then treeLines s.pool outcome.values
          else [(s.table (if i.parsed then outcome.parsed else outcome.root)).pretty]
        ⟨0, output, outcome.diagnostics.toList⟩

/-- Runs the program on a file with the given text. -/
def runFile (i : Invocation) (configFile : Option Source) (source : String) : Answer :=
  match loadConfig configFile with
  | .error e => .ofError [] e
  | .ok config => compileFile i config source

end Linefold
