import Linefold.Repl

/-!
# The program

Reads the arguments and files, and prints the answer.
-/

namespace Linefold

/-- Prints an answer and gives its exit status. -/
def Answer.print (a : Answer) : IO UInt32 := do
  for line in a.output do
    IO.println line
  for d in a.records do
    IO.eprintln d.toJson.compact
  return UInt32.ofNat a.code

/-- A file with its text, if it can be read. -/
def readSource (path : String) : IO Source := do
  try
    return ⟨path, .ok (← IO.FS.readFile path)⟩
  catch e =>
    match e with
    | .noFileOrDirectory .. => return ⟨path, .error missingFile⟩
    | e => return ⟨path, .error e.toString⟩

/-- Answers the lines of the standard input as they come and gives the exit status. -/
partial def interact (r : Repl) : IO UInt32 := do
  let input ← (← IO.getStdin).getLine
  match linesOf input with
  | [] => return 0
  | line :: _ =>
    let (output, next) := r.reply line
    output.forM IO.println
    match next with
    | .more r => interact r
    | .quit => return 0
    | .broken => return UInt32.ofNat Repl.brokenCode

def usage : String :=
  "Usage: graff [--config FILE] [--tokens | --values | --parsed] [--verbose] [--quiet] [FILE]"

/-- Runs the program as asked. -/
def runInvocation (i : Invocation) : IO UInt32 := do
  let configFile ← i.config.mapM readSource
  match i.file with
  | some path =>
    match ← readSource path with
    | ⟨_, .ok source⟩ => (runFile i configFile source).print
    | ⟨_, .error reason⟩ =>
      IO.eprintln (path ++ ": " ++ reason)
      return 1
  | none =>
    match Repl.start configFile with
    | .error a => a.print
    | .ok r =>
      Repl.banner.forM IO.println
      interact r

end Linefold

def main (args : List String) : IO UInt32 := do
  match Linefold.Invocation.ofArgs args with
  | .ok i => Linefold.runInvocation i
  | .error .usage =>
    IO.eprintln Linefold.usage
    return 2
  | .error .help =>
    IO.println Linefold.usage
    return 0
  | .error .version =>
    IO.println Linefold.Repl.programVersion
    return 0
