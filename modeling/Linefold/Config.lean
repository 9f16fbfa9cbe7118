import Linefold.Json.Document

/-!
# Configuration

A configuration is a JSON object with up to three fields, or the array of their values in order:
`recursion_limit`, a whole number of 64 bits, `version`, a string, and `operators`, an object from
alias to tag name. What is left out takes its default; a field of another name is ignored, one of
these given twice is not.
-/

namespace Linefold

/-- The settings of a session. -/
structure Config where
  /-- The greatest depth of scopes. -/
  recursionLimit : Nat := 380
  /-- The version that exported tables carry. -/
  version : String := "1"
  /-- Further operator words: aliases in order, each with the name of an operator's tag. -/
  operators : List (String × String) := []
  deriving DecidableEq, Repr

namespace Config

instance : Inhabited Config := ⟨{}⟩

def limit? : Json.Document → Option Nat
  | .numeral n =>
    match n.value? with
    | some (.integer i) => if 0 ≤ i then some i.toNat else none
    | _ => none
  | _ => none

def text? : Json.Document → Option String
  | .string s => s
  | _ => none

/-- Adds an alias in order; one that is there already gets the new tag name. -/
def insertOperator (name tagName : String) : List (String × String) → List (String × String)
  | [] => [(name, tagName)]
  | (a, t) :: rest =>
    if name = a then (name, tagName) :: rest
    else if name < a then (name, tagName) :: (a, t) :: rest
    else (a, t) :: insertOperator name tagName rest

def operators? : Json.Document → Option (List (String × String))
  | .object fields =>
    fields.foldlM (fun known (key, x) => do
      return insertOperator (← key) (← text? x) known) []
  | _ => none

/-- Sets the fields of an object in turn. `seen` lists the names set so far. -/
def setFields (seen : List String) (config : Config) :
    List (Option String × Json.Document) → Option Config
  | [] => some config
  | (none, _) :: _ => none
  | (some key, x) :: fields => do
    if seen.contains key then none
    else if key = "recursion_limit" then
      setFields (key :: seen) { config with recursionLimit := ← limit? x } fields
    else if key = "version" then
      setFields (key :: seen) { config with version := ← text? x } fields
    else if key = "operators" then
      setFields (key :: seen) { config with operators := ← operators? x } fields
    else setFields seen config fields

/-- The configuration that a document describes. -/
def ofDocument? : Json.Document → Option Config
  | .object fields => setFields [] {} fields
  | .array [] => some {}
  | .array [l] => do return { recursionLimit := ← limit? l }
  | .array [l, v] => do return { recursionLimit := ← limit? l, version := ← text? v }
  | .array [l, v, o] => do
    return { recursionLimit := ← limit? l, version := ← text? v, operators := ← operators? o }
  | _ => none

/-- The configuration in a text. -/
def ofText? (text : String) : Option Config :=
  (Json.Document.ofText? text).bind ofDocument?

end Config

end Linefold
