import Linefold.Number

/-!
# JSON values

Whole numbers of 64 bits are kept apart from floating point numbers: `1` may be a node id, `1.0` may
not. The fields of an object stand in a list; `ofFields` puts them in the order of their names.
-/

namespace Linefold

/-- A JSON value. -/
inductive Json where
  | null
  | bool (b : Bool)
  | integer (n : Int)
  | float (x : Number)
  | string (s : String)
  | array (xs : List Json)
  | object (fields : List (String × Json))

namespace Json

instance : Inhabited Json := ⟨null⟩

/-! ### Objects -/

/-- Of neighbours with one name, the last. -/
def lastOfEach : List (String × Json) → List (String × Json)
  | f :: g :: fs => if f.1 = g.1 then lastOfEach (g :: fs) else f :: lastOfEach (g :: fs)
  | fs => fs

/-- Fields in the order of their names, each name once, with its last value. -/
def sortFields (fields : List (String × Json)) : List (String × Json) :=
  lastOfEach (fields.mergeSort fun f g => !decide (g.1 < f.1))

/-- The object with the given fields. -/
def ofFields (fields : List (String × Json)) : Json := object (sortFields fields)

/-- The value of a field. -/
def field? (key : String) : Json → Option Json
  | object fields => (fields.find? fun f => f.1 = key).map Prod.snd
  | _ => none

/-! ### Views -/

def string? : Json → Option String
  | string s => some s
  | _ => none

def bool? : Json → Option Bool
  | bool b => some b
  | _ => none

def array? : Json → Option (List Json)
  | array xs => some xs
  | _ => none

/-- A whole number that is not negative. -/
def nat? : Json → Option Nat
  | integer n => if 0 ≤ n then some n.toNat else none
  | _ => none

/-- A number of either kind. -/
def number? : Json → Option Number
  | integer n => some (.ofInt n)
  | float x => some x
  | _ => none

/-- The value of a natural number. -/
def ofNat (n : Nat) : Json := integer n

end Json

end Linefold
