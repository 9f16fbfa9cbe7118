import Linefold.Json

/-!
# Writing JSON

`Json.compact` writes a value on one line without spaces, `Json.pretty` writes every element and
field on a line of its own, indented by two spaces a level. A floating point number has the fewest
digits that read back.
-/

namespace Linefold.Json

/-! ### Leaves -/

/-- The digit of a number below sixteen. -/
def hexDigit (n : Nat) : Char :=
  Char.ofNat (if n < 10 then '0'.toNat + n else 'a'.toNat + (n - 10))

/-- A character inside a string. -/
def escape (c : Char) : List Char :=
  match c with
  | '"' => ['\\', '"']
  | '\\' => ['\\', '\\']
  | '\x08' => ['\\', 'b']
  | '\x0c' => ['\\', 'f']
  | '\n' => ['\\', 'n']
  | '\r' => ['\\', 'r']
  | '\t' => ['\\', 't']
  | c =>
    let n := c.toNat
    if n < 0x20 then ['\\', 'u', '0', '0', hexDigit (n / 16), hexDigit (n % 16)] else [c]

def quote (s : String) (rest : List Char) : List Char :=
  '"' :: (s.toList.flatMap escape ++ '"' :: rest)

/-- The exponent of a number that is not positional, with its sign. -/
def writeExponent (e : Int) : List Char :=
  'e' :: (if e < 0 then '-' else '+') :: Nat.toDigits 10 e.natAbs

/-- Digits with a point after the first `point` of them: positional from `1e-5` to below `1e+16`, with
an exponent elsewhere. A whole number keeps `.0`. -/
def layout (ds : List Char) (point : Int) : List Char :=
  if -5 < point ∧ point ≤ 16 then
    if (ds.length : Int) ≤ point then Decimal.positional ds point ++ ".0".toList
    else Decimal.positional ds point
  else
    match ds with
    | [d] => d :: writeExponent (point - 1)
    | d :: ds => d :: '.' :: (ds ++ writeExponent (point - 1))
    | [] => writeExponent (point - 1)

example : layout ['1'] 22 = "1e+21".toList := by decide

example : layout ['1', '5'] (-5) = "1.5e-6".toList := by decide

example : layout ['1'] (-4) = "0.00001".toList := by decide

/-- A finite floating point number. -/
def writeFloat (x : Number) : List Char :=
  if x = .ofInt 0 then "0.0".toList
  else
    let (ds, point) := (Binary64.shortest .even x.bits).digits
    if x.isNegative then '-' :: layout ds point else layout ds point

/-! ### Compact form -/

mutual

/-- The compact form of a value, followed by `rest`. -/
def write (rest : List Char) : Json → List Char
  | null => "null".toList ++ rest
  | bool b => (if b then "true" else "false").toList ++ rest
  | integer n => (toString n).toList ++ rest
  | float x => writeFloat x ++ rest
  | string s => quote s rest
  | array [] => '[' :: ']' :: rest
  | array (x :: xs) => '[' :: write (writeElements (']' :: rest) xs) x
  | object [] => '\x7b' :: '\x7d' :: rest
  | object ((key, x) :: fields) =>
    '\x7b' :: quote key (':' :: write (writeFields ('\x7d' :: rest) fields) x)

/-- Further elements, each after a comma. -/
def writeElements (rest : List Char) : List Json → List Char
  | [] => rest
  | x :: xs => ',' :: write (writeElements rest xs) x

/-- Further fields, each after a comma. -/
def writeFields (rest : List Char) : List (String × Json) → List Char
  | [] => rest
  | (key, x) :: fields => ',' :: quote key (':' :: write (writeFields rest fields) x)

end

/-- A value on one line. -/
def compact (x : Json) : String := String.ofList (x.write [])

/-! ### Indented form -/

/-- A new line, indented. -/
def newLine (level : Nat) (rest : List Char) : List Char :=
  '\n' :: (List.replicate (2 * level) ' ' ++ rest)

mutual

/-- The indented form of a value at a level, followed by `rest`. -/
def writePretty (level : Nat) (rest : List Char) : Json → List Char
  | null => "null".toList ++ rest
  | bool b => (if b then "true" else "false").toList ++ rest
  | integer n => (toString n).toList ++ rest
  | float x => writeFloat x ++ rest
  | string s => quote s rest
  | array [] => '[' :: ']' :: rest
  | array (x :: xs) =>
    '[' :: newLine (level + 1)
      (writePretty (level + 1) (prettyElements level (newLine level (']' :: rest)) xs) x)
  | object [] => '\x7b' :: '\x7d' :: rest
  | object ((key, x) :: fields) =>
    '\x7b' :: newLine (level + 1) (quote key (':' :: ' ' ::
      writePretty (level + 1) (prettyFields level (newLine level ('\x7d' :: rest)) fields) x))

/-- Further elements of an array at a level. -/
def prettyElements (level : Nat) (rest : List Char) : List Json → List Char
  | [] => rest
  | x :: xs =>
    ',' :: newLine (level + 1) (writePretty (level + 1) (prettyElements level rest xs) x)

/-- Further fields of an object at a level. -/
def prettyFields (level : Nat) (rest : List Char) : List (String × Json) → List Char
  | [] => rest
  | (key, x) :: fields =>
    ',' :: newLine (level + 1) (quote key (':' :: ' ' ::
      writePretty (level + 1) (prettyFields level rest fields) x))

end

/-- A value over several lines. -/
def pretty (x : Json) : String := String.ofList (x.writePretty 0 [])

end Linefold.Json
