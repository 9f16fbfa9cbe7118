import Linefold.Json

/-!
# JSON texts

`Document.ofText?` reads a text as it is written: fields in their order, repeated ones included, and
numbers by their digits. `Document.value?` gives the value of a document, if it has one: a string
with half of a surrogate pair has none, and neither has a number beyond every finite one.
-/

namespace Linefold.Json

/-- A number as it is written. Without a point there are no digits after it. -/
structure Numeral where
  negative : Bool
  whole : List Char
  part : List Char
  exponent : Option Int
  deriving DecidableEq, Repr

/-- A JSON text as it is written. A string without a meaning is absent. -/
inductive Document where
  | null
  | bool (b : Bool)
  | numeral (n : Numeral)
  | string (s : Option String)
  | array (xs : List Document)
  | object (fields : List (Option String × Document))

namespace Numeral

/-! ### Values of numerals -/

/-- Takes digits on as long as the number formed has 64 bits; gives the number and the digits left. -/
def absorb (n : Nat) : List Char → Nat × List Char
  | [] => (n, [])
  | c :: ds =>
    let m := 10 * n + (c.toNat - '0'.toNat)
    if m < Nat.pow 2 64 then absorb m ds else (n, c :: ds)

/-- The float nearest to a power of ten. -/
def tenTo (k : Nat) : Float := (Number.ofDecimal false ⟨1, k⟩).toFloat

/-- Scales by one power of ten of at most 308 zeros; a smaller number is first divided by the largest
such power, and nothing is left of it after a few such steps. None is beyond the finite numbers. -/
def scale (x : Float) (e : Int) : Nat → Option Float
  | 0 => some x
  | steps + 1 =>
    if e.natAbs ≤ 308 then
      if 0 ≤ e then
        let y := x * tenTo e.toNat
        if y.isInf then none else some y
      else some (x / tenTo e.natAbs)
    else if x == 0 then some x
    else if 0 ≤ e then none
    else scale (x / tenTo 308) (e + 308) steps

/-- The floating point value: the first digits that make up a whole number of 64 bits, scaled by a
power of ten. -/
def float? (n : Numeral) : Option Number :=
  let (m, dropped) := absorb 0 n.whole
  let (m, unread) := absorb m n.part
  let e : Int := n.exponent.getD 0 + dropped.length - (n.part.length - unread.length : Nat)
  (scale (Float.ofNat m) e 4).map fun x => .ofFloat (if n.negative then -x else x)

/-- The value of a numeral: a whole number if it is written as one, is not a negative zero and has
64 bits. -/
def value? (n : Numeral) : Option Json :=
  let m := (n.whole.foldl (fun m c => 10 * m + (c.toNat - '0'.toNat)) 0 : Nat)
  if n.part = [] ∧ n.exponent = none ∧
      (if n.negative then 0 < m ∧ m ≤ Nat.pow 2 63 else m < Nat.pow 2 64) then
    some (.integer (if n.negative then -(m : Int) else m))
  else n.float?.map .float

end Numeral

namespace Document

/-! ### Reading -/

def isSpace (c : Char) : Bool := c = ' ' || c = '\n' || c = '\t' || c = '\r'

def skipSpace (s : List Char) : List Char := s.dropWhile isSpace

def hexDigit? (c : Char) : Option Nat :=
  if '0' ≤ c ∧ c ≤ '9' then some (c.toNat - '0'.toNat)
  else if 'a' ≤ c ∧ c ≤ 'f' then some (c.toNat - 'a'.toNat + 10)
  else if 'A' ≤ c ∧ c ≤ 'F' then some (c.toNat - 'A'.toNat + 10)
  else none

/-- The value of four hexadecimal digits. -/
def hex4? (a b c d : Char) : Option Nat := do
  return 4096 * (← hexDigit? a) + 256 * (← hexDigit? b) + 16 * (← hexDigit? c) + (← hexDigit? d)

/-- The character after a backslash that stands for one character. -/
def simpleEscape? : Char → Option Char
  | '"' => some '"'
  | '\\' => some '\\'
  | '/' => some '/'
  | 'b' => some '\x08'
  | 'f' => some '\x0c'
  | 'n' => some '\n'
  | 'r' => some '\r'
  | 't' => some '\t'
  | _ => none

/-- Reads a string up to its closing quote, as the numbers of its characters and of the halves of
surrogate pairs among them. `acc` holds the numbers so far, last first. -/
def readUnits (acc : List Nat) : List Char → Option (List Nat × List Char)
  | [] => none
  | '"' :: s => some (acc.reverse, s)
  | '\\' :: 'u' :: a :: b :: c :: d :: s =>
    match hex4? a b c d with
    | some n => readUnits (n :: acc) s
    | none => none
  | '\\' :: c :: s =>
    match simpleEscape? c with
    | some c => readUnits (c.toNat :: acc) s
    | none => none
  | c :: s => if c.toNat < 0x20 then none else readUnits (c.toNat :: acc) s

def isHighHalf (n : Nat) : Bool := 0xd800 ≤ n && n ≤ 0xdbff

def isLowHalf (n : Nat) : Bool := 0xdc00 ≤ n && n ≤ 0xdfff

/-- Joins the halves of surrogate pairs; half a pair alone has no meaning. -/
def joinPairs : List Nat → Option (List Char)
  | [] => some []
  | n :: ns =>
    if isHighHalf n then
      match ns with
      | m :: ms =>
        if isLowHalf m then
          (joinPairs ms).map (Char.ofNat (0x10000 + (n - 0xd800) * 0x400 + (m - 0xdc00)) :: ·)
        else none
      | [] => none
    else if isLowHalf n then none
    else (joinPairs ns).map (Char.ofNat n :: ·)

/-- Reads a string up to its closing quote. -/
def readString (s : List Char) : Option (Option String × List Char) :=
  (readUnits [] s).map fun (ns, s) => ((joinPairs ns).map String.ofList, s)

/-- The exponent of a numeral, with its mark. -/
def readExponent (s : List Char) : Option (Option Int × List Char) :=
  match s with
  | [] => some (none, [])
  | c :: r =>
    if c = 'e' || c = 'E' then
      let (negative, r) := match r with
        | '-' :: r => (true, r)
        | '+' :: r => (false, r)
        | r => (false, r)
      let ds := r.takeWhile Char.isDigit
      let n : Int := (ds.foldl (fun m c => 10 * m + (c.toNat - '0'.toNat)) 0 : Nat)
      if ds.isEmpty then none
      else some (some (if negative then -n else n), r.dropWhile Char.isDigit)
    else some (none, c :: r)

/-- Reads a numeral. A whole part of more than one digit does not start with zero. -/
def readNumeral (s : List Char) : Option (Numeral × List Char) :=
  let (negative, s) := match s with
    | '-' :: r => (true, r)
    | r => (false, r)
  let whole := s.takeWhile Char.isDigit
  let s := s.dropWhile Char.isDigit
  if whole.isEmpty || (whole.head? = some '0' && whole.length ≠ 1) then none
  else
    let (pointed, part, s) := match s with
      | '.' :: r => (true, r.takeWhile Char.isDigit, r.dropWhile Char.isDigit)
      | r => (false, [], r)
    if pointed && part.isEmpty then none
    else (readExponent s).map fun (e, s) => (⟨negative, whole, part, e⟩, s)

/-- Drops a word that the text starts with. -/
def dropWord? : List Char → List Char → Option (List Char)
  | [], s => some s
  | c :: w, d :: s => if c = d then dropWord? w s else none
  | _ :: _, [] => none

mutual

/-- Reads a value, which nests at most `depth` deep. -/
def readValue (depth : Nat) (s : List Char) : Option (Document × List Char) :=
  match depth, skipSpace s with
  | 0, _ | _, [] => none
  | depth + 1, c :: s =>
    if c = '\x7b' then
      match skipSpace s with
      | '\x7d' :: s => some (object [], s)
      | s => readFields depth s.length [] s
    else if c = '[' then
      match skipSpace s with
      | ']' :: s => some (array [], s)
      | s => readElements depth s.length [] s
    else if c = '"' then (readString s).map fun (t, s) => (string t, s)
    else if c = 't' then (dropWord? "rue".toList s).map fun s => (bool true, s)
    else if c = 'f' then (dropWord? "alse".toList s).map fun s => (bool false, s)
    else if c = 'n' then (dropWord? "ull".toList s).map fun s => (null, s)
    else (readNumeral (c :: s)).map fun (n, s) => (numeral n, s)
termination_by (depth, 0)

/-- Reads at most `count + 1` elements and the bracket after them. -/
def readElements (depth count : Nat) (acc : List Document) (s : List Char) :
    Option (Document × List Char) :=
  match readValue depth s with
  | none => none
  | some (x, s) =>
    match count, skipSpace s with
    | _, ']' :: s => some (array (x :: acc).reverse, s)
    | count + 1, ',' :: s => readElements depth count (x :: acc) s
    | _, _ => none
termination_by (depth, count + 1)

/-- Reads at most `count + 1` fields and the brace after them. -/
def readFields (depth count : Nat) (acc : List (Option String × Document)) (s : List Char) :
    Option (Document × List Char) :=
  match skipSpace s with
  | '"' :: s =>
    match readString s with
    | none => none
    | some (key, s) =>
      match skipSpace s with
      | ':' :: s =>
        match readValue depth s with
        | none => none
        | some (x, s) =>
          match count, skipSpace s with
          | _, '\x7d' :: s => some (object ((key, x) :: acc).reverse, s)
          | count + 1, ',' :: s => readFields depth count ((key, x) :: acc) s
          | _, _ => none
      | _ => none
  | _ => none
termination_by (depth, count + 1)

end

/-- Reads a text that holds one value and blanks. A value nests no deeper than its text is long. -/
def ofText? (text : String) : Option Document :=
  let s := text.toList
  match readValue (s.length + 1) s with
  | some (x, rest) => if (skipSpace rest).isEmpty then some x else none
  | none => none

/-! ### Values -/

mutual

/-- The value of a document. Of fields with one name the last counts. -/
def value? : Document → Option Json
  | null => some .null
  | bool b => some (.bool b)
  | numeral n => n.value?
  | string s => s.map .string
  | array xs => (values? xs).map .array
  | object fields => (fieldValues? fields).map .ofFields

def values? : List Document → Option (List Json)
  | [] => some []
  | x :: xs => do
    let v ← value? x
    let vs ← values? xs
    return v :: vs

def fieldValues? : List (Option String × Document) → Option (List (String × Json))
  | [] => some []
  | (key, x) :: fields => do
    let key ← key
    let v ← value? x
    let vs ← fieldValues? fields
    return (key, v) :: vs

end

end Document

/-- The value of a JSON text. -/
def ofText? (text : String) : Option Json := (Document.ofText? text).bind Document.value?

end Linefold.Json
