import Linefold.Number
import Linefold.Text.Blank

/-!
# The text of a number

`Number.text` writes a number with the fewest digits that read back, never with an exponent.
`Number.ofText` reads any text at all: blank text is zero, text that is not a number is NaN.
-/

namespace Linefold.Number

open Binary64

/-! ### Writing -/

/-- The digits of a magnitude: a whole number below `2 ^ 53` is its own shortest decimal. -/
def magnitudeText (x : Number) : List Char :=
  let n := quanta x.bits
  if n % unit = 0 ∧ n / unit < Nat.pow 2 53 then Nat.toDigits 10 (n / unit)
  else
    let (ds, point) := (shortest .up x.bits).digits
    Decimal.positional ds point

/-- The characters of a number. -/
def chars (x : Number) : List Char :=
  if x.isNaN then ['N', 'a', 'N']
  else
    let magnitude := if x.isFinite then x.magnitudeText else "Infinity".toList
    if x.isNegative then '-' :: magnitude else magnitude

/-- The written form of a number. -/
def text (x : Number) : String := String.ofList x.chars

/-! ### Reading -/

/-- The value of a run of decimal digits. -/
def digitsValue (ds : List Char) : Nat :=
  ds.foldl (fun n c => 10 * n + (c.toNat - '0'.toNat)) 0

/-- The exponent after the mark `e`: an optional sign and at least one digit. -/
def readExponent? : List Char → Option Int
  | '-' :: ds => if !ds.isEmpty && ds.all Char.isDigit then some (-(digitsValue ds : Int)) else none
  | '+' :: ds => if !ds.isEmpty && ds.all Char.isDigit then some (digitsValue ds) else none
  | ds => if !ds.isEmpty && ds.all Char.isDigit then some (digitsValue ds) else none

/-- Reads an unsigned decimal: digits around an optional point, at least one in all, and an optional
exponent. -/
def readDecimal? (s : List Char) : Option Decimal :=
  let whole := s.takeWhile Char.isDigit
  let rest := s.dropWhile Char.isDigit
  let (part, rest) := match rest with
    | '.' :: r => (r.takeWhile Char.isDigit, r.dropWhile Char.isDigit)
    | r => ([], r)
  if whole.isEmpty && part.isEmpty then none
  else
    let plain : Decimal := ⟨digitsValue (whole ++ part), -(part.length : Int)⟩
    match rest with
    | [] => some plain
    | c :: r =>
      if c = 'e' || c = 'E' then
        (readExponent? r).map fun e => { plain with exponent := plain.exponent + e }
      else none

/-- The value of a hexadecimal digit. -/
def hexDigit? (c : Char) : Option Nat :=
  if '0' ≤ c ∧ c ≤ '9' then some (c.toNat - '0'.toNat)
  else if 'a' ≤ c ∧ c ≤ 'f' then some (c.toNat - 'a'.toNat + 10)
  else if 'A' ≤ c ∧ c ≤ 'F' then some (c.toNat - 'A'.toNat + 10)
  else none

/-- Reads hexadecimal digits. -/
def readHexDigits? (ds : List Char) : Option Nat :=
  ds.foldlM (fun n c => (hexDigit? c).map (16 * n + ·)) 0

/-- Reads the digits after the mark `0x`: at least one, after an optional plus sign, for a whole
number of at most 64 bits. -/
def readHex? (s : List Char) : Option Nat :=
  let ds := match s with
    | '+' :: ds => ds
    | ds => ds
  if ds.isEmpty then none
  else (readHexDigits? ds).filter (· < Nat.pow 2 64)

/-- Reads an unsigned magnitude: `Infinity` or a decimal. -/
def readMagnitude (negative : Bool) (s : List Char) : Number :=
  if s = "Infinity".toList then ofBits (withSign negative infinityBits)
  else match readDecimal? s with
    | some d => ofDecimal negative d
    | none => nan

/-- Reads text without blanks at its ends. A hexadecimal number takes no sign. -/
def ofTrimmed : List Char → Number
  | [] => ofInt 0
  | '-' :: s => readMagnitude true s
  | '+' :: s => readMagnitude false s
  | '0' :: x :: s =>
    if x = 'x' || x = 'X' then
      match readHex? s with
      | some n => ofInt n
      | none => nan
    else readMagnitude false ('0' :: x :: s)
  | s => readMagnitude false s

/-- The number that a text stands for, NaN if it stands for none. -/
def ofText (s : String) : Number := ofTrimmed (trimBlank s.toList)

end Linefold.Number
