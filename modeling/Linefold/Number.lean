import Linefold.Number.Binary64
import Linefold.Number.Shortest
import Linefold.Tag

/-!
# Numbers

A `Number` is a binary64 value held as its canonical word, so that equal words are equal values:
there is one zero and one NaN. Addition, subtraction, division and power are those of binary64;
the remainder is exact and takes the sign of the dividend.
-/

namespace Linefold

open Binary64

/-- A binary64 value in canonical form. -/
structure Number where
  bits : UInt64
  canonical : Binary64.canonical bits = bits
  deriving DecidableEq

namespace Number

/-! ### Construction -/

/-- The number that a word represents. -/
def ofBits (b : UInt64) : Number := ⟨Binary64.canonical b, canonical_canonical b⟩

theorem ofBits_bits (x : Number) : ofBits x.bits = x := by
  cases x with
  | mk b h => simp [ofBits, h]

instance : Inhabited Number := ⟨ofBits 0⟩

def nan : Number := ofBits nanBits

def ofFloat (x : Float) : Number := ofBits x.toBits

def toFloat (x : Number) : Float := Float.ofBits x.bits

/-- The number nearest to `± n / d`. -/
def ofRatio (negative : Bool) (n d : Nat) : Number :=
  ofBits (withSign negative (ofQuanta (n * unit) d))

/-- The number nearest to a whole number. -/
def ofInt (n : Int) : Number := ofRatio (n < 0) n.natAbs 1

/-- The number nearest to `± d`. A decimal whose first digit is more than 310 places before the point
is beyond every finite number, one with 330 zeros after the point is nearer to zero than to any
other, so neither power is ever formed. -/
def ofDecimal (negative : Bool) (d : Decimal) : Number :=
  let point : Int := d.exponent + (Nat.toDigits 10 d.coefficient).length
  if d.coefficient = 0 ∨ point < -330 then ofBits 0
  else if 310 < point then ofBits (withSign negative infinityBits)
  else if 0 ≤ d.exponent then ofRatio negative (d.coefficient * Nat.pow 10 d.exponent.toNat) 1
  else ofRatio negative d.coefficient (Nat.pow 10 (-d.exponent).toNat)

/-! ### Classes -/

def isNaN (x : Number) : Bool := Binary64.isNaN x.bits

def isFinite (x : Number) : Bool := Binary64.isFinite x.bits

def isNegative (x : Number) : Bool := Binary64.isNegative x.bits

/-- A finite number without a fractional part. -/
def isIntegral (x : Number) : Bool := x.isFinite && quanta x.bits % unit = 0

/-- The value of an integral number. -/
def toInt? (x : Number) : Option Int :=
  if x.isIntegral then
    let n : Int := ↑(quanta x.bits / unit)
    some (if x.isNegative then -n else n)
  else none

/-! ### Comparison -/

/-- Equality of values: NaN equals nothing. -/
def sameValue (x y : Number) : Bool := x = y && !x.isNaN

def lt (x y : Number) : Bool := x.toFloat < y.toFloat

def le (x y : Number) : Bool := x.toFloat ≤ y.toFloat

/-! ### Arithmetic -/

def add (x y : Number) : Number := ofFloat (x.toFloat + y.toFloat)

def sub (x y : Number) : Number := ofFloat (x.toFloat - y.toFloat)

def div (x y : Number) : Number := ofFloat (x.toFloat / y.toFloat)

/-- The exact remainder of the division with the quotient cut towards zero. -/
def rem (x y : Number) : Number :=
  if x.isNaN || y.isNaN || !x.isFinite || quanta y.bits = 0 then nan
  else if !y.isFinite then x
  else ofBits (withSign x.isNegative (ofQuanta (quanta x.bits % quanta y.bits) 1))

/-- Power; a NaN operand gives NaN, whatever the other operand is. -/
def pow (x y : Number) : Number :=
  if x.isNaN || y.isNaN then nan else ofFloat (x.toFloat ^ y.toFloat)

def neg (x : Number) : Number := ofBits (x.bits ^^^ signBit)

/-- What an arithmetic operator makes of two numbers; other tags make nothing of them. -/
def arithmetic? : Tag → Number → Number → Option Number
  | .add, x, y => some (x.add y)
  | .sub, x, y => some (x.sub y)
  | .div, x, y => some (x.div y)
  | .mod, x, y => some (x.rem y)
  | .pow, x, y => some (x.pow y)
  | _, _, _ => none

end Number

end Linefold
