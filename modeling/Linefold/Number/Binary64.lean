/-!
# Binary64 words

A binary64 word holds a sign, an eleven-bit exponent field and a fifty-two-bit fraction. Every
finite magnitude is a whole number of quanta, the quantum being the least positive magnitude
`2 ^ -1074`, so decoding lands in `Nat` and rounding is a division there.

`canonical` picks one word for each numeric value: zero has no sign and there is one NaN.
-/

namespace Linefold.Binary64

/-! ### Fields -/

/-- The sign bit, and the word of negative zero. -/
def signBit : UInt64 := 0x8000000000000000

/-- The word of positive infinity. -/
def infinityBits : UInt64 := 0x7ff0000000000000

/-- The word that stands for every NaN. -/
def nanBits : UInt64 := 0x7ff8000000000000

def isNegative (b : UInt64) : Bool := signBit ≤ b

/-- The word without its sign. -/
def magnitudeBits (b : UInt64) : UInt64 := b &&& 0x7fffffffffffffff

def isNaN (b : UInt64) : Bool := infinityBits < magnitudeBits b

def isInfinite (b : UInt64) : Bool := magnitudeBits b == infinityBits

def isFinite (b : UInt64) : Bool := magnitudeBits b < infinityBits

def exponentField (b : UInt64) : Nat := ((magnitudeBits b) >>> 52).toNat

def fraction (b : UInt64) : Nat := (b &&& 0xfffffffffffff).toNat

/-! ### Canonical words -/

/-- The word that represents the same value as `b`. -/
def canonical (b : UInt64) : UInt64 :=
  if isNaN b then nanBits else if b = signBit then 0 else b

theorem canonical_canonical (b : UInt64) : canonical (canonical b) = canonical b := by
  by_cases hn : isNaN b = true
  · have h : canonical b = nanBits := by simp [canonical, hn]
    rw [h]; decide
  · by_cases hs : b = signBit
    · subst hs; decide
    · have h : canonical b = b := by simp [canonical, hn, hs]
      rw [h, h]

/-! ### Quanta -/

/-- Quanta in one. -/
def unit : Nat := Nat.pow 2 1074

/-- The significand of a finite word: its magnitude is `significand * 2 ^ shift` quanta. -/
def significand (b : UInt64) : Nat :=
  if exponentField b = 0 then fraction b else fraction b + Nat.pow 2 52

def shift (b : UInt64) : Nat := exponentField b - 1

/-- The magnitude of a finite word, in quanta. -/
def quanta (b : UInt64) : Nat := significand b * Nat.pow 2 (shift b)

/-- The whole number nearest to `n / d`; a half goes to the even neighbour. -/
def divNearestEven (n d : Nat) : Nat :=
  let q := n / d
  let r := 2 * (n % d)
  if r < d then q else if d < r then q + 1 else q + q % 2

/-- The word nearest to `n / d` quanta, ties to the even significand, infinity beyond the largest
finite magnitude. A significand that rounds up to `2 ^ 53` carries into the exponent field. -/
def ofQuanta (n d : Nat) : UInt64 :=
  let e := (n / d).log2 - 52
  let w := e * Nat.pow 2 52 + divNearestEven n (d * Nat.pow 2 e)
  if w < infinityBits.toNat then UInt64.ofNat w else infinityBits

/-- The word with the magnitude of `b` and the given sign. -/
def withSign (negative : Bool) (b : UInt64) : UInt64 :=
  if negative then b ||| signBit else b

end Linefold.Binary64
