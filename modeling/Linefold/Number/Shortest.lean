import Linefold.Number.Binary64

/-!
# The shortest decimal

Of the decimals that round to a given finite word, `shortest` takes one with the fewest digits, and
of those the nearest. The decimals with `n` digits form a grid, and if a point of the grid rounds
to the word then so does one of the two neighbours of the word's own value. The search tries the
grids with one, two, up to seventeen digits, and seventeen always suffice. A format says which of
two equally near points it takes.
-/

namespace Linefold

/-- The number `coefficient * 10 ^ exponent`. -/
structure Decimal where
  coefficient : Nat
  exponent : Int
  deriving DecidableEq, Repr

/-- Which of two equally near decimals to take. -/
inductive Tie where
  | up
  | even
  deriving DecidableEq, Repr

namespace Binary64

/-- The magnitudes `quanta b - below / 4` to `quanta b + above / 4` round to `b`, the two ends
included when the significand is even. Below a power of two the words lie twice as close. -/
structure Rounding where
  low : Nat
  high : Nat
  closed : Bool

/-- The magnitudes that round to a finite word, in quarters of a quantum. -/
def rounding (b : UInt64) : Rounding :=
  let step := Nat.pow 2 (shift b)
  let below := if significand b = Nat.pow 2 52 ∧ shift b ≠ 0 then step else 2 * step
  { low := 4 * quanta b - below
    high := 4 * quanta b + 2 * step
    closed := significand b % 2 = 0 }

/-- The fraction `n / d`, in quarters of a quantum, rounds to the word. -/
def Rounding.contains (r : Rounding) (n d : Nat) : Bool :=
  if r.closed then r.low * d ≤ n && n ≤ r.high * d else r.low * d < n && n < r.high * d

/-- The power of ten in quanta, as a fraction. -/
def powerOfTen (k : Int) : Nat × Nat :=
  if 0 ≤ k then (unit * Nat.pow 10 k.toNat, 1) else (unit, Nat.pow 10 (-k).toNat)

/-- The magnitude is less than `10 ^ p`. -/
def belowPower (b : UInt64) (p : Int) : Bool :=
  quanta b * (powerOfTen p).2 < (powerOfTen p).1

/-- The number of digits before the point, which is not positive for a magnitude below one: the
least `p` with the magnitude below `10 ^ p`. The logarithm fixes it up to two. -/
def pointOf (b : UInt64) : Int :=
  let p := (((quanta b).log2 : Int) - 1074) * 30103 / 100000
  if belowPower b p then p else if belowPower b (p + 1) then p + 1 else p + 2

/-- The point of the grid `10 ^ k` that rounds to the word and is nearest to it. -/
def onGrid? (tie : Tie) (b : UInt64) (k : Int) : Option Nat :=
  let (n, d) := powerOfTen k
  let q := quanta b * d / n
  let r := 2 * (quanta b * d % n)
  let near (c : Nat) : Bool := (rounding b).contains (4 * c * n) d
  let lower := r < n || r = n && tie = .even && q % 2 = 0
  if near q && (lower || !near (q + 1)) then some q
  else if near (q + 1) then some (q + 1) else none

/-- Tries grids with `n`, `n + 1`, … digits before giving the finest one. -/
def searchGrid (tie : Tie) (b : UInt64) (point : Int) (n : Nat) : Nat → Decimal
  | 0 => ⟨(onGrid? tie b (point - n)).getD 0, point - n⟩
  | finer + 1 =>
    match onGrid? tie b (point - n) with
    | some c => ⟨c, point - n⟩
    | none => searchGrid tie b point (n + 1) finer

/-- The shortest decimal that rounds to a finite word other than zero. -/
def shortest (tie : Tie) (b : UInt64) : Decimal := searchGrid tie b (pointOf b) 1 16

end Binary64

namespace Decimal

/-- Removes the zeros at the end of the coefficient's digits, which are held backwards. -/
def dropZeros : List Char → List Char × Nat
  | '0' :: ds => ((dropZeros ds).1, (dropZeros ds).2 + 1)
  | ds => (ds, 0)

/-- The significant digits, and the number of them that stand before the point. -/
def digits (x : Decimal) : List Char × Int :=
  let ds := Nat.toDigits 10 x.coefficient
  let (kept, dropped) := dropZeros ds.reverse
  (kept.reverse, x.exponent + (kept.length + dropped))

/-- Digits written out around the point, padded with zeros, without an exponent. -/
def positional (ds : List Char) (point : Int) : List Char :=
  if point ≤ 0 then '0' :: '.' :: (List.replicate (-point).toNat '0' ++ ds)
  else if ds.length ≤ point.toNat then ds ++ List.replicate (point.toNat - ds.length) '0'
  else ds.take point.toNat ++ '.' :: ds.drop point.toNat

end Decimal

end Linefold
