import Linefold.Number.Shortest
import Linefold.Proofs.Tables.Numbers
import Mathlib.Data.Rat.Cast.Order
import Mathlib.Tactic.Linarith

/-!
# What rounds to a word

The magnitudes of the finite words are `quantaAt m` for `m = 0, 1, 2, …`. What rounds to the word `m + 1` begins
where what rounds to `m` ends, half way between the two, and the common end goes to the even one of them. So a
fraction rounds to one word at most (`Rounding.Holds.unique`).
-/

namespace Linefold.Binary64

/-! ### Magnitudes in order -/

/-- The significand of the word `m`. -/
def significandAt (m : Nat) : Nat := if m / 2 ^ 52 = 0 then m % 2 ^ 52 else m % 2 ^ 52 + 2 ^ 52

/-- The distance from one magnitude to the next. -/
def stepAt (m : Nat) : Nat := 2 ^ (m / 2 ^ 52 - 1)

/-- The magnitude of the word `m`, in quanta. -/
def quantaAt (m : Nat) : Nat := significandAt m * stepAt m

/-- Half way from one magnitude to the next, in quarters of a quantum. -/
def halfwayAt (m : Nat) : Nat := 4 * quantaAt m + 2 * stepAt m

variable {m : Nat} {b c : UInt64} {x : ℚ}

/-- A normal significand of ones carries into the exponent, and then the words lie twice as far apart. -/
theorem succ_cases (m : Nat) :
    (significandAt (m + 1) = 2 ^ 52 ∧ (m + 1) / 2 ^ 52 - 1 ≠ 0) ∧ significandAt m + 1 = 2 ^ 53 ∧
        stepAt (m + 1) = 2 * stepAt m ∨
      ¬ (significandAt (m + 1) = 2 ^ 52 ∧ (m + 1) / 2 ^ 52 - 1 ≠ 0) ∧ significandAt (m + 1) = significandAt m + 1 ∧
        stepAt (m + 1) = stepAt m := by
  unfold significandAt stepAt
  by_cases hcarry : (m + 1) % 2 ^ 52 = 0 ∧ m / 2 ^ 52 ≠ 0
  · left
    obtain ⟨e, he⟩ := Nat.exists_eq_succ_of_ne_zero hcarry.2
    have hexponent : (m + 1) / 2 ^ 52 = e + 2 := by omega
    rw [hexponent, he, if_neg (Nat.succ_ne_zero _), if_neg (Nat.succ_ne_zero _)]
    refine ⟨by omega, by omega, ?_⟩
    exact Nat.pow_succ'
  · right
    have hexponent : (m + 1) / 2 ^ 52 - 1 = m / 2 ^ 52 - 1 := by omega
    rw [hexponent]
    refine ⟨?_, ?_, rfl⟩ <;> (split <;> (try split) <;> omega)

theorem stepAt_pos : 0 < stepAt m := Nat.two_pow_pos _

theorem quantaAt_succ (m : Nat) : quantaAt (m + 1) = quantaAt m + stepAt m := by
  have hnext : quantaAt m + stepAt m = (significandAt m + 1) * stepAt m := (Nat.succ_mul _ _).symm
  rw [hnext, quantaAt]
  rcases succ_cases m with ⟨hcarry, hones, hstep⟩ | ⟨-, hsignificand, hstep⟩
  · rw [hcarry.1, hones, hstep]
    ring
  · rw [hsignificand, hstep]

theorem halfwayAt_lt_succ (m : Nat) : halfwayAt m < halfwayAt (m + 1) := by
  have hstep : 0 < stepAt (m + 1) := stepAt_pos
  unfold halfwayAt
  rw [quantaAt_succ]
  omega

theorem halfwayAt_strictMono : StrictMono halfwayAt := strictMono_nat_of_lt_succ halfwayAt_lt_succ

/-! ### The words of the magnitudes -/

theorem exponentField_eq_div (b : UInt64) : exponentField b = (magnitudeBits b).toNat / 2 ^ 52 := by
  rw [exponentField_eq, toNat_magnitudeBits]

theorem fraction_eq_mod (b : UInt64) : fraction b = (magnitudeBits b).toNat % 2 ^ 52 := by
  rw [fraction_eq, toNat_magnitudeBits]
  omega

theorem significand_eq (b : UInt64) : significand b = significandAt (magnitudeBits b).toNat := by
  rw [significand, exponentField_eq_div, fraction_eq_mod]
  rfl

theorem two_pow_shift (b : UInt64) : Nat.pow 2 (shift b) = stepAt (magnitudeBits b).toNat := by
  rw [stepAt, shift, exponentField_eq_div]
  rfl

theorem quanta_eq (b : UInt64) : quanta b = quantaAt (magnitudeBits b).toNat := by
  rw [quanta, two_pow_shift, significand_eq, quantaAt]

theorem closed_rounding (b : UInt64) : (rounding b).closed = decide ((magnitudeBits b).toNat % 2 = 0) := by
  have hparity : significand b % 2 = (magnitudeBits b).toNat % 2 := by
    rw [significand_eq, significandAt]
    split <;> omega
  unfold rounding
  simp only [hparity]

theorem high_rounding (b : UInt64) : (rounding b).high = halfwayAt (magnitudeBits b).toNat := by
  unfold rounding halfwayAt
  simp only [quanta_eq, two_pow_shift]

/-- How far down from a magnitude fractions round to it, in quarters of a quantum. -/
def reachBelow (b : UInt64) : Nat :=
  if significand b = 2 ^ 52 ∧ shift b ≠ 0 then stepAt (magnitudeBits b).toNat else 2 * stepAt (magnitudeBits b).toNat

theorem reachBelow_le (b : UInt64) : reachBelow b ≤ 2 * stepAt (magnitudeBits b).toNat := by
  unfold reachBelow
  split <;> omega

theorem low_rounding (b : UInt64) : (rounding b).low = 4 * quanta b - reachBelow b := by
  rw [reachBelow, ← two_pow_shift]
  rfl

/-- What rounds to a word begins where what rounds to the word before it ends. -/
theorem low_rounding_of_succ (h : (magnitudeBits b).toNat = m + 1) : (rounding b).low = halfwayAt m := by
  have hshift : shift b = (m + 1) / 2 ^ 52 - 1 := by rw [shift, exponentField_eq_div, h]
  rw [low_rounding, reachBelow, quanta_eq, significand_eq, hshift, h, quantaAt_succ, halfwayAt]
  rcases succ_cases m with ⟨hcarry, -, hstep⟩ | ⟨hcarry, -, hstep⟩
  · rw [if_pos hcarry, hstep]
    omega
  · rw [if_neg hcarry, hstep]
    omega

/-! ### Fractions that round to a word -/

/-- The fraction, in quarters of a quantum, rounds to the word. -/
def Rounding.Holds (r : Rounding) (x : ℚ) : Prop :=
  r.low ≤ x ∧ x ≤ r.high ∧ (r.closed = false → r.low < x ∧ x < r.high)

theorem Rounding.contains_iff {r : Rounding} {n d : Nat} (hd : 0 < d) : r.contains n d ↔ r.Holds (n / d) := by
  have hd' : (0 : ℚ) < d := Nat.cast_pos.2 hd
  unfold contains Holds
  rw [le_div_iff₀ hd', div_le_iff₀ hd', lt_div_iff₀ hd', div_lt_iff₀ hd']
  norm_cast
  cases r.closed
  · simp
    omega
  · simp

/-- A fraction that rounds to a word does not round to a later one. -/
theorem Rounding.Holds.not_lt (hb : (rounding b).Holds x) (hc : (rounding c).Holds x) :
    ¬ (magnitudeBits b).toNat < (magnitudeBits c).toNat := by
  intro hlt
  obtain ⟨m, hm⟩ := Nat.exists_eq_succ_of_ne_zero (Nat.ne_zero_of_lt hlt)
  have hle : (magnitudeBits b).toNat ≤ m := by omega
  obtain ⟨-, hhigh, hopen⟩ := hb
  obtain ⟨hlow, -, hopen'⟩ := hc
  rw [high_rounding] at hhigh hopen
  rw [low_rounding_of_succ hm] at hlow hopen'
  have hends : (halfwayAt (magnitudeBits b).toNat : ℚ) ≤ halfwayAt m := Nat.cast_le.2 (halfwayAt_strictMono.monotone hle)
  have hx : x = halfwayAt (magnitudeBits b).toNat := le_antisymm hhigh (hends.trans hlow)
  have hx' : x = halfwayAt m := le_antisymm (hhigh.trans hends) hlow
  -- the common end belongs to the even one of two words that follow each other
  have hm' : (magnitudeBits b).toNat = m := halfwayAt_strictMono.injective (Nat.cast_injective (hx.symm.trans hx'))
  rw [closed_rounding, decide_eq_false_iff_not] at hopen hopen'
  have hparity : ¬ ((magnitudeBits b).toNat % 2 = 0 ∧ (magnitudeBits c).toNat % 2 = 0) := by omega
  by_cases heven : (magnitudeBits b).toNat % 2 = 0
  · exact absurd hx' (hopen' fun hc => hparity ⟨heven, hc⟩).1.ne'
  · exact absurd hx (hopen heven).2.ne

/-- A fraction rounds to one word at most. -/
theorem Rounding.Holds.unique (hb : (rounding b).Holds x) (hc : (rounding c).Holds x) :
    magnitudeBits b = magnitudeBits c :=
  UInt64.toNat.inj (Nat.le_antisymm (Nat.not_lt.1 (hc.not_lt hb)) (Nat.not_lt.1 (hb.not_lt hc)))

/-- A word's own magnitude rounds to it. -/
theorem holds_quanta (b : UInt64) : (rounding b).Holds (4 * quanta b) := by
  have hlow : (rounding b).low ≤ 4 * quanta b := low_rounding b ▸ Nat.sub_le _ _
  have hhigh : 4 * quanta b < (rounding b).high := by
    have hstep : 0 < stepAt (magnitudeBits b).toNat := stepAt_pos
    rw [high_rounding, halfwayAt, ← quanta_eq]
    omega
  refine ⟨by exact_mod_cast hlow, by exact_mod_cast hhigh.le, fun hopen => ⟨?_, by exact_mod_cast hhigh⟩⟩
  rw [closed_rounding, decide_eq_false_iff_not] at hopen
  obtain ⟨m, hm⟩ : ∃ m, (magnitudeBits b).toNat = m + 1 :=
    Nat.exists_eq_succ_of_ne_zero fun h0 => hopen (by rw [h0])
  have hlt : halfwayAt m < 4 * quanta b := by
    have hstep : 0 < stepAt m := stepAt_pos
    rw [quanta_eq, hm, quantaAt_succ, halfwayAt]
    omega
  rw [low_rounding_of_succ hm]
  exact_mod_cast hlt

end Linefold.Binary64
