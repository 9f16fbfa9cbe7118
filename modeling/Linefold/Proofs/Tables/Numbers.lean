import Linefold.Number.Text
import Mathlib.Tactic.Ring

/-!
# Whole numbers and texts that read back

The quanta of a finite word round to that word (`ofQuanta_quanta`), so the number nearest to the value of an
integral number is the number itself (`Number.ofInt_of_toInt?`), and a whole number below `2 ^ 53` keeps its value
(`Number.toInt?_ofInt`). Numbers that are not finite are read back
from their texts (`Number.ofText_text`).
-/

namespace Linefold

namespace Binary64

variable {b : UInt64}

/-! ### Fields -/

theorem toNat_magnitudeBits (b : UInt64) : (magnitudeBits b).toNat = b.toNat % 2 ^ 63 :=
  (UInt64.toNat_and _ _).trans (Nat.and_two_pow_sub_one_eq_mod b.toNat 63)

theorem fraction_eq (b : UInt64) : fraction b = b.toNat % 2 ^ 52 :=
  (UInt64.toNat_and _ _).trans (Nat.and_two_pow_sub_one_eq_mod b.toNat 52)

theorem exponentField_eq (b : UInt64) : exponentField b = b.toNat % 2 ^ 63 / 2 ^ 52 := by
  unfold exponentField
  rw [UInt64.toNat_shiftRight, toNat_magnitudeBits, Nat.shiftRight_eq_div_pow]
  rfl

/-- The exponent field stands above the fraction. -/
theorem toNat_magnitudeBits_eq_add (b : UInt64) :
    (magnitudeBits b).toNat = exponentField b * 2 ^ 52 + fraction b := by
  rw [toNat_magnitudeBits, exponentField_eq, fraction_eq]
  omega

theorem isNegative_iff : isNegative b ↔ 2 ^ 63 ≤ b.toNat := by
  simp only [isNegative, decide_eq_true_eq]
  exact UInt64.le_iff_toNat_le

theorem withSign_magnitudeBits (b : UInt64) : withSign (isNegative b) (magnitudeBits b) = b := by
  have hb := b.toNat_lt
  apply UInt64.toNat.inj
  unfold withSign
  split
  · next hneg =>
    have hneg := isNegative_iff.1 hneg
    have hlow : b.toNat % 2 ^ 63 < 2 ^ 63 := Nat.mod_lt _ (by decide)
    have hor := Nat.two_pow_add_eq_or_of_lt hlow 1
    rw [UInt64.toNat_or, toNat_magnitudeBits, Nat.or_comm]
    exact hor.symm.trans (by omega)
  · next hpos =>
    have hpos : ¬ 2 ^ 63 ≤ b.toNat := fun h => hpos (isNegative_iff.2 h)
    rw [toNat_magnitudeBits]
    omega

/-! ### Rounding -/

theorem divNearestEven_mul {d : Nat} (k : Nat) (hd : 0 < d) : divNearestEven (k * d) d = k := by
  unfold divNearestEven
  simp [Nat.mul_div_cancel k hd, hd]

/-- A whole number of quanta of that many digits keeps all of them. -/
theorem ofQuanta_mul {k e : Nat} (he : (k * 2 ^ e).log2 - 52 = e) :
    ofQuanta (k * 2 ^ e) 1 =
      if e * 2 ^ 52 + k < infinityBits.toNat then UInt64.ofNat (e * 2 ^ 52 + k) else infinityBits := by
  have hdiv : divNearestEven (k * 2 ^ e) (1 * Nat.pow 2 e) = k := by
    rw [Nat.one_mul]
    exact divNearestEven_mul k (Nat.two_pow_pos e)
  unfold ofQuanta
  simp only [Nat.div_one, he, hdiv]
  rfl

theorem ofNat_toNat_magnitudeBits (hfinite : isFinite b) {w : Nat} (hw : w = (magnitudeBits b).toNat) :
    (if w < infinityBits.toNat then UInt64.ofNat w else infinityBits) = magnitudeBits b := by
  have hlt : (magnitudeBits b).toNat < infinityBits.toNat := by
    simpa [isFinite, UInt64.lt_iff_toNat_lt] using hfinite
  rw [hw, if_pos hlt, UInt64.ofNat_toNat]

/-- The magnitude of a finite word rounds to the word. -/
theorem ofQuanta_quanta (hfinite : isFinite b) : ofQuanta (quanta b) 1 = magnitudeBits b := by
  have hfraction : fraction b < 2 ^ 52 := by
    rw [fraction_eq]
    exact Nat.mod_lt _ (by decide)
  have hbits := toNat_magnitudeBits_eq_add b
  by_cases hzero : exponentField b = 0
  · have hquanta : quanta b = fraction b * 2 ^ 0 := by simp [quanta, significand, shift, hzero]
    have hlog : (fraction b * 2 ^ 0).log2 - 52 = 0 := by
      by_cases h0 : fraction b = 0
      · rw [h0]
        decide
      · have hlt := (Nat.log2_lt h0).2 hfraction
        rw [Nat.pow_zero, Nat.mul_one]
        omega
    rw [hquanta, ofQuanta_mul hlog]
    exact ofNat_toNat_magnitudeBits hfinite (by omega)
  · obtain ⟨s, hs⟩ : ∃ s, exponentField b = s + 1 := Nat.exists_eq_succ_of_ne_zero hzero
    have hquanta : quanta b = (fraction b + 2 ^ 52) * 2 ^ s := by
      simp [quanta, significand, shift, hs]
    have hlog : ((fraction b + 2 ^ 52) * 2 ^ s).log2 = 52 + s := by
      refine (Nat.log2_eq_iff ?_).2 ⟨?_, ?_⟩
      · exact Nat.ne_of_gt (Nat.mul_pos (by omega) (Nat.two_pow_pos s))
      · rw [Nat.pow_add]
        exact Nat.mul_le_mul_right _ (by omega)
      · rw [show 2 ^ (52 + s + 1) = 2 ^ 53 * 2 ^ s by ring]
        exact Nat.mul_lt_mul_of_pos_right (by omega) (Nat.two_pow_pos s)
    rw [hquanta, ofQuanta_mul (by omega)]
    exact ofNat_toNat_magnitudeBits hfinite (by omega)

/-- The word of a whole number that needs no rounding. -/
theorem ofQuanta_whole {n : Nat} (hn : n ≠ 0) (hlt : n < 2 ^ 53) :
    quanta (ofQuanta (n * unit) 1) = n * unit ∧ (ofQuanta (n * unit) 1).toNat < infinityBits.toNat := by
  have hlog : n.log2 < 53 := (Nat.log2_lt hn).2 hlt
  obtain ⟨hfrom, hto⟩ := (Nat.log2_eq_iff hn).1 rfl
  -- `k` has 53 digits, and `n` ones are `k * 2 ^ e` quanta.
  obtain ⟨r, hr⟩ : ∃ r, n.log2 + r = 52 := ⟨52 - n.log2, by omega⟩
  obtain ⟨e, he⟩ : ∃ e, r + e = 1074 := ⟨1074 - r, by omega⟩
  obtain ⟨k, hk⟩ : ∃ k, k = n * 2 ^ r := ⟨_, rfl⟩
  have hlow : 2 ^ 52 ≤ k := by
    rw [hk, ← hr, Nat.pow_add]
    exact Nat.mul_le_mul_right _ hfrom
  have hhigh : k < 2 ^ 53 := by
    have hpow : n.log2 + 1 + r = 53 := by omega
    rw [hk, ← hpow, Nat.pow_add]
    exact Nat.mul_lt_mul_of_pos_right hto (Nat.two_pow_pos r)
  have hquanta : n * unit = k * 2 ^ e := by
    have hunit : unit = 2 ^ (r + e) := by
      unfold unit
      rw [← he, Nat.pow_eq]
    rw [hunit, hk, Nat.pow_add, Nat.mul_assoc]
  have hround : (k * 2 ^ e).log2 = 52 + e := by
    refine (Nat.log2_eq_iff (Nat.ne_of_gt (Nat.mul_pos (by omega) (Nat.two_pow_pos e)))).2 ⟨?_, ?_⟩
    · rw [Nat.pow_add]
      exact Nat.mul_le_mul_right _ hlow
    · rw [Nat.add_right_comm, Nat.pow_add]
      exact Nat.mul_lt_mul_of_pos_right hhigh (Nat.two_pow_pos e)
  have hinf : infinityBits.toNat = 2047 * 2 ^ 52 := by decide
  have hfinite : e * 2 ^ 52 + k < infinityBits.toNat := by omega
  have hword : (UInt64.ofNat (e * 2 ^ 52 + k)).toNat = e * 2 ^ 52 + k := by
    refine UInt64.toNat_ofNat_of_lt' ?_
    simp only [UInt64.size]
    omega
  rw [hquanta, ofQuanta_mul (by omega), if_pos hfinite]
  refine ⟨?_, by rw [hword]; exact hfinite⟩
  have hexponent : exponentField (UInt64.ofNat (e * 2 ^ 52 + k)) = e + 1 := by
    rw [exponentField_eq, hword]
    omega
  have hfraction : fraction (UInt64.ofNat (e * 2 ^ 52 + k)) = k - 2 ^ 52 := by
    rw [fraction_eq, hword]
    omega
  have hsignificand : significand (UInt64.ofNat (e * 2 ^ 52 + k)) = k := by
    rw [significand, hexponent, hfraction, if_neg (by omega)]
    exact Nat.sub_add_cancel hlow
  rw [quanta, hsignificand, shift, hexponent]
  rfl

end Binary64

/-! ### Numbers -/

namespace Number

open Binary64

variable {x : Number} {n : Int}

/-- The only zero has no sign. -/
theorem quanta_ne_zero_of_isNegative (hfinite : x.isFinite) (hneg : x.isNegative) : quanta x.bits ≠ 0 := by
  intro hzero
  have hmagnitude := ofQuanta_quanta hfinite
  rw [hzero] at hmagnitude
  have hbits := withSign_magnitudeBits x.bits
  have hneg : Binary64.isNegative x.bits = true := hneg
  rw [hneg, ← hmagnitude] at hbits
  have hcanonical := x.canonical
  rw [← hbits] at hcanonical
  revert hcanonical
  decide

/-- A whole number is the nearest number to its own value. -/
theorem ofInt_of_toInt? (h : x.toInt? = some n) : ofInt n = x := by
  unfold toInt? at h
  split at h
  · next hintegral =>
    unfold isIntegral at hintegral
    simp only [Bool.and_eq_true, decide_eq_true_eq] at hintegral
    obtain ⟨hfinite, hwhole⟩ := hintegral
    have hdvd : quanta x.bits / unit * unit = quanta x.bits := Nat.div_mul_cancel (Nat.dvd_of_mod_eq_zero hwhole)
    have hnatAbs : n.natAbs = quanta x.bits / unit := by
      cases h
      split <;> simp only [Int.natAbs_neg, Int.natAbs_natCast]
    have hsign : decide (n < 0) = Binary64.isNegative x.bits := by
      by_cases hneg : x.isNegative
      · have hpos : 0 < quanta x.bits / unit := by
          refine Nat.pos_of_ne_zero fun h0 => quanta_ne_zero_of_isNegative hfinite hneg ?_
          rw [← hdvd, h0, Nat.zero_mul]
        simp only [hneg, if_true] at h
        cases h
        refine (decide_eq_true ?_).trans (Eq.symm hneg)
        omega
      · simp only [hneg] at h
        cases h
        have hneg' : Binary64.isNegative x.bits = false := Bool.eq_false_of_not_eq_true hneg
        rw [hneg', if_neg (by simp)]
        exact decide_eq_false (by omega)
    unfold ofInt ofRatio
    rw [hsign, hnatAbs, hdvd, ofQuanta_quanta hfinite, withSign_magnitudeBits, ofBits_bits]
  · cases h

/-- Whole numbers below `2 ^ 53` are kept as they are. -/
theorem toInt?_ofInt {n : Nat} (hlt : n < 2 ^ 53) : (ofInt n).toInt? = some (n : Int) := by
  by_cases hn : n = 0
  · subst hn
    decide +kernel
  obtain ⟨hquanta, hfinite⟩ := ofQuanta_whole hn hlt
  obtain ⟨b, hb⟩ : ∃ b, ofQuanta (n * unit) 1 = b := ⟨_, rfl⟩
  rw [hb] at hquanta hfinite
  have hmagnitude : (magnitudeBits b).toNat = b.toNat := by
    rw [toNat_magnitudeBits]
    have hinf : infinityBits.toNat = 2047 * 2 ^ 52 := by decide
    omega
  have hcanonical : Binary64.canonical b = b := by
    have hnan : Binary64.isNaN b = false := by
      simp only [Binary64.isNaN, decide_eq_false_iff_not, UInt64.lt_iff_toNat_lt, hmagnitude]
      omega
    have hsign : b ≠ signBit := by
      rintro rfl
      revert hfinite
      decide
    simp [Binary64.canonical, hnan, hsign]
  have hbits : (ofInt n).bits = b := by
    have hneg : decide ((n : Int) < 0) = false := decide_eq_false (by omega)
    simp only [ofInt, ofRatio, hneg, Int.natAbs_natCast, hb, withSign, ofBits, Bool.false_eq_true, ↓reduceIte, hcanonical]
  have hpos : 0 < unit := by decide +kernel
  have hintegral : (ofInt n).isIntegral := by
    simp only [isIntegral, isFinite, hbits, hquanta, Nat.mul_mod_left, Binary64.isFinite, UInt64.lt_iff_toNat_lt, hmagnitude,
      hfinite, decide_true, Bool.and_self]
  have hnonneg : (ofInt n).isNegative = false := by
    simp only [isNegative, hbits, Binary64.isNegative, decide_eq_false_iff_not, UInt64.le_iff_toNat_le]
    have hinf : infinityBits.toNat < signBit.toNat := by decide
    omega
  simp only [toInt?, hintegral, ↓reduceIte, hnonneg, Bool.false_eq_true, hbits, hquanta, Nat.mul_div_cancel n hpos]

/-- Besides the finite numbers there are NaN and the two infinities. -/
theorem eq_of_not_isFinite (h : ¬ x.isFinite) :
    x = nan ∨ x = ofBits infinityBits ∨ x = ofBits (infinityBits ||| signBit) := by
  have hge : ¬ (magnitudeBits x.bits).toNat < infinityBits.toNat := by
    simpa [isFinite, Binary64.isFinite, UInt64.lt_iff_toNat_lt] using h
  by_cases hnan : Binary64.isNaN x.bits
  · left
    have hcanonical := x.canonical
    unfold Binary64.canonical at hcanonical
    rw [if_pos hnan] at hcanonical
    rw [← ofBits_bits x, ← hcanonical]
    rfl
  · right
    have hmagnitude : magnitudeBits x.bits = infinityBits := by
      have hle : ¬ infinityBits.toNat < (magnitudeBits x.bits).toNat := by
        simpa [Binary64.isNaN, UInt64.lt_iff_toNat_lt] using hnan
      exact UInt64.toNat.inj (by omega)
    have hbits := withSign_magnitudeBits x.bits
    rw [hmagnitude] at hbits
    rw [← ofBits_bits x, ← hbits]
    cases Binary64.isNegative x.bits
    · exact .inl rfl
    · exact .inr rfl

theorem ofText_text (h : ¬ x.isFinite) : ofText x.text = x := by
  rcases eq_of_not_isFinite h with rfl | rfl | rfl <;> decide +kernel

end Number

end Linefold
