import Linefold.Proofs.Numbers.Rounding
import Mathlib.Algebra.Order.Field.Power
import Mathlib.Tactic.FieldSimp
import Mathlib.Tactic.Positivity

/-!
# The shortest decimal rounds to its word

The search for the shortest decimal ends with one that rounds to the word (`holds_shortest`). A grid is only
left when no point of it does, and of the finest grid, with seventeen digits, one of the two neighbours of the
magnitude always does: the grid is finer than the distance between words, since the first digit of the
magnitude does not stand before the point that is found for it (`le_pointOf`).
-/

namespace Linefold

/-- The number that a decimal stands for. -/
def Decimal.value (d : Decimal) : ℚ := d.coefficient * 10 ^ d.exponent

namespace Binary64

variable {b : UInt64} {k p : Int} {c n d : Nat} {tie : Tie}

/-! ### Powers of ten -/

theorem unit_pos : 0 < unit := by decide +kernel

theorem powerOfTen_pos (k : Int) : 0 < (powerOfTen k).1 ∧ 0 < (powerOfTen k).2 := by
  have hunit := unit_pos
  have hten (n : Nat) : 0 < Nat.pow 10 n := Nat.pow_pos (by decide)
  unfold powerOfTen
  generalize unit = u at hunit
  split
  · exact ⟨Nat.mul_pos hunit (hten _), Nat.one_pos⟩
  · exact ⟨hunit, hten _⟩

theorem powerOfTen_div (k : Int) : ((powerOfTen k).1 / (powerOfTen k).2 : ℚ) = unit * 10 ^ k := by
  unfold powerOfTen
  generalize unit = u
  split
  · next hk =>
    obtain ⟨n, rfl⟩ := Int.eq_ofNat_of_zero_le hk
    simp
  · next hk =>
    obtain ⟨n, rfl⟩ := Int.exists_eq_neg_ofNat (Int.le_of_lt (Int.not_le.1 hk))
    simp [div_eq_mul_inv]

theorem belowPower_iff : belowPower b p ↔ (quanta b : ℚ) < unit * 10 ^ p := by
  obtain ⟨-, hd⟩ := powerOfTen_pos p
  have hd : (0 : ℚ) < (powerOfTen p).2 := Nat.cast_pos.2 hd
  rw [← powerOfTen_div, lt_div_iff₀ hd, belowPower, decide_eq_true_eq]
  norm_cast

/-! ### The point -/

/-- The logarithm of two to base ten is a little less than the fraction that the point is found with, and more than
`93 / 309`. -/
theorem ten_pow_le {a x : Nat} (h : (a + 1) * 100000 ≤ x * 30103) (hx : x ≤ 1023) : 10 ^ a ≤ 2 ^ x := by
  have hexponent : 309 * a ≤ 93 * x := by omega
  refine (Nat.pow_le_pow_iff_left (by decide : 309 ≠ 0)).1 ?_
  calc (10 ^ a) ^ 309 = 10 ^ (309 * a) := by rw [← Nat.pow_mul, Nat.mul_comm]
    _ ≤ 10 ^ (93 * x) := Nat.pow_le_pow_right (by decide) hexponent
    _ = (10 ^ 93) ^ x := by rw [Nat.pow_mul]
    _ ≤ (2 ^ 309) ^ x := Nat.pow_le_pow_left (by decide +kernel) x
    _ = (2 ^ x) ^ 309 := by rw [← Nat.pow_mul, ← Nat.pow_mul, Nat.mul_comm]

theorem two_pow_le {a y : Nat} (h : y * 30103 + 100000 ≤ a * 100000) (hy : y ≤ 1074) : 2 ^ y ≤ 10 ^ a := by
  have hexponent : 28 * y ≤ 93 * a := by omega
  refine (Nat.pow_le_pow_iff_left (by decide : 93 ≠ 0)).1 ?_
  calc (2 ^ y) ^ 93 = (2 ^ 93) ^ y := by rw [← Nat.pow_mul, ← Nat.pow_mul, Nat.mul_comm]
    _ ≤ (10 ^ 28) ^ y := Nat.pow_le_pow_left (by decide) y
    _ = 10 ^ (28 * y) := by rw [Nat.pow_mul]
    _ ≤ 10 ^ (93 * a) := Nat.pow_le_pow_right (by decide) hexponent
    _ = (10 ^ a) ^ 93 := by rw [← Nat.pow_mul, Nat.mul_comm]

theorem ten_zpow_le {x : Int} (h : p * 100000 ≤ x * 30103) (hlow : -1074 ≤ x) (hhigh : x ≤ 1023) :
    (10 : ℚ) ^ (p - 1) ≤ 2 ^ x := by
  by_cases hx : 0 ≤ x
  · obtain ⟨x, rfl⟩ := Int.eq_ofNat_of_zero_le hx
    by_cases hp : 0 ≤ p - 1
    · obtain ⟨a, ha⟩ := Int.eq_ofNat_of_zero_le hp
      rw [ha, zpow_natCast, zpow_natCast]
      have hle : 10 ^ a ≤ 2 ^ x := ten_pow_le (by omega) (by omega)
      exact_mod_cast hle
    · have hten : (10 : ℚ) ^ (p - 1) ≤ 1 := zpow_le_one_of_nonpos₀ (by norm_num) (by omega)
      have htwo : (1 : ℚ) ≤ 2 ^ (x : Int) := one_le_zpow₀ (by norm_num) hx
      exact hten.trans htwo
  · obtain ⟨y, rfl⟩ := Int.exists_eq_neg_ofNat (Int.le_of_lt (Int.not_le.1 hx))
    obtain ⟨a, ha⟩ := Int.exists_eq_neg_ofNat (a := p - 1) (by omega)
    have hle : 2 ^ y ≤ 10 ^ a := two_pow_le (by omega) (by omega)
    rw [ha, zpow_neg, zpow_neg, zpow_natCast, zpow_natCast]
    exact inv_anti₀ (by positivity) (by exact_mod_cast hle)

theorem significandAt_lt (m : Nat) : significandAt m < 2 ^ 53 := by
  unfold significandAt
  split <;> omega

theorem log2_quanta_lt (hfinite : isFinite b) (h0 : quanta b ≠ 0) : (quanta b).log2 < 2098 := by
  have hlt : (magnitudeBits b).toNat < infinityBits.toNat := by
    simpa [isFinite, UInt64.lt_iff_toNat_lt] using hfinite
  have hinf : infinityBits.toNat = 2047 * 2 ^ 52 := by decide
  obtain ⟨e, he⟩ : ∃ e, (magnitudeBits b).toNat / 2 ^ 52 - 1 = e := ⟨_, rfl⟩
  have hexponent : e ≤ 2045 := by omega
  have hlog : (quanta b).log2 < 53 + e := by
    refine (Nat.log2_lt h0).2 ?_
    rw [quanta_eq, quantaAt, stepAt, he, Nat.pow_add]
    exact Nat.mul_lt_mul_of_pos_right (significandAt_lt _) (Nat.two_pow_pos e)
  omega

theorem cast_unit : (unit : ℚ) = 2 ^ (1074 : Int) := by
  have hexponent : (1074 : Int) = (1074 : Nat) := rfl
  unfold unit
  rw [hexponent]
  generalize 1074 = n
  rw [Nat.pow_eq, Nat.cast_pow, Nat.cast_ofNat, zpow_natCast]

/-- The first digit of the magnitude is at the point or further on. -/
theorem le_pointOf (hfinite : isFinite b) (h0 : quanta b ≠ 0) : unit * 10 ^ (pointOf b - 1) ≤ (quanta b : ℚ) := by
  have hfrom : 2 ^ (quanta b).log2 ≤ quanta b := Nat.log2_self_le h0
  have hlog := log2_quanta_lt hfinite h0
  unfold pointOf
  generalize (quanta b).log2 = e at hfrom hlog
  generalize hp : ((e : Int) - 1074) * 30103 / 100000 = p
  dsimp only
  split
  · have hten : (10 : ℚ) ^ (p - 1) ≤ 2 ^ ((e : Int) - 1074) := ten_zpow_le (by omega) (by omega) (by omega)
    calc (unit * 10 ^ (p - 1) : ℚ) ≤ 2 ^ (1074 : Int) * 2 ^ ((e : Int) - 1074) := by
          rw [cast_unit]
          gcongr
      _ = 2 ^ e := by
          rw [← zpow_add₀ (by norm_num), add_sub_cancel, zpow_natCast]
      _ ≤ quanta b := by exact_mod_cast hfrom
  · next habove =>
    split
    · rw [add_sub_cancel_right]
      exact not_lt.1 fun hlt => habove (belowPower_iff.2 hlt)
    · next habove' =>
      rw [show p + 2 - 1 = p + 1 by ring]
      exact not_lt.1 fun hlt => habove' (belowPower_iff.2 hlt)

/-! ### Grids -/

theorem contains_of_onGrid? (h : onGrid? tie b k = some c) :
    (rounding b).contains (4 * c * (powerOfTen k).1) (powerOfTen k).2 := by
  unfold onGrid? at h
  dsimp only at h
  split at h
  · next hnear =>
    cases h
    exact (Bool.and_eq_true_iff.1 hnear).1
  · split at h
    · next hnear =>
      cases h
      exact hnear
    · cases h

/-- A point of a grid, as a number. -/
theorem holds_of_onGrid? (h : onGrid? tie b k = some c) : (rounding b).Holds (4 * unit * Decimal.value ⟨c, k⟩) := by
  obtain ⟨-, hd⟩ := powerOfTen_pos k
  have hcontains := (Rounding.contains_iff hd).1 (contains_of_onGrid? h)
  have hvalue : ((4 * c * (powerOfTen k).1 : ℕ) / (powerOfTen k).2 : ℚ) = 4 * unit * Decimal.value ⟨c, k⟩ := by
    push_cast
    rw [mul_div_assoc, powerOfTen_div, Decimal.value]
    ring
  rwa [hvalue] at hcontains

theorem Rounding.contains_of_lt {r : Rounding} (hlow : r.low * d < n) (hhigh : n < r.high * d) : r.contains n d := by
  unfold contains
  split <;> simp only [Bool.and_eq_true, decide_eq_true_eq] <;> omega

/-- The points of a grid with seventeen digits lie closer together than half of what rounds to the word from below. -/
theorem grid_lt (hn : 0 < n) (hgrid : 10 ^ 16 * n ≤ quanta b * d) : 2 * n < reachBelow b * d := by
  rw [quanta_eq, quantaAt, Nat.mul_assoc] at hgrid
  unfold reachBelow
  split
  · next hlowest =>
    rw [← significand_eq, hlowest.1] at hgrid
    omega
  · have hle := hgrid.trans (Nat.mul_le_mul_right _ (significandAt_lt (magnitudeBits b).toNat).le)
    rw [Nat.mul_assoc]
    omega

/-- Of the two neighbours of the magnitude on such a grid, the nearer one rounds to the word. -/
theorem contains_neighbour (hn : 0 < n) (hgrid : 10 ^ 16 * n ≤ quanta b * d) :
    (rounding b).contains (4 * (quanta b * d / n) * n) d ∨
      (rounding b).contains (4 * (quanta b * d / n + 1) * n) d := by
  have hbelow := grid_lt hn hgrid
  have habove := hbelow.trans_le (Nat.mul_le_mul_right d (reachBelow_le b))
  have hdivision := Nat.div_add_mod (quanta b * d) n
  have hrest := Nat.mod_lt (quanta b * d) hn
  have hlow : (rounding b).low * d = 4 * (quanta b * d) - reachBelow b * d := by
    rw [low_rounding, Nat.sub_mul, Nat.mul_assoc]
  have hhigh : (rounding b).high * d = 4 * (quanta b * d) + 2 * stepAt (magnitudeBits b).toNat * d := by
    rw [high_rounding, halfwayAt, ← quanta_eq]
    ring
  have hpoint : 4 * (quanta b * d / n) * n = 4 * (n * (quanta b * d / n)) := by ring
  have hnext : 4 * (quanta b * d / n + 1) * n = 4 * (n * (quanta b * d / n)) + 4 * n := by ring
  rcases Nat.le_total (2 * (quanta b * d % n)) n with hnear | hnear
  · left
    apply Rounding.contains_of_lt <;> omega
  · right
    apply Rounding.contains_of_lt <;> omega

theorem onGrid?_isSome (hgrid : 10 ^ 16 * (powerOfTen k).1 ≤ quanta b * (powerOfTen k).2) :
    (onGrid? tie b k).isSome := by
  obtain ⟨hn, -⟩ := powerOfTen_pos k
  have hneighbour := contains_neighbour hn hgrid
  unfold onGrid?
  dsimp only
  split
  · rfl
  · split
    · rfl
    · next hlower hupper =>
      rcases hneighbour with hneighbour | hneighbour
      · exact absurd (by simp only [hneighbour, hupper]; simp) hlower
      · exact absurd hneighbour hupper

/-- A grid with seventeen digits has a point that rounds to the word. -/
theorem onGrid?_finest (hfinite : isFinite b) (h0 : quanta b ≠ 0) : (onGrid? tie b (pointOf b - 17)).isSome := by
  obtain ⟨-, hd⟩ := powerOfTen_pos (pointOf b - 17)
  have hd : (0 : ℚ) < (powerOfTen (pointOf b - 17)).2 := Nat.cast_pos.2 hd
  refine onGrid?_isSome ?_
  have hten : (10 : ℚ) ^ (pointOf b - 1) = 10 ^ 16 * 10 ^ (pointOf b - 17) := by
    rw [← zpow_natCast, ← zpow_add₀ (by norm_num)]
    congr 1
    omega
  have hle : (10 ^ 16 * (powerOfTen (pointOf b - 17)).1 : ℚ) / (powerOfTen (pointOf b - 17)).2 ≤ quanta b := by
    calc (10 ^ 16 * (powerOfTen (pointOf b - 17)).1 : ℚ) / (powerOfTen (pointOf b - 17)).2
        = unit * 10 ^ (pointOf b - 1) := by
          rw [mul_div_assoc, powerOfTen_div, hten]
          ring
      _ ≤ quanta b := le_pointOf hfinite h0
  rw [div_le_iff₀ hd] at hle
  exact_mod_cast hle

/-! ### The search -/

theorem holds_searchGrid {point : Int} {m finer : Nat} (h : (onGrid? tie b (point - (m + finer : Nat))).isSome) :
    (rounding b).Holds (4 * unit * (searchGrid tie b point m finer).value) := by
  induction finer generalizing m with
  | zero =>
    obtain ⟨c, hc⟩ := Option.isSome_iff_exists.1 h
    unfold searchGrid
    exact hc ▸ holds_of_onGrid? hc
  | succ finer ih =>
    unfold searchGrid
    split
    · next hc => exact holds_of_onGrid? hc
    · exact ih (by rwa [Nat.add_right_comm])

/-- The shortest decimal that is found for a word rounds to it. -/
theorem holds_shortest (hfinite : isFinite b) (h0 : quanta b ≠ 0) :
    (rounding b).Holds (4 * unit * (shortest tie b).value) :=
  holds_searchGrid (onGrid?_finest hfinite h0)

end Binary64

end Linefold
