import Linefold.Proofs.Numbers.Shortest

/-!
# Different numbers have different texts

The text of a finite magnitude is read back as a decimal that rounds to it (`Number.readDecimal?_magnitudeText`):
writing the digits around the point keeps their value, and the digits are those of the magnitude itself or of the
shortest decimal. A decimal rounds to one magnitude at most, so the text tells the number (`Number.chars_injective`).
-/

namespace Linefold

/-- A run of characters of a class is cut off where the next character is not of the class. -/
theorem takeWhile_dropWhile_append {p : Char → Bool} {u r : List Char} (hu : ∀ c ∈ u, p c)
    (hr : ∀ c ∈ r.head?, p c = false) : (u ++ r).takeWhile p = u ∧ (u ++ r).dropWhile p = r := by
  rw [List.takeWhile_append_of_pos hu, List.dropWhile_append_of_pos hu]
  cases r with
  | nil => exact ⟨List.append_nil u, rfl⟩
  | cons c r =>
    have hc : ¬ p c := by simp [hr c rfl]
    rw [List.takeWhile_cons_of_neg hc, List.dropWhile_cons_of_neg hc]
    exact ⟨List.append_nil u, rfl⟩

/-! ### Digits -/

namespace Number

variable {ds es : List Char} {n : Nat}

theorem digitsValue_eq (ds : List Char) : digitsValue ds = Nat.ofDigitChars 10 ds 0 := Nat.ofDigitChars_eq_foldl.symm

theorem digitsValue_toDigits (n : Nat) : digitsValue (Nat.toDigits 10 n) = n := by
  rw [digitsValue_eq, Nat.ofDigitChars_ten_toDigits]

theorem digitsValue_append_zeros (ds : List Char) (n : Nat) :
    digitsValue (ds ++ List.replicate n '0') = digitsValue ds * 10 ^ n := by
  rw [digitsValue_eq, Nat.ofDigitChars_append, Nat.ofDigitChars_replicate_zero, Nat.mul_comm, digitsValue_eq]

theorem digitsValue_zeros_append (ds : List Char) (n : Nat) :
    digitsValue (List.replicate n '0' ++ ds) = digitsValue ds := by
  rw [digitsValue_eq, Nat.ofDigitChars_append, Nat.ofDigitChars_replicate_zero, Nat.mul_zero, digitsValue_eq]

theorem isDigit_toDigits : ∀ c ∈ Nat.toDigits 10 n, c.isDigit := fun _ hc =>
  Nat.isDigit_of_mem_toDigits (by decide) (by decide) hc

theorem isDigit_zeros : ∀ c ∈ List.replicate n '0', c.isDigit := fun c hc => by
  rw [List.eq_of_mem_replicate hc]
  rfl

/-- Digits without a point are a whole number. -/
theorem readDecimal?_digits (hds : ∀ c ∈ ds, c.isDigit) (hne : ds ≠ []) :
    readDecimal? ds = some ⟨digitsValue ds, 0⟩ := by
  obtain ⟨htake, hdrop⟩ := takeWhile_dropWhile_append (r := []) hds (by simp)
  rw [List.append_nil] at htake hdrop
  unfold readDecimal?
  simp only [htake, hdrop]
  simp [hne]

/-- Every digit after the point is worth a tenth of the one before it. -/
theorem readDecimal?_point (hds : ∀ c ∈ ds, c.isDigit) (hes : ∀ c ∈ es, c.isDigit) (hne : ds ≠ []) :
    readDecimal? (ds ++ '.' :: es) = some ⟨digitsValue (ds ++ es), -(es.length : Int)⟩ := by
  obtain ⟨htake, hdrop⟩ := takeWhile_dropWhile_append (r := '.' :: es) hds (by simp)
  obtain ⟨htake', hdrop'⟩ := takeWhile_dropWhile_append (r := []) hes (by simp)
  rw [List.append_nil] at htake' hdrop'
  unfold readDecimal?
  simp only [htake, hdrop, htake', hdrop']
  simp [hne]

end Number

/-! ### Digits around a point -/

namespace Decimal

open Number

variable {ds : List Char} {point : Int}

/-- The digits of a decimal without the zeros at their end, and how many zeros there were. -/
theorem dropZeros_eq (ds : List Char) : (dropZeros ds).1.reverse ++ List.replicate (dropZeros ds).2 '0' = ds.reverse := by
  fun_induction dropZeros ds with
  | case1 ds ih => rw [List.reverse_cons, ← ih, List.append_assoc, List.replicate_succ']
  | case2 ds => simp

theorem value_digits (d : Decimal) :
    digitsValue d.digits.1 * 10 ^ (d.digits.2 - d.digits.1.length) = d.value := by
  have hdigits := dropZeros_eq (Nat.toDigits 10 d.coefficient).reverse
  have hcoefficient := digitsValue_toDigits d.coefficient
  unfold digits value
  dsimp only
  rw [List.reverse_reverse] at hdigits
  generalize dropZeros (Nat.toDigits 10 d.coefficient).reverse = z at *
  rw [← hdigits, digitsValue_append_zeros] at hcoefficient
  have hexponent : d.exponent + (z.1.length + z.2) - z.1.length = z.2 + d.exponent := by omega
  rw [List.length_reverse, hexponent, zpow_add₀ (by norm_num), zpow_natCast, ← mul_assoc, ← hcoefficient, Nat.cast_mul,
    Nat.cast_pow, Nat.cast_ofNat]

theorem isDigit_digits (d : Decimal) : ∀ c ∈ d.digits.1, c.isDigit := by
  intro c hc
  have hdigits := dropZeros_eq (Nat.toDigits 10 d.coefficient).reverse
  rw [List.reverse_reverse] at hdigits
  exact isDigit_toDigits c (hdigits ▸ List.mem_append_left _ hc)

/-- Written around their point, digits are read back with the value that the point gives them. -/
theorem readDecimal?_positional (hds : ∀ c ∈ ds, c.isDigit) (point : Int) :
    ∃ d, readDecimal? (positional ds point) = some d ∧ d.value = digitsValue ds * 10 ^ (point - ds.length) := by
  unfold positional
  split
  · next hpoint =>
    refine ⟨_, @readDecimal?_point ['0'] _ (by simp) ?_ (by simp), ?_⟩
    · intro c hc
      exact (List.mem_append.1 hc).elim (isDigit_zeros c) (hds c)
    · have hzeros := digitsValue_zeros_append ds ((-point).toNat + 1)
      rw [List.replicate_succ, List.cons_append] at hzeros
      rw [value, List.singleton_append, hzeros, List.length_append, List.length_replicate]
      congr 2
      dsimp only
      omega
  · next hpoint =>
    split
    · next hwhole =>
      refine ⟨_, readDecimal?_digits ?_ ?_, ?_⟩
      · intro c hc
        exact (List.mem_append.1 hc).elim (hds c) (isDigit_zeros c)
      · refine List.ne_nil_of_length_pos ?_
        rw [List.length_append, List.length_replicate]
        omega
      · have hexponent : point - ds.length = (point.toNat - ds.length : Nat) := by omega
        rw [value, digitsValue_append_zeros, zpow_zero, mul_one, hexponent, zpow_natCast, Nat.cast_mul, Nat.cast_pow,
          Nat.cast_ofNat]
    · next hpart =>
      refine ⟨_, readDecimal?_point (fun c hc => hds c (List.mem_of_mem_take hc))
        (fun c hc => hds c (List.mem_of_mem_drop hc)) ?_, ?_⟩
      · refine List.ne_nil_of_length_pos ?_
        rw [List.length_take]
        omega
      · rw [value, List.take_append_drop, List.length_drop]
        congr 2
        dsimp only
        omega

/-- Only digits and points are written. -/
theorem mem_positional (hds : ∀ c ∈ ds, c.isDigit) : ∀ c ∈ positional ds point, c.isDigit ∨ c = '.' := by
  intro c hc
  unfold positional at hc
  split at hc
  · rcases List.mem_cons.1 hc with rfl | hc
    · exact .inl rfl
    rcases List.mem_cons.1 hc with rfl | hc
    · exact .inr rfl
    · exact .inl ((List.mem_append.1 hc).elim (isDigit_zeros c) (hds c))
  · split at hc
    · exact .inl ((List.mem_append.1 hc).elim (hds c) (isDigit_zeros c))
    · rcases List.mem_append.1 hc with hc | hc
      · exact .inl (hds c (List.mem_of_mem_take hc))
      rcases List.mem_cons.1 hc with rfl | hc
      · exact .inr rfl
      · exact .inl (hds c (List.mem_of_mem_drop hc))

end Decimal

/-! ### Numbers -/

namespace Number

open Binary64

variable {x y : Number}

/-- The text of a finite magnitude is read back as a decimal that rounds to the magnitude. -/
theorem readDecimal?_magnitudeText (hfinite : x.isFinite) :
    ∃ d, readDecimal? x.magnitudeText = some d ∧ (rounding x.bits).Holds (4 * unit * d.value) := by
  unfold magnitudeText
  dsimp only
  split
  · next hwhole =>
    refine ⟨_, readDecimal?_digits isDigit_toDigits Nat.toDigits_ne_nil, ?_⟩
    have hquanta : quanta x.bits = unit * (quanta x.bits / unit) :=
      (Nat.mul_div_cancel' (Nat.dvd_of_mod_eq_zero hwhole.1)).symm
    have hholds := holds_quanta x.bits
    rw [hquanta, Nat.cast_mul, ← mul_assoc] at hholds
    rw [Decimal.value, digitsValue_toDigits, zpow_zero, mul_one]
    exact hholds
  · next hwhole =>
    have h0 : quanta x.bits ≠ 0 := fun h0 => hwhole (by simp [h0])
    obtain ⟨d, hread, hvalue⟩ := Decimal.readDecimal?_positional (Decimal.isDigit_digits (shortest .up x.bits))
      (shortest .up x.bits).digits.2
    refine ⟨d, hread, ?_⟩
    rw [hvalue, Decimal.value_digits]
    exact holds_shortest hfinite h0

theorem mem_magnitudeText : ∀ c ∈ x.magnitudeText, c.isDigit ∨ c = '.' := by
  unfold magnitudeText
  dsimp only
  split
  · exact fun c hc => .inl (isDigit_toDigits c hc)
  · exact Decimal.mem_positional (Decimal.isDigit_digits _)

theorem magnitudeText_ne_nil (hfinite : x.isFinite) : x.magnitudeText ≠ [] := by
  intro hnil
  obtain ⟨d, hread, -⟩ := readDecimal?_magnitudeText hfinite
  rw [hnil] at hread
  cases hread

theorem chars_of_isFinite (hfinite : x.isFinite) :
    x.chars = if x.isNegative then '-' :: x.magnitudeText else x.magnitudeText := by
  have hnan : x.isNaN = false := by
    simp only [isFinite, Binary64.isFinite, isNaN, Binary64.isNaN, decide_eq_true_eq, decide_eq_false_iff_not,
      UInt64.lt_iff_toNat_lt] at hfinite ⊢
    omega
  simp only [chars, hnan, hfinite, Bool.false_eq_true, ↓reduceIte]

theorem chars_of_not_isFinite (h : ¬ x.isFinite) :
    x.chars = "NaN".toList ∨ x.chars = "Infinity".toList ∨ x.chars = "-Infinity".toList := by
  rcases eq_of_not_isFinite h with rfl | rfl | rfl
  · exact .inl (by decide +kernel)
  · exact .inr (.inl (by decide +kernel))
  · exact .inr (.inr (by decide +kernel))

/-- The characters that finite numbers are written with. -/
def isNumeral (c : Char) : Bool := c.isDigit || c = '.' || c = '-'

theorem isNumeral_chars (hfinite : x.isFinite) : x.chars.all isNumeral := by
  have hmagnitude : ∀ c ∈ x.magnitudeText, isNumeral c := by
    intro c hc
    rcases mem_magnitudeText c hc with hdigit | rfl
    · simp [isNumeral, hdigit]
    · rfl
  rw [chars_of_isFinite hfinite]
  split
  · exact List.all_eq_true.2 (List.forall_mem_cons.2 ⟨rfl, hmagnitude⟩)
  · exact List.all_eq_true.2 hmagnitude

theorem chars_ne_nil : x.chars ≠ [] := by
  by_cases hfinite : x.isFinite
  · rw [chars_of_isFinite hfinite]
    split
    · exact List.cons_ne_nil _ _
    · exact magnitudeText_ne_nil hfinite
  · rcases chars_of_not_isFinite hfinite with h | h | h <;> rw [h] <;> decide

/-- A number that is not finite is written with letters. -/
theorem isFinite_of_chars_eq (hfinite : x.isFinite) (h : x.chars = y.chars) : y.isFinite := by
  by_contra hy
  have hnumeral := isNumeral_chars hfinite
  rw [h] at hnumeral
  rcases chars_of_not_isFinite hy with hy | hy | hy <;> rw [hy] at hnumeral <;> exact absurd hnumeral (by decide)

theorem magnitudeBits_of_magnitudeText (hx : x.isFinite) (hy : y.isFinite) (h : x.magnitudeText = y.magnitudeText) :
    magnitudeBits x.bits = magnitudeBits y.bits := by
  obtain ⟨d, hread, hholds⟩ := readDecimal?_magnitudeText hx
  obtain ⟨e, hread', hholds'⟩ := readDecimal?_magnitudeText hy
  rw [h, hread'] at hread
  cases hread
  exact hholds.unique hholds'

/-- The sign of a finite number is the first character of its text. -/
theorem isNegative_iff_head? (hfinite : x.isFinite) : x.isNegative ↔ x.chars.head? = some '-' := by
  rw [chars_of_isFinite hfinite]
  split
  · next hneg => simp [hneg]
  · next hneg =>
    refine iff_of_false hneg fun hhead => ?_
    have hdash := mem_magnitudeText _ (List.mem_of_head? hhead)
    revert hdash
    decide

theorem chars_injective (h : x.chars = y.chars) : x = y := by
  by_cases hx : x.isFinite
  · have hy := isFinite_of_chars_eq hx h
    have hsign : x.isNegative = y.isNegative := by
      rw [Bool.eq_iff_iff, isNegative_iff_head? hx, isNegative_iff_head? hy, h]
    have hmagnitude : x.magnitudeText = y.magnitudeText := by
      rw [chars_of_isFinite hx, chars_of_isFinite hy, hsign] at h
      split at h
      · exact (List.cons.inj h).2
      · exact h
    have hbits : x.bits = y.bits := by
      rw [← withSign_magnitudeBits x.bits, ← withSign_magnitudeBits y.bits,
        magnitudeBits_of_magnitudeText hx hy hmagnitude]
      exact congrArg (withSign · (magnitudeBits y.bits)) hsign
    rw [← ofBits_bits x, ← ofBits_bits y, hbits]
  · have hy : ¬ y.isFinite := fun hy => hx (isFinite_of_chars_eq hy h.symm)
    rw [← ofText_text hx, ← ofText_text hy, text, text, h]

end Number

end Linefold
