import Mathlib.Algebra.Order.Field.Power
import MiniLox.Proofs.Numeric.Digits
import MiniLox.Proofs.Numeric.Values

/-!
# Significant digits

The significant digits of a text are its digits without the zeros at both ends.  In positional
form a decimal shows those of its coefficient.

A decimal of some significant digits is on the grid of the decimals of so many digits, which the
two neighbours of a number belong to.  So no such decimal is strictly between the number and a
neighbour.
-/

namespace MiniLox

open Numeric

namespace Decimal

variable {digits text : List Char} {k n : Nat} {d : Decimal}

/-! ## Digits without zeros at the ends -/

/-- The digits of a text without the zeros at both ends. -/
def significant (text : List Char) : List Char :=
  stripZeros ((text.filter Char.isDigit).dropWhile (· == '0'))

/-- The number of significant digits of a decimal. -/
def precision (d : Decimal) : Nat := (significant (Nat.toDigits 10 d.coefficient)).length

theorem stripZeros_append_zeros (digits : List Char) (zeros : Nat) :
    stripZeros (digits ++ List.replicate zeros '0') = stripZeros digits := by
  rw [stripZeros, stripZeros, List.reverse_append, List.reverse_replicate,
    List.dropWhile_append_of_pos]
  simp

theorem filter_isDigit_zeros (zeros : Nat) :
    (List.replicate zeros '0').filter Char.isDigit = List.replicate zeros '0' :=
  List.filter_eq_self.mpr isDigit_replicate_zero

/-- Zeros at the end are not significant. -/
theorem significant_append_zeros (text : List Char) (zeros : Nat) :
    significant (text ++ List.replicate zeros '0') = significant text := by
  rw [significant, List.filter_append, filter_isDigit_zeros, List.dropWhile_append]
  split
  · next h =>
    have hnone : (List.replicate zeros '0').dropWhile (· == '0') = [] := by simp
    rw [hnone, significant, List.isEmpty_iff.mp h]
  · rw [stripZeros_append_zeros]
    rfl

/-- Zeros in front are not significant. -/
theorem significant_zeros_append (zeros : Nat) (text : List Char) :
    significant (List.replicate zeros '0' ++ text) = significant text := by
  rw [significant, List.filter_append, filter_isDigit_zeros, List.dropWhile_append_of_pos]
  · rfl
  · simp

theorem significant_toDigits (hn : n ≠ 0) :
    significant (Nat.toDigits 10 n) = stripZeros (Nat.toDigits 10 n) := by
  obtain ⟨first, others, hfirst, hne⟩ := exists_toDigits_eq_cons hn
  rw [significant, List.filter_eq_self.mpr (isDigit_toDigits n), hfirst]
  simp [hne]

/-- What is behind and in front of the point are the digits of the coefficient, and zeros. -/
theorem exists_split_append_eq (hcoefficient : d.coefficient ≠ 0) :
    ∃ front back, d.split.1 ++ d.split.2 =
      List.replicate front '0' ++ (Nat.toDigits 10 d.coefficient ++ List.replicate back '0') := by
  rw [split]
  dsimp only
  split
  · exact ⟨0, d.exponent.toNat, by simp⟩
  · refine ⟨(-d.exponent).toNat + 1 - (Nat.toDigits 10 d.coefficient).length, 0, ?_⟩
    simp [List.take_append_drop]

/-- In positional form a decimal shows the significant digits of its coefficient. -/
theorem significant_positional (hcoefficient : d.coefficient ≠ 0) :
    significant d.positional.toList = significant (Nat.toDigits 10 d.coefficient) := by
  obtain ⟨front, back, happend⟩ := exists_split_append_eq hcoefficient
  obtain ⟨zeros, hzeros⟩ := exists_eq_stripZeros_append d.split.2
  have htext : d.positional.toList.filter Char.isDigit =
      (d.split.1 ++ stripZeros d.split.2).filter Char.isDigit := by
    rw [positional, String.toList_ofList]
    by_cases hempty : (stripZeros d.split.2).isEmpty
    · simp [List.isEmpty_iff.mp hempty]
    · simp [hempty]
  calc significant d.positional.toList
      = significant (d.split.1 ++ stripZeros d.split.2) := by
        rw [significant, htext, significant]
    _ = significant (d.split.1 ++ d.split.2) := by
        rw [← significant_append_zeros _ zeros, List.append_assoc, ← hzeros]
    _ = significant (Nat.toDigits 10 d.coefficient) := by
        rw [happend, significant_zeros_append, significant_append_zeros]

theorem toDigits_mul_pow (hn : 0 < n) (zeros : Nat) :
    Nat.toDigits 10 (n * 10 ^ zeros) = Nat.toDigits 10 n ++ List.replicate zeros '0' := by
  induction zeros with
  | zero => simp
  | succ zeros ih =>
      have hpositive : 0 < n * 10 ^ zeros := Nat.mul_pos hn (Nat.pow_pos (by decide))
      have happend : Nat.toDigits 10 (n * 10 ^ zeros) ++ Nat.toDigits 10 0 =
          Nat.toDigits 10 (10 * (n * 10 ^ zeros) + 0) :=
        Nat.toDigits_append_toDigits (by decide) hpositive (by decide)
      have hproduct : n * 10 ^ (zeros + 1) = 10 * (n * 10 ^ zeros) + 0 := by
        rw [Nat.pow_succ']
        ring
      rw [hproduct, ← happend, ih, List.append_assoc, Nat.toDigits_zero, List.replicate_succ']

/-- A coefficient of at most so many digits, or the next power of ten, has no more significant
digits. -/
theorem precision_le (hcoefficient : d.coefficient ≠ 0) (hk : 0 < k)
    (hle : d.coefficient ≤ 10 ^ k) : d.precision ≤ k := by
  have hlength : ∀ digits, (stripZeros digits).length ≤ digits.length := by
    intro digits
    obtain ⟨zeros, hzeros⟩ := exists_eq_stripZeros_append digits
    calc (stripZeros digits).length
        ≤ (stripZeros digits ++ List.replicate zeros '0').length := by simp
      _ = digits.length := by rw [← hzeros]
  rw [precision, significant_toDigits hcoefficient]
  rcases hle.lt_or_eq with hlt | heq
  · exact (hlength _).trans ((Nat.length_toDigits_le_iff (by decide) hk).mpr hlt)
  · rw [heq, ← Nat.one_mul (10 ^ k), toDigits_mul_pow Nat.one_pos, stripZeros_append_zeros]
    exact (hlength _).trans ((Nat.length_toDigits_le_iff (by decide) hk).mpr
      (Nat.one_lt_pow (by omega) (by decide)))

/-- A coefficient is one of the significant digits and a power of ten. -/
theorem exists_coefficient_eq (hcoefficient : d.coefficient ≠ 0) :
    ∃ c zeros, d.coefficient = c * 10 ^ zeros ∧ c < 10 ^ d.precision := by
  have hvalue : Nat.ofDigitChars 10 (Nat.toDigits 10 d.coefficient) 0 = d.coefficient :=
    Nat.ofDigitChars_toDigits (by decide) (by decide)
  have hlt := lt_pow_digitCount d.coefficient
  obtain ⟨zeros, hzeros⟩ := exists_eq_stripZeros_append (Nat.toDigits 10 d.coefficient)
  have hproduct : d.coefficient =
      Nat.ofDigitChars 10 (stripZeros (Nat.toDigits 10 d.coefficient)) 0 * 10 ^ zeros := by
    rw [hzeros, Nat.ofDigitChars_append, Nat.ofDigitChars_replicate_zero, Nat.mul_comm] at hvalue
    exact hvalue.symm
  refine ⟨_, zeros, hproduct, ?_⟩
  rw [precision, significant_toDigits hcoefficient]
  rw [digitCount, hzeros, List.length_append, List.length_replicate, Nat.pow_add] at hlt
  apply Nat.lt_of_mul_lt_mul_right (a := 10 ^ zeros)
  rwa [← hproduct]

theorem precision_pos (hcoefficient : d.coefficient ≠ 0) : 0 < d.precision := by
  obtain ⟨c, zeros, hc, hlt⟩ := exists_coefficient_eq hcoefficient
  apply Nat.pos_of_ne_zero
  intro hzero
  rw [hzero, Nat.pow_zero, Nat.lt_one_iff] at hlt
  rw [hlt, Nat.zero_mul] at hc
  exact hcoefficient hc

/-! ## Values -/

/-- The value of a decimal. -/
def value (d : Decimal) : ℚ := d.num / d.den

theorem ten_zpow (z : ℤ) : (10 : ℚ) ^ z = 10 ^ z.toNat / 10 ^ (-z).toNat := by
  have hsplit : z = (z.toNat : ℤ) - ((-z).toNat : ℤ) := by omega
  conv_lhs => rw [hsplit]
  rw [zpow_sub₀ (by norm_num), zpow_natCast, zpow_natCast]

theorem value_eq (d : Decimal) : d.value = d.coefficient * 10 ^ d.exponent := by
  rw [value, num, den, ten_zpow]
  push_cast
  rw [mul_div_assoc]

theorem value_nonneg (d : Decimal) : 0 ≤ d.value := by
  rw [value]
  positivity

/-- A decimal is read by rounding its value twice. -/
theorem toSingle_toNumber (d : Decimal) (negative : Bool) :
    (d.toNumber negative).toSingle = Number.ofSingle negative (Format.twice d.value) := by
  rw [toNumber_eq, ← Number.ofRatio, Number.toSingle_ofRatio d.den_pos]
  rfl

/-! ## The grid of a number of digits -/

variable {num den : Nat}

/-- The exponent of the leading digit tells the powers of ten that a quotient is between. -/
theorem leadingExponent_spec (hnum : 0 < num) (hden : 0 < den) :
    (10 : ℚ) ^ leadingExponent num den ≤ num / den ∧
      (num / den : ℚ) < 10 ^ (leadingExponent num den + 1) := by
  have hden' : (0 : ℚ) < den := by exact_mod_cast hden
  constructor
  · have hle := pow_leadingExponent_le hnum hden
    rw [ten_zpow, div_le_div_iff₀ (by positivity) hden', mul_comm]
    exact_mod_cast hle
  · rw [leadingExponent]
    split
    · have hlt : num < 10 ^ digitCount (num / den) * den :=
        (Nat.div_lt_iff_lt_mul hden).mp (lt_pow_digitCount _)
      rw [sub_add_cancel, zpow_natCast, div_lt_iff₀ hden']
      exact_mod_cast hlt
    · next hless =>
      have hupper : 2 ≤ (den + num - 1) / num := (Nat.le_div_iff_mul_le hnum).mpr (by omega)
      have hdivide := Nat.div_mul_le_self (den + num - 1) num
      generalize (den + num - 1) / num = upper at hupper hdivide ⊢
      have hproduct : num * (upper - 1) < den := by
        rw [Nat.mul_sub_one, Nat.mul_comm]
        omega
      have hpow := pow_le_of_digitCount (show upper - 1 ≠ 0 by omega)
      have hcount : 0 < digitCount (upper - 1) := Nat.length_toDigits_pos
      have hexponent : -(digitCount (upper - 1) : ℤ) + 1 =
          -((digitCount (upper - 1) - 1 : ℕ) : ℤ) := by
        omega
      have hlt : num * 10 ^ (digitCount (upper - 1) - 1) < den :=
        (Nat.mul_le_mul_left num hpow).trans_lt hproduct
      rw [hexponent, zpow_neg, zpow_natCast, ← one_div, div_lt_div_iff₀ hden' (by positivity),
        one_mul]
      exact_mod_cast hlt

/-- A quotient as a multiple of the place of the last of its significant digits. -/
theorem lastExponent_spec (hnum : 0 < num) (hden : 0 < den) (hk : 0 < k) :
    (10 : ℚ) ^ (k - 1) * 10 ^ lastExponent num den k ≤ num / den ∧
      (num / den : ℚ) < 10 ^ k * 10 ^ lastExponent num den k := by
  obtain ⟨hlow, hhigh⟩ := leadingExponent_spec hnum hden
  have hlead : (10 : ℚ) ^ (k - 1) * 10 ^ lastExponent num den k = 10 ^ leadingExponent num den := by
    rw [← zpow_natCast, ← zpow_add₀ (by norm_num), lastExponent]
    congr 1
    omega
  have hnext : (10 : ℚ) ^ k * 10 ^ lastExponent num den k = 10 ^ (leadingExponent num den + 1) := by
    rw [← zpow_natCast, ← zpow_add₀ (by norm_num), lastExponent]
    congr 1
    omega
  rw [hlead, hnext]
  exact ⟨hlow, hhigh⟩

theorem scaled_quotient (num den : Nat) (last : ℤ) :
    ((num * 10 ^ (-last).toNat : ℕ) : ℚ) / (den * 10 ^ last.toNat : ℕ) =
      num / den / 10 ^ last := by
  rw [ten_zpow]
  push_cast
  field_simp

/-- The neighbours of a quotient are next to each other on the grid, and the quotient is between
them. -/
theorem exists_neighbours_eq (hnum : 0 < num) (hden : 0 < den) (hk : 0 < k) :
    ∃ below : Nat, neighbours num den k =
        (⟨below, lastExponent num den k⟩, ⟨below + 1, lastExponent num den k⟩) ∧
      10 ^ (k - 1) ≤ below ∧ below < 10 ^ k ∧
        below * 10 ^ lastExponent num den k ≤ (num / den : ℚ) ∧
          (num / den : ℚ) < (below + 1) * 10 ^ lastExponent num den k := by
  obtain ⟨hlow, hhigh⟩ := lastExponent_spec hnum hden hk
  refine ⟨_, rfl, ?_⟩
  have hquotient := scaled_quotient num den (lastExponent num den k)
  have hpositive : 0 < den * 10 ^ (lastExponent num den k).toNat :=
    Nat.mul_pos hden (Nat.pow_pos (by decide))
  have hpower : (0 : ℚ) < 10 ^ lastExponent num den k := by positivity
  generalize lastExponent num den k = last at *
  generalize num * 10 ^ (-last).toNat = scaled at *
  generalize den * 10 ^ last.toNat = step at *
  have hstep : (0 : ℚ) < step := by exact_mod_cast hpositive
  rw [← le_div_iff₀ hpower, ← hquotient] at hlow ⊢
  rw [← div_lt_iff₀ hpower, ← hquotient] at hhigh ⊢
  rw [le_div_iff₀ hstep, div_lt_iff₀ hstep] at *
  refine ⟨?_, ?_, ?_, ?_⟩
  · rw [Nat.le_div_iff_mul_le hpositive]
    exact_mod_cast hlow
  · rw [Nat.div_lt_iff_lt_mul hpositive]
    exact_mod_cast hhigh
  · exact_mod_cast Nat.div_mul_le_self scaled step
  · exact_mod_cast Nat.lt_mul_of_div_lt (Nat.lt_succ_self _) hpositive

/-- No decimal of so many significant digits is strictly between a quotient and a neighbour. -/
theorem le_or_le_of_precision (hnum : 0 < num) (hden : 0 < den) (hk : 0 < k)
    (hd : d.precision ≤ k) (hcoefficient : d.coefficient ≠ 0) :
    d.value ≤ (neighbours num den k).1.value ∨ (neighbours num den k).2.value ≤ d.value := by
  obtain ⟨below, hneighbours, hlow, -, -, -⟩ := exists_neighbours_eq hnum hden hk
  obtain ⟨c, zeros, hc, hlt⟩ := exists_coefficient_eq hcoefficient
  have hvalue : d.value = c * 10 ^ (d.exponent + zeros) := by
    rw [value_eq, hc, zpow_add₀ (by norm_num), zpow_natCast]
    push_cast
    ring
  rw [hneighbours, hvalue, value_eq, value_eq]
  dsimp only
  generalize lastExponent num den k = last
  have hpower : (0 : ℚ) < 10 ^ last := by positivity
  rcases le_or_gt last (d.exponent + zeros) with hle | hgt
  · -- The decimal is on the grid.
    obtain ⟨j, hj⟩ := Int.exists_add_of_le hle
    rw [hj, zpow_add₀ (by norm_num), zpow_natCast, mul_comm (10 ^ last), ← mul_assoc,
      mul_le_mul_iff_left₀ hpower, mul_le_mul_iff_left₀ hpower]
    rcases Nat.lt_or_ge below (c * 10 ^ j) with h | h
    · exact Or.inr (by exact_mod_cast h)
    · exact Or.inl (by exact_mod_cast h)
  · -- The decimal is so small that all of its digits are below the grid.
    left
    have hdigits : (c : ℚ) ≤ 10 ^ k := by
      exact_mod_cast hlt.le.trans (Nat.pow_le_pow_right (by decide) hd)
    have hbelow : (10 : ℚ) ^ (k - 1) ≤ below := by exact_mod_cast hlow
    calc (c : ℚ) * 10 ^ (d.exponent + zeros) ≤ 10 ^ k * 10 ^ (last - 1) := by
          apply mul_le_mul hdigits _ (by positivity) (by positivity)
          exact zpow_le_zpow_right₀ (by norm_num) (by omega)
      _ = 10 ^ (k - 1) * 10 ^ last := by
          rw [← zpow_natCast, ← zpow_natCast, ← zpow_add₀ (by norm_num), ← zpow_add₀ (by norm_num)]
          congr 1
          omega
      _ ≤ below * 10 ^ last := mul_le_mul_of_nonneg_right hbelow hpower.le

/-- The quotient rounded to a number of digits is a neighbour, and no farther than the other. -/
theorem roundQuotient_nearest (num : Nat) (hden : 0 < den) (k : Nat) :
    (roundQuotient num den k = (neighbours num den k).1 ∧
        2 * (num / den : ℚ) ≤ (neighbours num den k).1.value + (neighbours num den k).2.value) ∨
      (roundQuotient num den k = (neighbours num den k).2 ∧
        (neighbours num den k).1.value + (neighbours num den k).2.value ≤ 2 * (num / den : ℚ)) := by
  have hquotient := scaled_quotient num den (lastExponent num den k)
  have hpositive : 0 < den * 10 ^ (lastExponent num den k).toNat :=
    Nat.mul_pos hden (Nat.pow_pos (by decide))
  rw [roundQuotient, neighbours]
  dsimp only
  rw [value_eq, value_eq]
  dsimp only
  generalize lastExponent num den k = last at *
  generalize num * 10 ^ (-last).toNat = scaled at *
  generalize den * 10 ^ last.toNat = step at *
  have hpower : (0 : ℚ) < 10 ^ last := by positivity
  have hstep : (0 : ℚ) < step := by exact_mod_cast hpositive
  have hdivide := Nat.div_add_mod scaled step
  have hscaled : 2 * (num / den : ℚ) = 2 * scaled / step * 10 ^ last := by
    rw [mul_div_assoc, hquotient]
    field_simp
  have hsum : ((scaled / step : ℕ) * 10 ^ last + (scaled / step + 1 : ℕ) * 10 ^ last : ℚ) =
      (2 * (scaled / step) + 1 : ℕ) * 10 ^ last := by
    push_cast
    ring
  rw [hscaled, hsum, mul_le_mul_iff_left₀ hpower, mul_le_mul_iff_left₀ hpower, div_le_iff₀ hstep,
    le_div_iff₀ hstep, nearestEven]
  split
  · left
    have hle : 2 * scaled ≤ (2 * (scaled / step) + 1) * step := by
      rw [Nat.add_mul, Nat.one_mul, Nat.mul_assoc, Nat.mul_comm (scaled / step)]
      omega
    exact ⟨rfl, by exact_mod_cast hle⟩
  · right
    have hle : (2 * (scaled / step) + 1) * step ≤ 2 * scaled := by
      rw [Nat.add_mul, Nat.one_mul, Nat.mul_assoc, Nat.mul_comm (scaled / step)]
      omega
    exact ⟨rfl, by exact_mod_cast hle⟩

end Decimal

end MiniLox
