import MiniLox.Proofs.Numeric.Nearest

/-!
# Rounding twice

Arithmetic and reading round to 64 bits first and then to 32.  The second rounding depends on
which side of the middles of the coarser format a number is, and these middles are numbers of the
finer one, so the first rounding takes no number across one of them.  It may take a number to one
of them, though, and only then may the two roundings differ from one.

A quotient of whole numbers of few digits is not taken there, because it cannot be close to a
middle without being equal to it.  Nor is a number taken there that is close to a number of 32
bits.
-/

namespace MiniLox

namespace Numeric.Format

variable {f : Format} {c : Nat} {p q : ℚ}

/-! ## Numbers near a code -/

theorem IsMultiple.value_eq {exponent multiple : Nat} (h : IsMultiple f c exponent multiple) :
    f.value c = multiple * 2 ^ exponent / 2 ^ f.scale := by
  rw [value, h.units_eq, Nat.cast_mul, Nat.cast_pow, Nat.cast_ofNat]

theorem exists_value_eq (hprecision : 0 < f.precision) {multiple : Nat}
    (hmultiple : multiple < 2 ^ f.precision) (exponent : Nat) :
    ∃ c, f.value c = multiple * 2 ^ exponent / 2 ^ f.scale := by
  obtain ⟨c, hunits, -⟩ := exists_units_eq hprecision hmultiple exponent
  exact ⟨c, by rw [value, hunits]; push_cast; rfl⟩

/-- A number between two numbers of a format stays between them. -/
theorem value_code_mem {lower upper : Nat} (hprecision : 1 < f.precision)
    (hlower : f.value lower ≤ q) (hupper : q ≤ f.value upper) :
    f.value lower ≤ f.value (f.code q) ∧ f.value (f.code q) ≤ f.value upper := by
  have hmono : Monotone f.value := (value_strictMono (by omega)).monotone
  have hq : 0 ≤ q := (f.value_nonneg lower).trans hlower
  have hle := code_mono hprecision (f.value_nonneg lower) hlower
  have hge := code_mono hprecision hq hupper
  rw [code_value (by omega)] at hle hge
  exact ⟨hmono hle, hmono hge⟩

/-- A number is rounded to a code that it is near. -/
theorem code_of_near {near : Nat} (hprecision : 0 < f.precision) (hq : 0 ≤ q)
    (hnear : 2 ^ f.precision < near) (h : 2 * near * |q - f.value c| ≤ f.value c) :
    f.code q = c := by
  have habs := abs_eq_num_div_den q
  have hden : (0 : ℚ) < q.den := by exact_mod_cast q.den_pos
  have hunits : (f.units c : ℚ) = f.value c * 2 ^ f.scale := by
    rw [value]
    field_simp
  rw [abs_of_nonneg hq, eq_div_iff hden.ne'] at habs
  have hscaled : (0 : ℚ) ≤ q.den * 2 ^ f.scale := by positivity
  have hnonneg : (0 : ℚ) ≤ 2 * near := by positivity
  have hbelow : 2 * near * f.value c ≤ 2 * near * q + f.value c := by
    have hdistance := mul_le_mul_of_nonneg_left (neg_abs_le (q - f.value c)) hnonneg
    linarith
  have habove : 2 * near * q ≤ 2 * near * f.value c + f.value c := by
    have hdistance := mul_le_mul_of_nonneg_left (le_abs_self (q - f.value c)) hnonneg
    linarith
  rw [code]
  apply round_of_near hprecision q.den_pos hnear
  · have hcast := mul_le_mul_of_nonneg_right hbelow hscaled
    have hle : (2 * near * (f.units c * q.den) : ℚ) ≤
        2 * near * (q.num.natAbs * 2 ^ f.scale) + f.units c * q.den := by
      rw [hunits, ← habs]
      linarith
    exact_mod_cast hle
  · have hcast := mul_le_mul_of_nonneg_right habove hscaled
    have hle : (2 * near * (q.num.natAbs * 2 ^ f.scale) : ℚ) ≤
        2 * near * (f.units c * q.den) + f.units c * q.den := by
      rw [hunits, ← habs]
      linarith
    exact_mod_cast hle

/-- The step to the next code is small beside a number with all of its digits. -/
theorem step_le (hprecision : 0 < f.precision) (hlarge : 2 ^ (f.precision - 1) ≤ c) :
    2 ^ (f.precision - 1) * f.value (c + 1) ≤
      2 ^ (f.precision - 1) * f.value c + f.value c := by
  obtain ⟨exponent, multiple, h⟩ := exists_isMultiple hprecision c
  have hle : 2 ^ (f.precision - 1) ≤ multiple := by
    by_cases hexponent : exponent = 0
    · have hcode := h.code_eq
      rw [hexponent, Nat.zero_mul, Nat.zero_add] at hcode
      omega
    · exact h.le_multiple hexponent
  have hunits : 2 ^ (f.precision - 1) * f.units (c + 1) ≤
      2 ^ (f.precision - 1) * f.units c + f.units c := by
    have hsteps := Nat.mul_le_mul_right (2 ^ exponent) hle
    rw [h.units_succ hprecision, h.units_eq, Nat.succ_mul, Nat.mul_add]
    omega
  have hcast : (2 ^ (f.precision - 1) * f.units (c + 1) : ℚ) ≤
      2 ^ (f.precision - 1) * f.units c + f.units c := by
    exact_mod_cast hunits
  have hscale : (0 : ℚ) < 2 ^ f.scale := by positivity
  rw [value, value, mul_div_assoc', mul_div_assoc', ← add_div]
  exact div_le_div_of_nonneg_right hcast hscale.le

/-- A number is near the code that it is rounded to. -/
theorem near_code (hprecision : 1 < f.precision) (hq : 0 ≤ q)
    (hlarge : 2 ^ (f.precision - 1) < f.code q) :
    2 ^ f.precision * |q - f.value (f.code q)| ≤ f.value (f.code q) := by
  have hpositive : 0 < f.precision := by omega
  have hdouble : (2 : ℚ) ^ f.precision = 2 * 2 ^ (f.precision - 1) := by
    exact_mod_cast two_pow_precision hpositive
  have habove := le_middle_of_code_le hprecision hq (Nat.le_refl (f.code q))
  obtain ⟨before, hbefore⟩ := Nat.exists_eq_succ_of_ne_zero (Nat.ne_zero_of_lt hlarge)
  have hbelow := middle_le_of_lt_code hprecision hq (show before < f.code q by omega)
  have hstep := step_le hpositive hlarge.le
  have hstep' := step_le hpositive (show 2 ^ (f.precision - 1) ≤ before by omega)
  have hless := value_strictMono hpositive (Nat.lt_succ_self before)
  have hpower : (0 : ℚ) < 2 ^ (f.precision - 1) := by positivity
  rw [middle] at habove hbelow
  generalize f.code q = c at *
  subst hbefore
  have hgreatest := mul_le_mul_of_nonneg_left habove hpower.le
  have hleast := mul_le_mul_of_nonneg_left hbelow hpower.le
  rw [hdouble]
  rcases abs_cases (q - f.value (before + 1)) with ⟨habs, -⟩ | ⟨habs, -⟩ <;> rw [habs] <;> linarith

/-! ## Middles of the coarser format -/

/-- The code at 32 bits of what is rounded to 64 bits before. -/
def twice (q : ℚ) : Nat := single.code (double.value (double.code q))

theorem exists_middle_eq (c : Nat) :
    ∃ multiple exponent : Nat, single.middle c = (2 * multiple + 1) * 2 ^ exponent / 2 ^ 150 ∧
      multiple < 2 ^ 24 := by
  obtain ⟨exponent, multiple, h⟩ := exists_isMultiple (f := single) (by decide) c
  refine ⟨multiple, exponent, ?_, h.multiple_lt⟩
  rw [middle_eq, h.units_succ (by decide), h.units_eq]
  change ((_ : ℚ) + _) / (2 * 2 ^ 149) = _
  push_cast
  ring

/-- The numbers of 32 bits and their middles are numbers of 64 bits. -/
theorem exists_double_value_eq {multiple : Nat} (hmultiple : multiple < 2 ^ 53)
    (exponent : Nat) {scale : Nat} (hscale : scale ≤ 1074) :
    ∃ w, double.value w = multiple * 2 ^ exponent / 2 ^ scale := by
  obtain ⟨w, hw⟩ := exists_value_eq (f := double) (by decide) hmultiple
    (exponent + (1074 - scale))
  refine ⟨w, hw.trans ?_⟩
  change (_ : ℚ) / 2 ^ 1074 = _
  rw [div_eq_div_iff (by positivity) (by positivity), pow_add, mul_assoc, mul_assoc, mul_assoc,
    ← pow_add, Nat.sub_add_cancel hscale]

/-- Rounding twice is rounding once, unless it takes a number to a middle. -/
theorem twice_eq_code (hq : 0 ≤ q)
    (h : ∀ c, double.value (double.code q) = single.middle c → q = single.middle c) :
    twice q = single.code q := by
  refine eq_of_forall_lt_iff fun c => ?_
  obtain ⟨multiple, exponent, hmiddle, hmultiple⟩ := exists_middle_eq c
  have hdigits : 2 * multiple + 1 < 2 ^ 53 := by omega
  obtain ⟨w, hw⟩ := exists_double_value_eq hdigits exponent (show 150 ≤ 1074 by decide)
  have hmiddle : double.value w = single.middle c := by
    rw [hw, hmiddle]
    push_cast
    rfl
  have hmono : Monotone double.value := (value_strictMono (by decide)).monotone
  rw [twice, lt_code_iff (by decide) (value_nonneg _ _), lt_code_iff (by decide) hq, ← hmiddle]
  rcases lt_trichotomy q (double.value w) with hlt | rfl | hgt
  · have hle := code_mono (f := double) (by decide) hq hlt.le
    rw [code_value (by decide)] at hle
    have hbelow := (hmono hle).lt_of_ne fun heq =>
      hlt.ne ((h c (heq.trans hmiddle)).trans hmiddle.symm)
    simp [hbelow.not_gt, hlt.not_gt, hbelow.ne', hlt.ne']
  · rw [code_value (by decide)]
  · have hle := code_mono (f := double) (by decide) (value_nonneg _ _) hgt.le
    rw [code_value (by decide)] at hle
    have habove := (hmono hle).lt_of_ne fun heq =>
      hgt.ne' ((h c (heq.symm.trans hmiddle)).trans hmiddle.symm)
    simp [habove, hgt]

/-! ## Numbers near one of 32 bits -/

/-- A number that is close to one of 32 bits is rounded to it, once or twice. -/
theorem code_eq_of_close (hq : 0 ≤ q) (h : 2 ^ 27 * |q - single.value c| ≤ single.value c) :
    single.code q = c ∧ twice q = c := by
  have hclose : ∀ {p : ℚ}, 0 ≤ p → 2 ^ 27 * |p - single.value c| ≤ single.value c →
      single.code p = c := by
    intro p hp h
    have hnear : 2 ^ single.precision < 2 ^ 26 := by decide
    apply code_of_near (by decide) hp hnear
    push_cast
    linarith
  refine ⟨hclose hq h, hclose (value_nonneg _ _) ?_⟩
  -- The bounds that the number is between are numbers of 64 bits.
  obtain ⟨exponent, multiple, hc⟩ := exists_isMultiple (f := single) (by decide) c
  have hmultiple : multiple < 2 ^ 24 := hc.multiple_lt
  have hvalue : single.value c = multiple * 2 ^ exponent / 2 ^ 149 := hc.value_eq
  obtain ⟨lower, hlower⟩ := exists_double_value_eq (show (2 ^ 27 - 1) * multiple < 2 ^ 53 by omega)
    exponent (show 176 ≤ 1074 by decide)
  obtain ⟨upper, hupper⟩ := exists_double_value_eq (show (2 ^ 27 + 1) * multiple < 2 ^ 53 by omega)
    exponent (show 176 ≤ 1074 by decide)
  have hlower' : 2 ^ 27 * double.value lower = 2 ^ 27 * single.value c - single.value c := by
    rw [hlower, hvalue]
    push_cast
    ring
  have hupper' : 2 ^ 27 * double.value upper = 2 ^ 27 * single.value c + single.value c := by
    rw [hupper, hvalue]
    push_cast
    ring
  have hle := neg_abs_le (q - single.value c)
  have hge := le_abs_self (q - single.value c)
  have hlower : double.value lower ≤ q := by linarith
  have hupper : q ≤ double.value upper := by linarith
  obtain ⟨hle', hge'⟩ := value_code_mem (f := double) (by decide) hlower hupper
  rcases abs_cases (double.value (double.code q) - single.value c) with ⟨habs, -⟩ | ⟨habs, -⟩ <;>
    rw [habs] <;> linarith

/-! ## Quotients of few digits -/

/-- Two numbers of few digits are equal if they are close. -/
theorem eq_of_close {a b i j : Nat} (ha : a < 2 ^ 52) (hb : b < 2 ^ 53)
    (hle : 2 ^ 53 * (a * 2 ^ i) ≤ 2 ^ 53 * (b * 2 ^ j) + b * 2 ^ j)
    (hge : 2 ^ 53 * (b * 2 ^ j) ≤ 2 ^ 53 * (a * 2 ^ i) + b * 2 ^ j) : a * 2 ^ i = b * 2 ^ j := by
  rcases Nat.le_total i j with h | h
  · obtain ⟨k, rfl⟩ := Nat.exists_eq_add_of_le h
    have hshift : b * 2 ^ (i + k) = b * 2 ^ k * 2 ^ i := by ring
    rw [hshift] at hle hge ⊢
    have hle := Nat.le_of_mul_le_mul_right (a := 2 ^ 53 * a) (b := 2 ^ 53 * (b * 2 ^ k) + b * 2 ^ k)
      (c := 2 ^ i) (by linarith) (Nat.two_pow_pos i)
    have hge := Nat.le_of_mul_le_mul_right (a := 2 ^ 53 * (b * 2 ^ k)) (b := 2 ^ 53 * a + b * 2 ^ k)
      (c := 2 ^ i) (by linarith) (Nat.two_pow_pos i)
    congr 1
    omega
  · obtain ⟨k, rfl⟩ := Nat.exists_eq_add_of_le h
    have hshift : a * 2 ^ (j + k) = a * 2 ^ k * 2 ^ j := by ring
    rw [hshift] at hle hge ⊢
    have hle := Nat.le_of_mul_le_mul_right (a := 2 ^ 53 * (a * 2 ^ k)) (b := 2 ^ 53 * b + b)
      (c := 2 ^ j) (by linarith) (Nat.two_pow_pos j)
    have hge := Nat.le_of_mul_le_mul_right (a := 2 ^ 53 * b) (b := 2 ^ 53 * (a * 2 ^ k) + b)
      (c := 2 ^ j) (by linarith) (Nat.two_pow_pos j)
    congr 1
    omega

/-- The middles are far from the least numbers of 64 bits. -/
theorem lt_of_value_eq_middle {w : Nat} (h : double.value w = single.middle c) : 2 ^ 52 < w := by
  obtain ⟨multiple, exponent, hmiddle, -⟩ := exists_middle_eq c
  by_contra hsmall
  have hle := (value_strictMono (f := double) (by decide)).monotone (not_lt.mp hsmall)
  have hleast : double.value (2 ^ 52) = 2 ^ 52 / 2 ^ 1074 := by
    norm_num [value, units, double]
  have hone : (1 : ℚ) / 2 ^ 150 ≤ (2 * multiple + 1) * 2 ^ exponent / 2 ^ 150 := by
    apply div_le_div_of_nonneg_right _ (by positivity)
    exact_mod_cast Nat.mul_pos (Nat.succ_pos (2 * multiple)) (Nat.two_pow_pos exponent)
  have hfar : (2 : ℚ) ^ 52 / 2 ^ 1074 < 1 / 2 ^ 150 := by
    rw [div_lt_div_iff₀ (by positivity) (by positivity), ← pow_add, one_mul]
    exact pow_lt_pow_right₀ (by norm_num) (by norm_num)
  rw [h, hleast, hmiddle] at hle
  exact absurd (hone.trans hle) (not_le.mpr hfar)

/-- Of a quotient of few digits, rounding twice is rounding once. -/
theorem twice_quotient {a b i j : Nat} (ha : a < 2 ^ 52) (hpositive : 0 < b) (hb : b < 2 ^ 24)
    (h : q = (a * 2 ^ i) / (b * 2 ^ j)) : twice q = single.code q := by
  have hq : 0 ≤ q := by
    rw [h]
    positivity
  apply twice_eq_code hq
  intro c heq
  obtain ⟨multiple, exponent, hmiddle, hmultiple⟩ := exists_middle_eq c
  have hnear := near_code (f := double) (by decide) hq (lt_of_value_eq_middle heq)
  rw [heq] at hnear
  change 2 ^ 53 * |q - single.middle c| ≤ single.middle c at hnear
  have hb' : (0 : ℚ) < b := by exact_mod_cast hpositive
  have hcommon : (0 : ℚ) < b * 2 ^ j * 2 ^ 150 := by positivity
  have hleft : q * (b * 2 ^ j * 2 ^ 150) = a * 2 ^ (i + 150) := by
    rw [h, pow_add]
    field_simp
  have hright : single.middle c * (b * 2 ^ j * 2 ^ 150) =
      ((2 * multiple + 1) * b : Nat) * 2 ^ (exponent + j) := by
    rw [hmiddle, pow_add]
    push_cast
    field_simp
  have hle := mul_le_mul_of_nonneg_right (le_abs_self (q - single.middle c)) hcommon.le
  have hge := mul_le_mul_of_nonneg_right (neg_abs_le (q - single.middle c)) hcommon.le
  have hnear := mul_le_mul_of_nonneg_right hnear hcommon.le
  rw [sub_mul, hleft, hright] at hle hge
  rw [mul_assoc, hright] at hnear
  have hequal : a * 2 ^ (i + 150) = (2 * multiple + 1) * b * 2 ^ (exponent + j) := by
    apply eq_of_close ha
    · calc (2 * multiple + 1) * b < 2 ^ 25 * 2 ^ 24 := Nat.mul_lt_mul'' (by omega) hb
        _ ≤ 2 ^ 53 := by decide
    · have habove : (2 ^ 53 * (a * 2 ^ (i + 150)) : ℚ) ≤
          2 ^ 53 * (((2 * multiple + 1) * b : Nat) * 2 ^ (exponent + j)) +
            ((2 * multiple + 1) * b : Nat) * 2 ^ (exponent + j) := by
        linarith
      exact_mod_cast habove
    · have hbelow : (2 ^ 53 * (((2 * multiple + 1) * b : Nat) * 2 ^ (exponent + j)) : ℚ) ≤
          2 ^ 53 * (a * 2 ^ (i + 150)) +
            ((2 * multiple + 1) * b : Nat) * 2 ^ (exponent + j) := by
        linarith
      exact_mod_cast hbelow
  apply mul_right_cancel₀ hcommon.ne'
  rw [hleft, hright]
  exact_mod_cast hequal

/-! ## Sums -/

/-- A number of 32 bits with a sign is a whole number of multiples. -/
theorem exists_int_eq {x : ℚ} {exponent multiple : Nat}
    (h : IsMultiple single c exponent multiple) (hx : |x| = single.value c) :
    ∃ z : ℤ, x = z * 2 ^ exponent / 2 ^ 149 ∧ z.natAbs = multiple := by
  have hvalue : single.value c = multiple * 2 ^ exponent / 2 ^ 149 := h.value_eq
  rcases eq_or_eq_neg_of_abs_eq (hx.trans hvalue) with rfl | rfl
  · exact ⟨multiple, by push_cast; rfl, Int.natAbs_natCast _⟩
  · exact ⟨-multiple, by push_cast; ring, by simp⟩

/-- Of the sum of two numbers of 32 bits, rounding twice is rounding once: if the numbers are of
similar sizes then the sum has few digits, and if not then it is close to the greater one. -/
theorem twice_add {d : Nat} {x y : ℚ} (hx : |x| = single.value c) (hy : |y| = single.value d) :
    twice |x + y| = single.code |x + y| := by
  obtain ⟨i, m, hc⟩ := exists_isMultiple (f := single) (by decide) c
  obtain ⟨j, n, hd⟩ := exists_isMultiple (f := single) (by decide) d
  wlog hle : j ≤ i generalizing c d i j m n x y
  · rw [add_comm]
    exact this hy hx j n hd i m hc (Nat.le_of_not_le hle)
  have hm : m < 2 ^ 24 := hc.multiple_lt
  have hn : n < 2 ^ 24 := hd.multiple_lt
  obtain ⟨z, rfl, rfl⟩ := exists_int_eq hc hx
  obtain ⟨w, rfl, rfl⟩ := exists_int_eq hd hy
  obtain ⟨k, rfl⟩ := Nat.exists_eq_add_of_le hle
  by_cases hfar : k ≤ 27
  · have hsum : (z * 2 ^ (j + k) / 2 ^ 149 + w * 2 ^ j / 2 ^ 149 : ℚ) =
        (z * 2 ^ k + w : ℤ) * 2 ^ j / 2 ^ 149 := by
      push_cast
      ring
    have hdigits : (z * 2 ^ k + w).natAbs < 2 ^ 52 := by
      have hpower : 2 ^ k ≤ 2 ^ 27 := Nat.pow_le_pow_right (by decide) hfar
      have hproduct : z.natAbs * 2 ^ k ≤ 2 ^ 24 * 2 ^ 27 := Nat.mul_le_mul hm.le hpower
      have hadd := Int.natAbs_add_le (z * 2 ^ k) w
      rw [Int.natAbs_mul, Int.natAbs_pow] at hadd
      change _ ≤ z.natAbs * 2 ^ k + _ at hadd
      omega
    apply twice_quotient (j := 149) (i := j) hdigits Nat.one_pos (by decide)
    rw [hsum, abs_div, abs_mul, abs_of_pos (by positivity : (0 : ℚ) < 2 ^ j),
      abs_of_pos (by positivity : (0 : ℚ) < 2 ^ 149), Nat.cast_natAbs, Int.cast_abs, Nat.cast_one,
      one_mul]
  · have hunits : 2 ^ 27 * single.units d ≤ single.units c := by
      have hpower : 2 ^ 28 ≤ 2 ^ k := Nat.pow_le_pow_right (by decide) (by omega)
      rw [hc.units_eq, hd.units_eq]
      calc 2 ^ 27 * (w.natAbs * 2 ^ j) ≤ 2 ^ 27 * (2 ^ 24 * 2 ^ j) :=
            Nat.mul_le_mul_left _ (Nat.mul_le_mul_right _ hn.le)
        _ = 2 ^ 23 * (2 ^ 28 * 2 ^ j) := by ring
        _ ≤ z.natAbs * (2 ^ k * 2 ^ j) :=
            Nat.mul_le_mul (hc.le_multiple (by omega)) (Nat.mul_le_mul_right _ hpower)
        _ = z.natAbs * 2 ^ (j + k) := by ring
    have hclose : 2 ^ 27 * |(w * 2 ^ j / 2 ^ 149 : ℚ)| ≤ single.value c := by
      rw [hy, value, value, mul_div_assoc']
      exact div_le_div_of_nonneg_right (by exact_mod_cast hunits) (by positivity)
    have hdistance := abs_abs_sub_abs_le (z * 2 ^ (j + k) / 2 ^ 149 + w * 2 ^ j / 2 ^ 149 : ℚ)
      (z * 2 ^ (j + k) / 2 ^ 149)
    rw [add_sub_cancel_left, hx] at hdistance
    obtain ⟨honce, htwice⟩ := code_eq_of_close (abs_nonneg _)
      ((mul_le_mul_of_nonneg_left hdistance (by positivity)).trans hclose)
    rw [honce, htwice]

end Numeric.Format

end MiniLox
