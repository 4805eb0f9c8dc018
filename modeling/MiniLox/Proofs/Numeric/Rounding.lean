import MiniLox.Numeric.Format

/-!
# Rounding

The code of a quotient depends on the quotient alone, and not on how it is written.  A quotient
that is near a number of the format has the code of this number, where near means by less than
the number divided by two to the power of the precision, and by half of that for the quotients
below: the binade below a power of two is finer than the one above.
-/

namespace MiniLox

namespace Numeric

variable {num den q : Nat}

/-! ## Nearest whole numbers -/

theorem two_mul_nearestEven_le (num : Nat) (hden : 0 < den) :
    2 * (nearestEven num den * den) ≤ 2 * num + den := by
  have hdivide := Nat.div_add_mod num den
  have hmod := Nat.mod_lt num hden
  rw [Nat.mul_comm] at hdivide
  rw [nearestEven]
  split
  · omega
  · rw [Nat.add_mul]
    omega

theorem le_two_mul_nearestEven (num : Nat) (hden : 0 < den) :
    2 * num ≤ 2 * (nearestEven num den * den) + den := by
  have hdivide := Nat.div_add_mod num den
  have hmod := Nat.mod_lt num hden
  rw [Nat.mul_comm] at hdivide
  rw [nearestEven]
  split
  · omega
  · rw [Nat.add_mul]
    omega

/-- Only one whole number is nearer than a half. -/
theorem nearestEven_eq (hbelow : 2 * (q * den) < 2 * num + den)
    (habove : 2 * num < 2 * (q * den) + den) : nearestEven num den = q := by
  have hden : 0 < den := by omega
  have hle := two_mul_nearestEven_le num hden
  have hge := le_two_mul_nearestEven num hden
  generalize nearestEven num den = n at hle hge
  have hupper : n * den < (q + 1) * den := by
    rw [Nat.add_mul]
    omega
  have hlower : q * den < (n + 1) * den := by
    rw [Nat.add_mul]
    omega
  have hn := Nat.lt_of_mul_lt_mul_right hupper
  have hq := Nat.lt_of_mul_lt_mul_right hlower
  omega

theorem nearestEven_mul_right {k : Nat} (num den : Nat) (hk : 0 < k) :
    nearestEven (num * k) (den * k) = nearestEven num den := by
  rw [nearestEven, nearestEven, Nat.mul_div_mul_right _ _ hk, Nat.mul_mod_mul_right,
    ← Nat.mul_assoc 2]
  simp only [Nat.mul_lt_mul_right hk, Nat.mul_left_inj (Nat.ne_of_gt hk)]

/-- A half goes up to an even number. -/
theorem nearestEven_lt_iff (hden : 0 < den) (hq : q % 2 = 0) :
    nearestEven num den < q ↔ 2 * num + den < 2 * (q * den) := by
  have hdivide := Nat.div_add_mod num den
  have hmod := Nat.mod_lt num hden
  rw [Nat.mul_comm] at hdivide
  constructor
  · intro h
    rcases Nat.lt_trichotomy (num / den + 1) q with hlt | heq | hgt
    · have hsteps := Nat.mul_le_mul_right den (Nat.succ_le_of_lt hlt)
      rw [Nat.succ_mul, Nat.add_mul] at hsteps
      omega
    · rw [nearestEven] at h
      rw [← heq, Nat.add_mul]
      split at h
      · omega
      · omega
    · rw [nearestEven] at h
      split at h
      · omega
      · omega
  · intro h
    have hle := two_mul_nearestEven_le num hden
    exact Nat.lt_of_mul_lt_mul_right (a := den) (by omega)

namespace Format

variable {f : Format}

/-! ## Quotients -/

theorem round_mul_right {k : Nat} (num den : Nat) (hk : 0 < k) :
    f.round (num * k) (den * k) = f.round num den := by
  rw [round, round]
  rw [Nat.mul_right_comm num k, Nat.mul_div_mul_right _ _ hk, Nat.mul_right_comm den k,
    nearestEven_mul_right _ _ hk]

/-- Equal quotients have the same code. -/
theorem round_eq_round {num' den' : Nat} (hden : 0 < den) (hden' : 0 < den')
    (h : num * den' = num' * den) : f.round num den = f.round num' den' := by
  rw [← round_mul_right num den hden', ← round_mul_right num' den' hden, h,
    Nat.mul_comm den den']

/-! ## Codes as multiples -/

/-- A code counts multiples of a power of two, as many as have at most the digits of the
precision, and at least as many unless the power is one. -/
structure IsMultiple (f : Format) (code exponent multiple : Nat) : Prop where
  code_eq : code = exponent * 2 ^ (f.precision - 1) + multiple
  units_eq : f.units code = multiple * 2 ^ exponent
  multiple_lt : multiple < 2 ^ f.precision
  le_multiple : exponent ≠ 0 → 2 ^ (f.precision - 1) ≤ multiple

theorem two_pow_precision (hprecision : 0 < f.precision) :
    2 ^ f.precision = 2 * 2 ^ (f.precision - 1) := by
  rw [← Nat.pow_succ']
  congr 1
  omega

theorem exists_isMultiple (hprecision : 0 < f.precision) (code : Nat) :
    ∃ exponent multiple, IsMultiple f code exponent multiple := by
  have hhalf : 0 < 2 ^ (f.precision - 1) := Nat.two_pow_pos _
  have hdouble := two_pow_precision hprecision
  by_cases hsmall : code < 2 ^ (f.precision - 1)
  · refine ⟨0, code, ?_, ?_, ?_, fun hne => absurd rfl hne⟩
    · rw [Nat.zero_mul, Nat.zero_add]
    · rw [units, if_pos hsmall, Nat.pow_zero, Nat.mul_one]
    · omega
  · have hdivide := Nat.div_add_mod code (2 ^ (f.precision - 1))
    have hmod := Nat.mod_lt code hhalf
    have hquotient : 1 ≤ code / 2 ^ (f.precision - 1) :=
      (Nat.one_le_div_iff hhalf).mpr (Nat.le_of_not_lt hsmall)
    refine ⟨code / 2 ^ (f.precision - 1) - 1, code % 2 ^ (f.precision - 1) +
      2 ^ (f.precision - 1), ?_, ?_, ?_, fun _ => Nat.le_add_left _ _⟩
    · rw [Nat.sub_mul, Nat.one_mul, Nat.mul_comm]
      have hle := Nat.mul_le_mul_left (2 ^ (f.precision - 1)) hquotient
      omega
    · rw [units, if_neg hsmall]
    · omega

theorem units_pos {code : Nat} (hprecision : 0 < f.precision) (hcode : code ≠ 0) :
    0 < f.units code := by
  obtain ⟨exponent, multiple, h⟩ := exists_isMultiple hprecision code
  have hmultiple : 0 < multiple := by
    by_cases hexponent : exponent = 0
    · have hcount := h.code_eq
      rw [hexponent, Nat.zero_mul, Nat.zero_add] at hcount
      omega
    · exact Nat.lt_of_lt_of_le (Nat.two_pow_pos _) (h.le_multiple hexponent)
  rw [h.units_eq]
  exact Nat.mul_pos hmultiple (Nat.two_pow_pos _)

/-! ## Quotients near a code -/

theorem excess_of_lt (hprecision : 0 < f.precision) (h : q < 2 ^ f.precision) :
    f.excess q = 0 := by
  rw [excess]
  by_cases hq : q = 0
  · rw [hq, Nat.log2_zero]
    omega
  · have := (Nat.log2_lt hq).mpr h
    omega

theorem excess_div {scaled exponent : Nat} (hprecision : 0 < f.precision) (hden : 0 < den)
    (hle : 2 ^ (f.precision - 1) * (den * 2 ^ exponent) ≤ scaled)
    (hlt : scaled < 2 ^ f.precision * (den * 2 ^ exponent)) :
    f.excess (scaled / den) = exponent := by
  have hregroup : ∀ k, 2 ^ k * (den * 2 ^ exponent) = 2 ^ (k + exponent) * den := by
    intro k
    rw [Nat.mul_comm den, ← Nat.mul_assoc, ← Nat.pow_add]
  rw [hregroup] at hle hlt
  have hquotient := (Nat.le_div_iff_mul_le hden).mpr hle
  have hq : scaled / den ≠ 0 :=
    Nat.ne_of_gt (Nat.lt_of_lt_of_le (Nat.two_pow_pos _) hquotient)
  have hlow := (Nat.le_log2 hq).mpr hquotient
  have hhigh := (Nat.log2_lt hq).mpr ((Nat.div_lt_iff_lt_mul hden).mpr hlt)
  rw [excess]
  omega

/-- A quotient of less than half a unit has the code of zero. -/
theorem round_eq_zero (hprecision : 0 < f.precision) (h : 2 * (num * 2 ^ f.scale) < den) :
    f.round num den = 0 := by
  have hquotient : num * 2 ^ f.scale / den = 0 := Nat.div_eq_of_lt (by omega)
  rw [round, hquotient, excess_of_lt hprecision (Nat.two_pow_pos _), Nat.zero_mul, Nat.zero_add,
    Nat.pow_zero, Nat.mul_one]
  exact nearestEven_eq (by omega) (by omega)

/-- A quotient less than half of the finer step below a power of two has the code of the
power. -/
theorem round_of_finer {exponent scaled step : Nat} (hprecision : 0 < f.precision)
    (hden : 0 < den) (hscaled : num * 2 ^ f.scale = scaled) (hstep : den * 2 ^ exponent = step)
    (hbelow : scaled < 2 ^ f.precision * step)
    (hnear : 2 * (2 ^ f.precision * step) < 2 * scaled + step) :
    f.round num den = (exponent + 1) * 2 ^ (f.precision - 1) + 2 ^ (f.precision - 1) := by
  have hdouble := two_pow_precision hprecision
  have hexcess : f.excess (scaled / den) = exponent := by
    have hpositive := Nat.mul_le_mul_right step (Nat.two_pow_pos (f.precision - 1))
    have hsplit : 2 ^ f.precision * step = 2 * (2 ^ (f.precision - 1) * step) := by
      rw [hdouble, Nat.mul_assoc]
    apply excess_div hprecision hden
    · rw [hstep]
      omega
    · rwa [hstep]
  have hnearest : nearestEven scaled step = 2 ^ f.precision :=
    nearestEven_eq hnear (by omega)
  rw [round, hscaled, hexcess, hstep, hnearest, hdouble, Nat.add_one_mul exponent]
  omega

/-- A quotient within half a step of a multiple has the code of the multiple, if below a power
of two it is within half of a finer step. -/
theorem round_of_halves {code exponent multiple scaled step : Nat} (hprecision : 0 < f.precision)
    (hden : 0 < den) (hcode : IsMultiple f code exponent multiple)
    (hscaled : num * 2 ^ f.scale = scaled) (hstep : den * 2 ^ exponent = step)
    (hbelow : 2 * (multiple * step) < 2 * scaled + step)
    (habove : 2 * scaled < 2 * (multiple * step) + step)
    (hfine : multiple = 2 ^ (f.precision - 1) → 4 * (multiple * step) < 4 * scaled + step) :
    f.round num den = code := by
  have hlt := hcode.multiple_lt
  have hsteps := Nat.mul_le_mul_right step (Nat.succ_le_of_lt hlt)
  rw [Nat.succ_mul] at hsteps
  rw [hcode.code_eq]
  by_cases hpower : exponent = 0
  · subst hpower
    rw [Nat.pow_zero, Nat.mul_one] at hstep
    subst hstep
    have hquotient : scaled / den < 2 ^ f.precision := by
      rw [Nat.div_lt_iff_lt_mul hden]
      omega
    rw [round, hscaled, excess_of_lt hprecision hquotient, Nat.pow_zero, Nat.mul_one,
      nearestEven_eq hbelow habove]
  · have hle := hcode.le_multiple hpower
    obtain ⟨finer, rfl⟩ : ∃ finer, exponent = finer + 1 := Nat.exists_eq_succ_of_ne_zero hpower
    by_cases hcoarse : 2 ^ (f.precision - 1) * step ≤ scaled
    · have hexcess : f.excess (scaled / den) = finer + 1 := by
        apply excess_div hprecision hden
        · rwa [hstep]
        · rw [hstep]
          omega
      rw [round, hscaled, hexcess, hstep, nearestEven_eq hbelow habove]
    · -- Below the least multiple of the power, the quotient is rounded in steps of half the size.
      have hmultiple : multiple = 2 ^ (f.precision - 1) := by
        have hupper : 2 * multiple * step < (2 * 2 ^ (f.precision - 1) + 1) * step := by
          rw [Nat.add_mul, Nat.mul_assoc, Nat.mul_assoc]
          omega
        have := Nat.lt_of_mul_lt_mul_right hupper
        omega
      have hhalf : step = 2 * (den * 2 ^ finer) := by
        rw [← hstep, Nat.pow_succ', ← Nat.mul_assoc, Nat.mul_comm den 2, Nat.mul_assoc]
      have hproduct : 2 ^ f.precision * (den * 2 ^ finer) = 2 ^ (f.precision - 1) * step := by
        rw [hhalf, two_pow_precision hprecision, Nat.mul_comm 2, Nat.mul_assoc]
      have hfine' := hfine hmultiple
      rw [hmultiple] at hfine' ⊢
      exact round_of_finer hprecision hden hscaled rfl (by omega) (by omega)

/-- A quotient near a number of the format has its code. -/
theorem round_of_near {code near : Nat} (hprecision : 0 < f.precision) (hden : 0 < den)
    (hnear : 2 ^ f.precision < near)
    (hbelow : 2 * near * (f.units code * den) ≤ 2 * near * (num * 2 ^ f.scale) +
      f.units code * den)
    (habove : 2 * near * (num * 2 ^ f.scale) ≤ 2 * near * (f.units code * den) +
      f.units code * den) : f.round num den = code := by
  obtain ⟨exponent, multiple, hcode⟩ := exists_isMultiple hprecision code
  have hstep : 0 < den * 2 ^ exponent := Nat.mul_pos hden (Nat.two_pow_pos _)
  have hunits : f.units code * den = multiple * (den * 2 ^ exponent) := by
    rw [hcode.units_eq, Nat.mul_assoc, Nat.mul_comm (2 ^ exponent)]
  rw [hunits] at hbelow habove
  have hslack : multiple * (den * 2 ^ exponent) < near * (den * 2 ^ exponent) :=
    Nat.mul_lt_mul_of_pos_right (by have := hcode.multiple_lt; omega) hstep
  apply round_of_halves hprecision hden hcode rfl rfl
  · apply Nat.lt_of_mul_lt_mul_left (a := near)
    grind
  · apply Nat.lt_of_mul_lt_mul_left (a := near)
    grind
  · intro hpower
    have hdouble : 2 * multiple < near := by
      have hsucc := two_pow_precision hprecision
      omega
    have hslack' := Nat.mul_lt_mul_of_pos_right hdouble hstep
    apply Nat.lt_of_mul_lt_mul_left (a := near)
    grind

/-! ## The greatest numbers -/

theorem lt_two_pow_excess (q : Nat) : q < 2 ^ (f.precision + f.excess q) := by
  by_cases hq : q = 0
  · rw [hq]
    exact Nat.two_pow_pos _
  · refine (Nat.log2_lt hq).mp ?_
    rw [excess]
    omega

theorem two_pow_excess_le (q : Nat) (hprecision : 0 < f.precision) (h : f.excess q ≠ 0) :
    2 ^ (f.precision - 1 + f.excess q) ≤ q := by
  rw [excess] at h
  have hq : q ≠ 0 := by
    rintro rfl
    rw [Nat.log2_zero] at h
    omega
  refine (Nat.le_log2 hq).mp ?_
  rw [excess]
  omega

theorem two_mul_step_le (den : Nat) {finer coarser : Nat} (h : finer < coarser) :
    2 * (den * 2 ^ finer) ≤ den * 2 ^ coarser := by
  calc
    2 * (den * 2 ^ finer) = den * 2 ^ (finer + 1) := by
      rw [Nat.pow_succ', Nat.mul_left_comm]
    _ ≤ den * 2 ^ coarser :=
      Nat.mul_le_mul_left den (Nat.pow_le_pow_right (by decide) h)

/-- The quotients that are rounded to numbers below a power of two are those that are more than
half a step below it. -/
theorem round_lt_iff {exponent : Nat} (hprecision : 0 < f.precision) (hden : 0 < den) :
    f.round num den < (exponent + 2) * 2 ^ (f.precision - 1) ↔
      2 * (num * 2 ^ f.scale) + den * 2 ^ exponent <
        2 * (2 ^ f.precision * (den * 2 ^ exponent)) := by
  have hdouble := two_pow_precision hprecision
  have hhalf : 0 < 2 ^ (f.precision - 1) := Nat.two_pow_pos _
  have hupper := (Nat.div_lt_iff_lt_mul hden).mp (f.lt_two_pow_excess (num * 2 ^ f.scale / den))
  have hlower := fun h => (Nat.le_div_iff_mul_le hden).mp
    (f.two_pow_excess_le (num * 2 ^ f.scale / den) hprecision h)
  rw [round]
  generalize num * 2 ^ f.scale = scaled at *
  generalize f.excess (scaled / den) = extra at *
  have hregroup : ∀ k, 2 ^ (k + extra) * den = 2 ^ k * (den * 2 ^ extra) := by
    intro k
    rw [Nat.pow_add, Nat.mul_assoc, Nat.mul_comm den]
  have hstep : 0 < den * 2 ^ extra := Nat.mul_pos hden (Nat.two_pow_pos _)
  rw [hregroup] at hupper
  rcases Nat.lt_trichotomy extra exponent with hlt | rfl | hgt
  · have hsteps := Nat.mul_le_mul_left (2 ^ f.precision) (two_mul_step_le den hlt)
    have hnear : nearestEven scaled (den * 2 ^ extra) < 2 ^ f.precision + 1 := by
      have hle := two_mul_nearestEven_le scaled hstep
      apply Nat.lt_of_mul_lt_mul_right (a := den * 2 ^ extra)
      rw [Nat.add_mul]
      omega
    have hexponents := Nat.mul_le_mul_right (2 ^ (f.precision - 1)) hlt
    have hpositive := Nat.mul_le_mul_right (den * 2 ^ exponent) (Nat.two_pow_pos f.precision)
    refine iff_of_true ?_ ?_
    · rw [Nat.succ_mul] at hexponents
      rw [Nat.add_mul]
      omega
    · rw [Nat.mul_left_comm] at hsteps
      omega
  · rw [Nat.add_mul, Nat.add_lt_add_iff_left, ← hdouble]
    exact nearestEven_lt_iff hstep (by omega)
  · have hlower := hlower (by omega)
    rw [hregroup] at hlower
    have hsteps := Nat.mul_le_mul_left (2 ^ (f.precision - 1)) (two_mul_step_le den hgt)
    have hnear : 2 ^ (f.precision - 1) < nearestEven scaled (den * 2 ^ extra) + 1 := by
      have hge := le_two_mul_nearestEven scaled hstep
      apply Nat.lt_of_mul_lt_mul_right (a := den * 2 ^ extra)
      rw [Nat.add_mul]
      omega
    have hexponents := Nat.mul_le_mul_right (2 ^ (f.precision - 1)) hgt
    refine iff_of_false ?_ ?_
    · rw [Nat.succ_mul] at hexponents
      rw [Nat.add_mul]
      omega
    · rw [Nat.mul_left_comm] at hsteps
      rw [hdouble, Nat.mul_assoc]
      omega

/-- The whole numbers that are rounded to finite ones are those that are more than half a step
below a power of two. -/
theorem round_one_lt_iff {n k : Nat} (hprecision : 0 < f.precision) :
    f.round n 1 < (f.scale + 1 + k + 2) * 2 ^ (f.precision - 1) ↔
      n + 2 ^ k < 2 ^ (f.precision + 1 + k) := by
  have hsum : 2 * (n * 2 ^ f.scale) + 1 * 2 ^ (f.scale + 1 + k) =
      2 ^ (f.scale + 1) * (n + 2 ^ k) := by
    rw [Nat.mul_add, ← Nat.pow_add, Nat.one_mul, Nat.mul_left_comm, ← Nat.pow_succ',
      Nat.mul_comm n]
  have hproduct : 2 * (2 ^ f.precision * (1 * 2 ^ (f.scale + 1 + k))) =
      2 ^ (f.scale + 1) * 2 ^ (f.precision + 1 + k) := by
    rw [Nat.one_mul, ← Nat.pow_add, ← Nat.pow_succ', ← Nat.pow_add]
    congr 1
    omega
  rw [round_lt_iff hprecision (by decide), hsum, hproduct, Nat.mul_lt_mul_left (Nat.two_pow_pos _)]

end Format

end Numeric

end MiniLox
