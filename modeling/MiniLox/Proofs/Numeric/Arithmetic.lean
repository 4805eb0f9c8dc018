import MiniLox.Evaluation
import MiniLox.Proofs.Numeric.Values

/-!
# Arithmetic of 32 bits

The operators compute with 64 bits and round their results to 32.  The results are nevertheless
those of an arithmetic that has 32 bits only: the exact result, rounded once to the nearest
number, a half to the even one, and an infinity beyond the greatest of them.
-/

namespace MiniLox

open Numeric

namespace Number

open Format

variable {q : ℚ} {c : Nat} {n other : Number} {a b : Magnitude}

/-! ## Correct results -/

/-- The number is a rational number rounded once to 32 bits: a nearest one, a half to the even
code, with the sign of the rational number, and an infinity if the nearest one would be beyond
the finite numbers. -/
inductive RoundsToSingle (q : ℚ) : Number → Prop
  | finite {c : Nat} {negative : Bool} {m : Magnitude} (hnearest : single.IsNearest |q| c)
      (hc : c < single.limit) (hvalue : m.value = single.value c)
      (hsign : q ≠ 0 → negative = decide (q < 0)) : RoundsToSingle q (.finite negative m)
  | infinity {c : Nat} (hnearest : single.IsNearest |q| c) (hc : single.limit ≤ c) :
      RoundsToSingle q (.infinity (decide (q < 0)))

/-- A rational number other than zero is rounded in one way. -/
theorem RoundsToSingle.unique (hq : q ≠ 0) (h : RoundsToSingle q n)
    (h' : RoundsToSingle q other) : n = other := by
  cases h with
  | finite hnearest hc hvalue hsign =>
      cases h' with
      | finite hnearest' hc' hvalue' hsign' =>
          obtain rfl := hnearest.unique (by decide) hnearest'
          rw [hsign hq, hsign' hq, Magnitude.eq_of_value_eq (hvalue.trans hvalue'.symm)]
      | infinity hnearest' hc' =>
          obtain rfl := hnearest.unique (by decide) hnearest'
          omega
  | infinity hnearest hc =>
      cases h' with
      | finite hnearest' hc' =>
          obtain rfl := hnearest.unique (by decide) hnearest'
          omega
      | infinity => rfl

/-- A rational number is rounded to the number with its code. -/
theorem roundsToSingle_ofSingle {negative : Bool} (hsign : q ≠ 0 → negative = decide (q < 0)) :
    RoundsToSingle q (ofSingle negative (single.code |q|)) := by
  have hnearest := isNearest_code (f := single) (by decide) (abs_nonneg q)
  by_cases hc : single.code |q| < single.limit
  · obtain ⟨m, hvalue, hfinite⟩ := exists_ofSingle_eq hc
    rw [hfinite]
    exact .finite hnearest hc hvalue hsign
  · have hne : q ≠ 0 := by
      rintro rfl
      have hzero : single.code |(0 : ℚ)| = 0 := by decide +kernel
      rw [hzero] at hc
      exact hc (by decide)
    rw [ofSingle, if_neg hc, hsign hne]
    exact .infinity hnearest (not_lt.mp hc)

/-- The overflow begins half a step beyond the greatest number of 32 bits. -/
theorem roundsToSingle_infinity_iff {negative : Bool} :
    RoundsToSingle q (.infinity negative) ↔
      2 ^ 128 - 2 ^ 103 ≤ |q| ∧ negative = decide (q < 0) := by
  have hnearest := isNearest_code (f := single) (by decide) (abs_nonneg q)
  rw [← limit_le_code_iff (abs_nonneg q)]
  constructor
  · intro h
    cases h with
    | infinity hnearest' hc => exact ⟨hnearest.unique (by decide) hnearest' ▸ hc, rfl⟩
  · rintro ⟨hlarge, rfl⟩
    exact .infinity hnearest hlarge

theorem exists_of_isFinite (h : n.isFinite) : ∃ s m, n = .finite s m := by
  cases n with
  | finite s m => exact ⟨s, m, rfl⟩
  | nan | infinity => cases h

/-- No finite number of 32 bits is nearer than a finite result. -/
theorem RoundsToSingle.nearest (h : RoundsToSingle q n) (hn : n.isFinite)
    (hother : other.IsSingle) (hfinite : other.isFinite) :
    |n.value - q| ≤ |other.value - q| := by
  obtain ⟨t, b, rfl⟩ := exists_of_isFinite hfinite
  obtain ⟨d, -, hd, -⟩ := exists_code_of_isSingle hother
  cases h with
  | infinity => cases hn
  | finite hnearest hc hvalue hsign =>
      next c negative m =>
      have hdistance : |(Number.finite negative m).value - q| = |single.value c - (|q|)| := by
        rw [value, hvalue]
        rcases lt_trichotomy q 0 with hlt | rfl | hgt
        · rw [hsign hlt.ne, decide_eq_true hlt, if_pos rfl, abs_of_neg hlt, ← abs_neg]
          ring_nf
        · cases negative <;> simp
        · simp [hsign hgt.ne', hgt.not_gt, abs_of_pos hgt]
      calc |(Number.finite negative m).value - q| = |single.value c - (|q|)| := hdistance
        _ ≤ |single.value d - (|q|)| := hnearest.nearest d
        _ = |(|(Number.finite t b).value|) - (|q|)| := by rw [abs_value_finite, hd]
        _ ≤ |(Number.finite t b).value - q| := abs_abs_sub_abs_le _ _

/-! ## The operations -/

theorem roundsToSingle_ofRatio {num den : Nat} {negative : Bool} (hden : 0 < den)
    (habs : (num : ℚ) / den = |q|) (htwice : twice |q| = single.code |q|)
    (hsign : q ≠ 0 → negative = decide (q < 0)) :
    RoundsToSingle q (ofRatio negative num den).toSingle := by
  rw [toSingle_ofRatio hden, habs, htwice]
  exact roundsToSingle_ofSingle hsign

theorem cast_signedUnits (s : Bool) (a : Magnitude) :
    (signedUnits s a : ℚ) = (finite s a).value * 2 ^ double.scale := by
  cases s <;> simp [signedUnits, value, Magnitude.cast_units]

theorem roundsToSingle_add {s t : Bool} (ha : (finite s a).IsSingle) (hb : (finite t b).IsSingle) :
    RoundsToSingle ((finite s a).value + (finite t b).value)
      ((finite s a).add (finite t b)).toSingle := by
  obtain ⟨c, -, hc, -⟩ := exists_code_of_isSingle ha
  obtain ⟨d, -, hd, -⟩ := exists_code_of_isSingle hb
  have hsum : ((signedUnits s a + signedUnits t b : ℤ) : ℚ) =
      ((finite s a).value + (finite t b).value) * 2 ^ double.scale := by
    rw [Int.cast_add, cast_signedUnits, cast_signedUnits, add_mul]
  have htwice := twice_add ((abs_value_finite s a).trans hc) ((abs_value_finite t b).trans hd)
  rw [add]
  generalize (finite s a).value + (finite t b).value = q at hsum htwice ⊢
  generalize signedUnits s a + signedUnits t b = sum at hsum ⊢
  have hscale : (0 : ℚ) < 2 ^ double.scale := by positivity
  apply roundsToSingle_ofRatio (Nat.two_pow_pos _) _ htwice
  · intro hq
    have hne : sum ≠ 0 := by
      rintro rfl
      rw [Int.cast_zero, eq_comm, mul_eq_zero] at hsum
      exact hsum.elim hq hscale.ne'
    have hnegative : sum < 0 ↔ q < 0 := by
      rw [← Int.cast_lt_zero (R := ℚ), hsum]
      simp [mul_neg_iff, hscale, hscale.not_gt]
    rw [if_neg hne, decide_eq_decide]
    exact hnegative
  · rw [Nat.cast_natAbs, Int.cast_abs, hsum, abs_mul, Nat.cast_pow, Nat.cast_ofNat,
      abs_of_pos hscale, mul_div_cancel_right₀ _ hscale.ne']

theorem roundsToSingle_sub {s t : Bool} (ha : (finite s a).IsSingle) (hb : (finite t b).IsSingle) :
    RoundsToSingle ((finite s a).value - (finite t b).value)
      ((finite s a).sub (finite t b)).toSingle := by
  rw [sub_eq_add_neg, ← value_neg]
  exact roundsToSingle_add ha hb.neg

theorem decide_mul_neg {s t : Bool} (h : (finite s a).value * (finite t b).value ≠ 0) :
    (s != t) = decide ((finite s a).value * (finite t b).value < 0) := by
  have hnonneg : 0 ≤ a.value := value_nonneg _ _
  have hnonneg' : 0 ≤ b.value := value_nonneg _ _
  have hproduct : 0 < a.value * b.value := by
    refine lt_of_le_of_ne (mul_nonneg hnonneg hnonneg') fun hzero => h ?_
    cases s <;> cases t <;> simp [value, ← hzero]
  cases s <;> cases t <;> simp [value, hproduct, hproduct.le]

theorem roundsToSingle_mul {s t : Bool} (ha : (finite s a).IsSingle) (hb : (finite t b).IsSingle) :
    RoundsToSingle ((finite s a).value * (finite t b).value)
      ((finite s a).mul (finite t b)).toSingle := by
  obtain ⟨c, -, hc, -⟩ := exists_code_of_isSingle ha
  obtain ⟨d, -, hd, -⟩ := exists_code_of_isSingle hb
  have habs : |(finite s a).value * (finite t b).value| = a.value * b.value := by
    rw [abs_mul, abs_value_finite, abs_value_finite]
  obtain ⟨i, m, hm⟩ := exists_isMultiple (f := single) (by decide) c
  obtain ⟨j, n, hn⟩ := exists_isMultiple (f := single) (by decide) d
  have hdigits : m * n < 2 ^ 52 := by
    calc m * n < 2 ^ 24 * 2 ^ 24 := Nat.mul_lt_mul'' hm.multiple_lt hn.multiple_lt
      _ ≤ 2 ^ 52 := by decide
  have hproduct : a.value * b.value =
      (m * n : Nat) * 2 ^ (i + j) / ((1 : Nat) * 2 ^ (single.scale + single.scale)) := by
    rw [hc, hd, hm.value_eq, hn.value_eq, Nat.cast_mul, Nat.cast_one, pow_add, pow_add]
    ring
  apply roundsToSingle_ofRatio (Nat.two_pow_pos _) _ _ decide_mul_neg
  · rw [habs, Nat.cast_mul, Magnitude.cast_units, Magnitude.cast_units, Nat.cast_pow,
      Nat.cast_ofNat, two_mul, pow_add]
    field_simp
  · rw [habs]
    exact twice_quotient hdigits Nat.one_pos (by decide) hproduct

theorem decide_div_neg {s t : Bool} (h : (finite s a).value / (finite t b).value ≠ 0) :
    (s != t) = decide ((finite s a).value / (finite t b).value < 0) := by
  have hne := div_ne_zero_iff.mp h
  rw [decide_mul_neg (mul_ne_zero hne.1 hne.2), decide_eq_decide, mul_neg_iff, div_neg_iff]

theorem roundsToSingle_div {s t : Bool} (ha : (finite s a).IsSingle) (hb : (finite t b).IsSingle)
    (hzero : (finite t b).value ≠ 0) :
    RoundsToSingle ((finite s a).value / (finite t b).value)
      ((finite s a).div (finite t b)).toSingle := by
  obtain ⟨c, -, hc, -⟩ := exists_code_of_isSingle ha
  obtain ⟨d, -, hd, -⟩ := exists_code_of_isSingle hb
  have habs : |(finite s a).value / (finite t b).value| = a.value / b.value := by
    rw [abs_div, abs_value_finite, abs_value_finite]
  obtain ⟨i, m, hm⟩ := exists_isMultiple (f := single) (by decide) c
  obtain ⟨j, n, hn⟩ := exists_isMultiple (f := single) (by decide) d
  have hne : b.value ≠ 0 := by
    rw [← abs_value_finite t]
    exact abs_ne_zero.mpr hzero
  have hmultiple : 0 < n := by
    refine Nat.pos_of_ne_zero fun hn' => hne ?_
    rw [hd, hn.value_eq, hn', Nat.cast_zero, zero_mul, zero_div]
  have hquotient : a.value / b.value = m * 2 ^ i / (n * 2 ^ j) := by
    rw [hc, hd, hm.value_eq, hn.value_eq]
    field_simp
  rw [div, if_neg (mt Magnitude.code_eq_zero_iff.mp hne)]
  apply roundsToSingle_ofRatio (Magnitude.units_pos_of_value_ne_zero hne) _ _ decide_div_neg
  · rw [habs, Magnitude.cast_units, Magnitude.cast_units]
    field_simp
  · rw [habs]
    have hdigits : m < 2 ^ 52 := hm.multiple_lt.trans (by decide)
    exact twice_quotient hdigits hmultiple hn.multiple_lt hquotient

end Number

/-! ## The operators -/

namespace Evaluation

/-- The exact result of an operator on two numbers, if it has one. -/
def exactResult? (kind : TokenKind) (x y : ℚ) : Option ℚ :=
  match kind with
  | .plus => some (x + y)
  | .minus => some (x - y)
  | .star => some (x * y)
  | .slash => if y = 0 then none else some (x / y)
  | _ => none

variable {operator : Mark} {a b : Number} {q : ℚ}

/-- The result of an operator on finite numbers of 32 bits is the exact result, rounded once. -/
theorem binaryResult_rounds_once (ha : a.IsSingle) (hb : b.IsSingle) (hfinite : a.isFinite)
    (hfinite' : b.isFinite) (hq : exactResult? operator.kind a.value b.value = some q) :
    ∃ n, binaryResult operator (.number a) (.number b) = .ok (.number n) ∧
      n.RoundsToSingle q := by
  obtain ⟨s, m, rfl⟩ := Number.exists_of_isFinite hfinite
  obtain ⟨t, m', rfl⟩ := Number.exists_of_isFinite hfinite'
  unfold exactResult? at hq
  split at hq
  · next hkind =>
    cases hq
    refine ⟨_, ?_, Number.roundsToSingle_add ha hb⟩
    rw [binaryResult, hkind]
    rfl
  · next hkind =>
    cases hq
    refine ⟨_, ?_, Number.roundsToSingle_sub ha hb⟩
    rw [binaryResult, hkind]
    rfl
  · next hkind =>
    cases hq
    refine ⟨_, ?_, Number.roundsToSingle_mul ha hb⟩
    rw [binaryResult, hkind]
    rfl
  · next hkind =>
    split at hq
    · cases hq
    · next hzero =>
      cases hq
      refine ⟨_, ?_, Number.roundsToSingle_div ha hb hzero⟩
      rw [binaryResult, hkind]
      rfl
  · cases hq

/-- A third is rounded once. -/
theorem binaryResult_rounds_once_third :
    ∃ n, binaryResult (Token.mark ⟨.slash, "/", none, some 1⟩) (.number (.ofInt 1))
        (.number (.ofInt 3)) = .ok (.number n) ∧ n.RoundsToSingle (1 / 3) := by
  have hone : (Number.ofInt 1).value = 1 := by decide +kernel
  have hthree : (Number.ofInt 3).value = 3 := by decide +kernel
  have hsingle : (Number.ofInt 1).IsSingle ∧ (Number.ofInt 3).IsSingle := by decide +kernel
  have hexact : exactResult? .slash (Number.ofInt 1).value (Number.ofInt 3).value =
      some (1 / 3) := by
    rw [hone, hthree]
    decide +kernel
  exact binaryResult_rounds_once hsingle.1 hsingle.2 (by decide +kernel) (by decide +kernel) hexact

end Evaluation

end MiniLox
