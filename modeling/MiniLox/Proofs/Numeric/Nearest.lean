import Mathlib.Algebra.Order.Field.Rat
import Mathlib.Tactic.FieldSimp
import Mathlib.Tactic.Linarith
import Mathlib.Tactic.Positivity
import Mathlib.Tactic.Ring
import MiniLox.Proofs.Numeric.Single

/-!
# Nearest numbers

The numbers of a format are rational, and so are the quotients that are rounded to them.  What
is rounded beyond a code is what lies beyond the middle between the code and the next one, and
the middle itself if the code is odd.  It follows that rounding keeps the order, and that it
gives the one code that is nearest, a half going to the even code.
-/

namespace MiniLox

namespace Numeric

theorem lt_nearestEven_iff {q num den : Nat} (hden : 0 < den) :
    q < nearestEven num den ↔
      (2 * q + 1) * den < 2 * num ∨ ((2 * q + 1) * den = 2 * num ∧ q % 2 = 1) := by
  have hdivide := Nat.div_add_mod num den
  have hmod := Nat.mod_lt num hden
  rw [Nat.mul_comm] at hdivide
  have hsplit : (2 * q + 1) * den = 2 * (q * den) + den := by ring
  rw [nearestEven, hsplit]
  rcases Nat.lt_trichotomy q (num / den) with hlt | rfl | hgt
  · have hsteps := Nat.mul_le_mul_right den (Nat.succ_le_of_lt hlt)
    rw [Nat.succ_mul] at hsteps
    split <;> omega
  · split <;> omega
  · have hsteps := Nat.mul_le_mul_right den (Nat.succ_le_of_lt hgt)
    rw [Nat.succ_mul] at hsteps
    split <;> omega

namespace Format

variable {f : Format} {c other : Nat}

/-! ## Middles of codes -/

/-- The next code counts one multiple more. -/
theorem IsMultiple.units_succ {exponent multiple : Nat} (hprecision : 0 < f.precision)
    (h : IsMultiple f c exponent multiple) :
    f.units (c + 1) = (multiple + 1) * 2 ^ exponent := by
  have hdouble := two_pow_precision hprecision
  have hlt := h.multiple_lt
  rw [h.code_eq, Nat.add_assoc]
  by_cases hlast : multiple + 1 = 2 ^ f.precision
  · have hnext : exponent * 2 ^ (f.precision - 1) + (multiple + 1) =
        (exponent + 1) * 2 ^ (f.precision - 1) + 2 ^ (f.precision - 1) := by
      rw [hlast, hdouble]
      ring
    rw [hnext, units_of_multiple hprecision (Nat.le_refl _) (by omega), hlast, hdouble]
    ring
  · by_cases hsmall : exponent = 0 ∧ multiple + 1 < 2 ^ (f.precision - 1)
    · obtain ⟨rfl, hsmall⟩ := hsmall
      rw [Nat.zero_mul, Nat.zero_add, units, if_pos hsmall, Nat.pow_zero, Nat.mul_one]
    · have hle := h.le_multiple
      exact units_of_multiple hprecision (by omega) (by omega)

/-- What is rounded beyond a code. -/
theorem lt_round_iff {num den : Nat} (hprecision : 1 < f.precision) (hden : 0 < den) :
    c < f.round num den ↔
      (f.units c + f.units (c + 1)) * den < 2 * (num * 2 ^ f.scale) ∨
        ((f.units c + f.units (c + 1)) * den = 2 * (num * 2 ^ f.scale) ∧
          c % 2 = 1) := by
  have hpositive : 0 < f.precision := by omega
  have hdouble := two_pow_precision hpositive
  obtain ⟨exponent, multiple, hcode⟩ := exists_isMultiple hpositive c
  have hmultiple := hcode.multiple_lt
  have hunits : (f.units c + f.units (c + 1)) * den =
      (2 * multiple + 1) * (den * 2 ^ exponent) := by
    rw [hcode.units_succ hpositive, hcode.units_eq]
    ring
  have hupper := (Nat.div_lt_iff_lt_mul hden).mp (f.lt_two_pow_excess (num * 2 ^ f.scale / den))
  have hlower := fun h => (Nat.le_div_iff_mul_le hden).mp
    (f.two_pow_excess_le (num * 2 ^ f.scale / den) hpositive h)
  rw [hunits, hcode.code_eq, round]
  generalize num * 2 ^ f.scale = scaled at *
  generalize f.excess (scaled / den) = extra at *
  have hregroup : ∀ k, 2 ^ (k + extra) * den = 2 ^ k * (den * 2 ^ extra) := by
    intro k
    rw [Nat.pow_add]
    ring
  have hstep : 0 < den * 2 ^ extra := Nat.mul_pos hden (Nat.two_pow_pos _)
  rw [hregroup] at hupper
  rcases Nat.lt_trichotomy extra exponent with hlt | rfl | hgt
  · -- The quotient is below the code, which is rounded in coarser steps.
    have hle := hcode.le_multiple (by omega)
    have hsteps := Nat.mul_le_mul_left (2 ^ (f.precision - 1)) (two_mul_step_le den hlt)
    have hbelow := Nat.mul_le_mul_right (den * 2 ^ exponent) hle
    have hnear : nearestEven scaled (den * 2 ^ extra) < 2 ^ f.precision + 1 := by
      have hnearest := two_mul_nearestEven_le scaled hstep
      apply Nat.lt_of_mul_lt_mul_right (a := den * 2 ^ extra)
      rw [Nat.add_mul]
      omega
    have hexponents := Nat.mul_le_mul_right (2 ^ (f.precision - 1)) hlt
    rw [Nat.succ_mul] at hexponents
    rw [hdouble, Nat.mul_assoc, Nat.mul_left_comm] at hupper
    have hfar : 0 < den * 2 ^ exponent := Nat.mul_pos hden (Nat.two_pow_pos _)
    rw [Nat.add_mul, Nat.mul_assoc]
    constructor <;> intro h <;> omega
  · have hparity : (extra * 2 ^ (f.precision - 1) + multiple) % 2 = multiple % 2 := by
      obtain ⟨k, hk⟩ : ∃ k, f.precision - 1 = k + 1 :=
        Nat.exists_eq_succ_of_ne_zero (by omega)
      rw [hk, Nat.pow_succ, ← Nat.mul_assoc, Nat.mul_comm, Nat.mul_add_mod]
    rw [hparity, Nat.add_lt_add_iff_left]
    exact lt_nearestEven_iff hstep
  · -- The quotient has reached the next code, which is rounded in finer steps.
    have hlower := hlower (by omega)
    rw [hregroup] at hlower
    have hsteps := Nat.mul_le_mul_left (2 ^ (f.precision - 1)) (two_mul_step_le den hgt)
    have hnear : 2 ^ (f.precision - 1) < nearestEven scaled (den * 2 ^ extra) + 1 := by
      have hnearest := le_two_mul_nearestEven scaled hstep
      apply Nat.lt_of_mul_lt_mul_right (a := den * 2 ^ extra)
      rw [Nat.add_mul]
      omega
    have hexponents := Nat.mul_le_mul_right (2 ^ (f.precision - 1)) hgt
    rw [Nat.succ_mul] at hexponents
    have habove := Nat.mul_le_mul_right (den * 2 ^ exponent) (Nat.succ_le_of_lt hmultiple)
    rw [hdouble, Nat.succ_mul, Nat.mul_assoc] at habove
    rw [Nat.mul_left_comm] at hsteps
    have hfar : 0 < den * 2 ^ exponent := Nat.mul_pos hden (Nat.two_pow_pos _)
    rw [Nat.add_mul, Nat.mul_assoc]
    constructor <;> intro h <;> omega

/-! ## Codes of rational numbers -/

/-- The number that a code stands for. -/
def value (f : Format) (code : Nat) : ℚ := f.units code / 2 ^ f.scale

/-- The number halfway between a code and the next one. -/
def middle (f : Format) (code : Nat) : ℚ := (f.value code + f.value (code + 1)) / 2

/-- The code that a number is rounded to, its sign aside. -/
def code (f : Format) (q : ℚ) : Nat := f.round q.num.natAbs q.den

variable {p q : ℚ}

theorem value_nonneg (f : Format) (c : Nat) : 0 ≤ f.value c := by
  rw [value]
  positivity

theorem value_zero (f : Format) : f.value 0 = 0 := by
  rw [value, units, if_pos (Nat.two_pow_pos _), Nat.cast_zero, zero_div]

theorem value_strictMono (hprecision : 0 < f.precision) : StrictMono f.value := by
  apply strictMono_nat_of_lt_succ
  intro c
  obtain ⟨exponent, multiple, h⟩ := exists_isMultiple hprecision c
  have hunits : f.units c < f.units (c + 1) := by
    rw [h.units_eq, h.units_succ hprecision]
    exact Nat.mul_lt_mul_of_pos_right (Nat.lt_succ_self _) (Nat.two_pow_pos _)
  have hcast : (f.units c : ℚ) < f.units (c + 1) := by exact_mod_cast hunits
  exact div_lt_div_of_pos_right hcast (by positivity)

theorem middle_eq (f : Format) (c : Nat) :
    f.middle c = (f.units c + f.units (c + 1)) / (2 * 2 ^ f.scale) := by
  rw [middle, value, value]
  field_simp

theorem abs_eq_num_div_den (q : ℚ) : |q| = (q.num.natAbs : ℚ) / (q.den : ℚ) := by
  calc |q| = |(q.num : ℚ) / (q.den : ℚ)| := by rw [Rat.num_div_den]
    _ = (q.num.natAbs : ℚ) / (q.den : ℚ) := by
      rw [abs_div, Nat.abs_cast, Nat.cast_natAbs, Int.cast_abs]

theorem round_eq_code {num den : Nat} (hden : 0 < den) :
    f.round num den = f.code ((num : ℚ) / (den : ℚ)) := by
  have habs := abs_eq_num_div_den ((num : ℚ) / (den : ℚ))
  have hpositive : (0 : ℚ) < den := by exact_mod_cast hden
  rw [abs_of_nonneg (by positivity), div_eq_div_iff (by positivity) (by positivity)] at habs
  exact round_eq_round hden (Rat.den_pos _) (by exact_mod_cast habs)

/-- What is rounded beyond a code. -/
theorem lt_code_iff (hprecision : 1 < f.precision) (hq : 0 ≤ q) :
    c < f.code q ↔ f.middle c < q ∨ (f.middle c = q ∧ c % 2 = 1) := by
  have habs := abs_eq_num_div_den q
  have hden : (0 : ℚ) < q.den := by exact_mod_cast q.den_pos
  rw [abs_of_nonneg hq] at habs
  rw [code, lt_round_iff hprecision q.den_pos, middle_eq]
  generalize q.num.natAbs = num at habs ⊢
  generalize q.den = den at habs hden ⊢
  rw [habs, div_lt_div_iff₀ (by positivity) hden, div_eq_div_iff (by positivity) (by positivity)]
  have hright : (num : ℚ) * (2 * 2 ^ f.scale) = ((2 * (num * 2 ^ f.scale) : Nat) : ℚ) := by
    push_cast
    ring
  rw [hright]
  norm_cast

theorem code_mono (hprecision : 1 < f.precision) (hp : 0 ≤ p) (h : p ≤ q) :
    f.code p ≤ f.code q := by
  refine le_of_forall_lt fun c hc => ?_
  rw [lt_code_iff hprecision hp] at hc
  rw [lt_code_iff hprecision (hp.trans h)]
  rcases hc with hlt | ⟨heq, hodd⟩
  · exact Or.inl (lt_of_lt_of_le hlt h)
  · rcases h.lt_or_eq with hlt | rfl
    · exact Or.inl (heq ▸ hlt)
    · exact Or.inr ⟨heq, hodd⟩

/-- A number of a format has its code. -/
theorem code_value (hprecision : 0 < f.precision) (c : Nat) : f.code (f.value c) = c := by
  have hround : f.round (f.units c) (2 ^ f.scale) = f.code (f.units c / (2 ^ f.scale : Nat)) :=
    round_eq_code (Nat.two_pow_pos f.scale)
  rw [round_units hprecision, Nat.cast_pow, Nat.cast_ofNat] at hround
  exact hround.symm

/-! ## The nearest code -/

theorem middle_le_of_lt_code (hprecision : 1 < f.precision) (hq : 0 ≤ q) (h : c < f.code q) :
    f.middle c ≤ q := by
  rcases (lt_code_iff hprecision hq).mp h with hlt | ⟨heq, -⟩
  · exact hlt.le
  · exact heq.le

theorem le_middle_of_code_le (hprecision : 1 < f.precision) (hq : 0 ≤ q) (h : f.code q ≤ c) :
    q ≤ f.middle c := by
  by_contra hlt
  exact h.not_gt ((lt_code_iff hprecision hq).mpr (Or.inl (not_le.mp hlt)))

/-- No code stands for a number that is nearer, and if another one is as near, the code is
even. -/
structure IsNearest (f : Format) (q : ℚ) (c : Nat) : Prop where
  nearest : ∀ other, |f.value c - q| ≤ |f.value other - q|
  even : ∀ other, other ≠ c → |f.value c - q| = |f.value other - q| → c % 2 = 0

/-- A number is rounded to the nearest one, a half to the even code. -/
theorem isNearest_code (hprecision : 1 < f.precision) (hq : 0 ≤ q) :
    f.IsNearest q (f.code q) := by
  have hmono : StrictMono f.value := value_strictMono (by omega)
  have habove := le_middle_of_code_le hprecision hq (Nat.le_refl (f.code q))
  have htie : f.middle (f.code q) = q → f.code q % 2 = 0 := by
    intro heq
    have hnot := mt (lt_code_iff hprecision hq).mpr (Nat.lt_irrefl (f.code q))
    simp only [heq, true_and, not_or] at hnot
    omega
  have hbelow : ∀ other < f.code q, ∃ before, other ≤ before ∧ f.code q = before + 1 ∧
      f.middle before ≤ q ∧ (f.middle before = q → f.code q % 2 = 0) := by
    intro other hother
    obtain ⟨before, hbefore⟩ := Nat.exists_eq_succ_of_ne_zero (Nat.ne_zero_of_lt hother)
    have hlt : before < f.code q := by omega
    refine ⟨before, by omega, hbefore, middle_le_of_lt_code hprecision hq hlt, fun heq => ?_⟩
    rcases (lt_code_iff hprecision hq).mp hlt with hne | ⟨-, hodd⟩
    · exact absurd heq hne.ne
    · omega
  constructor
  · intro other
    rcases Nat.lt_trichotomy other (f.code q) with hlt | heq | hgt
    · obtain ⟨before, hle, hcode, hmiddle, -⟩ := hbelow other hlt
      have hother := hmono.monotone hle
      have hless := hmono hlt
      rw [middle, ← hcode] at hmiddle
      refine le_trans (abs_le.mpr ⟨?_, ?_⟩) (neg_le_abs _) <;> linarith
    · rw [heq]
    · have hother := hmono.monotone (Nat.succ_le_of_lt hgt)
      have hless := hmono hgt
      rw [middle] at habove
      refine le_trans (abs_le.mpr ⟨?_, ?_⟩) (le_abs_self _) <;> linarith
  · intro other hne hsame
    rcases Nat.lt_or_gt_of_ne hne with hlt | hgt
    · obtain ⟨before, hle, hcode, hmiddle, hodd⟩ := hbelow other hlt
      have hother := hmono.monotone hle
      have hless := hmono hlt
      apply hodd
      rw [middle, ← hcode] at hmiddle ⊢
      rcases abs_eq_abs.mp hsame with heq | heq <;> linarith
    · have hother := hmono.monotone (Nat.succ_le_of_lt hgt)
      have hless := hmono hgt
      apply htie
      rw [middle] at habove ⊢
      rcases abs_eq_abs.mp hsame with heq | heq <;> linarith

/-- Only one code is nearest. -/
theorem IsNearest.unique (hprecision : 0 < f.precision) (h : f.IsNearest q c)
    (h' : f.IsNearest q other) : c = other := by
  have hmono : StrictMono f.value := value_strictMono hprecision
  -- Of two codes, the number would be the middle, and any code between them would be nearer.
  have hordered : ∀ {a b}, f.IsNearest q a → f.IsNearest q b → ¬a < b := by
    intro a b ha hb hlt
    have hsame := le_antisymm (ha.nearest b) (hb.nearest a)
    have hless := hmono hlt
    have heven := ha.even b hlt.ne' hsame
    have heven' := hb.even a hlt.ne hsame.symm
    have hbetween := hmono (Nat.lt_succ_self a)
    have hbetween' := hmono (show a + 1 < b by omega)
    have hnear := ha.nearest (a + 1)
    have hmiddle : f.value a - q = -(f.value b - q) := by
      rcases abs_eq_abs.mp hsame with heq | heq
      · linarith
      · exact heq
    rw [abs_of_nonpos (by linarith)] at hnear
    rcases abs_cases (f.value (a + 1) - q) with ⟨habs, -⟩ | ⟨habs, -⟩ <;> linarith
  exact Nat.le_antisymm (Nat.le_of_not_lt (hordered h' h)) (Nat.le_of_not_lt (hordered h h'))

/-- Beyond the greatest number of 32 bits, and half of a step more, is what is rounded beyond
the finite numbers. -/
theorem limit_le_code_iff (hq : 0 ≤ q) :
    single.limit ≤ single.code q ↔ 2 ^ 128 - 2 ^ 103 ≤ q := by
  have hmiddle : single.middle (single.limit - 1) = 2 ^ 128 - 2 ^ 103 := by
    rw [middle_eq]
    norm_num [units, single]
  have hodd : (single.limit - 1) % 2 = 1 := by decide
  have hlimit : 0 < single.limit := by decide
  calc
    single.limit ≤ single.code q ↔ single.limit - 1 < single.code q := by omega
    _ ↔ 2 ^ 128 - 2 ^ 103 < q ∨ 2 ^ 128 - 2 ^ 103 = q ∧ (single.limit - 1) % 2 = 1 := by
      rw [lt_code_iff (by decide) hq, hmiddle]
    _ ↔ 2 ^ 128 - 2 ^ 103 ≤ q := by simp [hodd, le_iff_lt_or_eq]

end Format

end Numeric

end MiniLox
