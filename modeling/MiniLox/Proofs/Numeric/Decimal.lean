import MiniLox.Numeric.Display
import MiniLox.Proofs.Numeric.Rounding

/-!
# Decimals of numbers

A decimal is read as the number nearest to the quotient that it writes, also where no power is
formed.  So decimals that write the same quotient are read as the same number.

Seventeen digits are enough to tell a number: the decimal that rounds a number to seventeen
digits is nearer to it than any other number is.  The shortest decimal of a number is therefore
read as the number.
-/

namespace MiniLox

open Numeric

namespace Decimal

variable {num den digits : Nat}

/-! ## Reading -/

theorem den_pos (d : Decimal) : 0 < d.den := Nat.pow_pos (by decide)

theorem lt_pow_digitCount (n : Nat) : n < 10 ^ digitCount n :=
  (Nat.length_toDigits_le_iff (by decide) Nat.length_toDigits_pos).mp (Nat.le_refl _)

theorem pow_le_of_digitCount {n : Nat} (hn : n ≠ 0) : 10 ^ (digitCount n - 1) ≤ n := by
  rw [← Nat.not_lt]
  intro hlt
  by_cases hone : digitCount n - 1 = 0
  · rw [hone, Nat.pow_zero] at hlt
    omega
  · have hle := (Nat.length_toDigits_le_iff (by decide) (by omega)).mpr hlt
    rw [digitCount] at hone hle
    omega

theorem two_pow_le_ten_pow (k : Nat) : 2 ^ (3 * k) ≤ 10 ^ k := by
  rw [Nat.pow_mul]
  exact Nat.pow_le_pow_left (by decide) k

/-- A quotient of more than four hundred digits is beyond the finite numbers. -/
theorem limit_le_round {d : Decimal} (hcoefficient : d.coefficient ≠ 0)
    (hexponent : 400 < d.exponent) :
    Format.double.limit ≤ Format.double.round d.num d.den := by
  have hden : d.den = 1 := by
    rw [den, Int.toNat_eq_zero.mpr (by omega), Nat.pow_zero]
  have hnum : 2 ^ (3 * d.exponent.toNat) ≤ d.num :=
    Nat.le_trans (two_pow_le_ten_pow _)
      (Nat.le_mul_of_pos_left _ (Nat.pos_of_ne_zero hcoefficient))
  have hscaled : 2 ^ (3 * d.exponent.toNat + Format.double.scale) ≤
      d.num * 2 ^ Format.double.scale / d.den := by
    rw [hden, Nat.div_one, Nat.pow_add]
    exact Nat.mul_le_mul_right _ hnum
  have hlog := (Nat.le_log2 (Nat.ne_of_gt (Nat.lt_of_lt_of_le (Nat.two_pow_pos _) hscaled))).mpr
    hscaled
  have hexcess : 2047 ≤ Format.double.excess (d.num * 2 ^ Format.double.scale / d.den) := by
    change _ + 1074 ≤ _ at hlog
    change _ ≤ _ - 53
    omega
  exact Nat.le_trans (Nat.mul_le_mul_right (2 ^ 52) hexcess) (Nat.le_add_right _ _)

/-- A quotient that begins more than four hundred places after the point is nearest to zero. -/
theorem round_eq_zero {d : Decimal}
    (hexponent : (digitCount d.coefficient : Int) + d.exponent < -400) :
    Format.double.round d.num d.den = 0 := by
  have hnum : d.num = d.coefficient := by
    rw [num, Int.toNat_eq_zero.mpr (by omega), Nat.pow_zero, Nat.mul_one]
  obtain ⟨places, hplaces⟩ :
      ∃ places, (-d.exponent).toNat = digitCount d.coefficient + places :=
    Nat.exists_eq_add_of_le (by omega)
  have hpower : 2 * 2 ^ Format.double.scale ≤ 10 ^ places := by
    rw [← Nat.pow_succ']
    refine Nat.le_trans (Nat.pow_le_pow_right (by decide) ?_) (two_pow_le_ten_pow places)
    change 1074 + 1 ≤ _
    omega
  apply Format.round_eq_zero (by decide)
  rw [hnum, den, hplaces, Nat.pow_add, Nat.mul_left_comm]
  exact Nat.mul_lt_mul_of_lt_of_le (lt_pow_digitCount _) hpower (Nat.pow_pos (by decide))

theorem toNumber_eq (d : Decimal) (negative : Bool) :
    d.toNumber negative = Number.ofCode negative (Format.double.round d.num d.den) := by
  rw [toNumber]
  split
  · next hzero =>
    rw [Format.round_eq_zero (by decide)]
    rw [num, hzero, Nat.zero_mul, Nat.zero_mul]
    exact d.den_pos
  · next hcoefficient =>
    split
    · next hlarge =>
      rw [Number.ofCode, dif_neg (Nat.not_lt_of_le (limit_le_round hcoefficient hlarge))]
    · split
      · next hsmall => rw [round_eq_zero hsmall]
      · rfl

/-- A decimal is read as the same number with zeros after its coefficient. -/
theorem toNumber_scale (coefficient : Nat) (exponent : Int) (zeros : Nat) (negative : Bool) :
    toNumber negative ⟨coefficient * 10 ^ zeros, exponent - zeros⟩ =
      toNumber negative ⟨coefficient, exponent⟩ := by
  have hquotient :
      num ⟨coefficient * 10 ^ zeros, exponent - zeros⟩ * den ⟨coefficient, exponent⟩ =
        num ⟨coefficient, exponent⟩ * den ⟨coefficient * 10 ^ zeros, exponent - zeros⟩ := by
    rw [num, den, num, den, Nat.mul_assoc, Nat.mul_assoc, Nat.mul_assoc, ← Nat.pow_add,
      ← Nat.pow_add, ← Nat.pow_add]
    congr 2
    dsimp only
    omega
  rw [toNumber_eq, toNumber_eq, Format.round_eq_round (den_pos _) (den_pos _) hquotient]

/-! ## Digits of a quotient -/

/-- The exponent of the leading digit is that of a power of ten that the quotient reaches. -/
theorem pow_leadingExponent_le (hnum : 0 < num) (hden : 0 < den) :
    den * 10 ^ (leadingExponent num den).toNat ≤ num * 10 ^ (-leadingExponent num den).toNat := by
  rw [leadingExponent]
  split
  · next hle =>
    have hquotient : num / den ≠ 0 := Nat.ne_of_gt (Nat.div_pos hle hden)
    have hdigits : 0 < digitCount (num / den) := Nat.length_toDigits_pos
    have hpow := pow_le_of_digitCount hquotient
    rw [show ((digitCount (num / den) : Int) - 1).toNat = digitCount (num / den) - 1 by omega,
      show (-((digitCount (num / den) : Int) - 1)).toNat = 0 by omega, Nat.pow_zero, Nat.mul_one,
      Nat.mul_comm]
    exact (Nat.le_div_iff_mul_le hden).mp hpow
  · generalize hupper : (den + num - 1) / num = upper
    have hle : upper ≤ 10 ^ digitCount (upper - 1) := by
      have := lt_pow_digitCount (upper - 1)
      omega
    have hden : den ≤ num * upper := by
      have hdivide := Nat.div_add_mod (den + num - 1) num
      have hmod := Nat.mod_lt (den + num - 1) hnum
      rw [hupper] at hdivide
      omega
    rw [Int.toNat_eq_zero.mpr (by omega), Int.neg_neg, Int.toNat_natCast, Nat.pow_zero,
      Nat.mul_one]
    exact Nat.le_trans hden (Nat.mul_le_mul_left num hle)

/-- A quotient as a multiple of the place of the last of its significant digits. -/
theorem pow_digits_le (hnum : 0 < num) (hden : 0 < den) (digits : Nat) :
    10 ^ (digits - 1) * (den * 10 ^ (lastExponent num den digits).toNat) ≤
      num * 10 ^ (-lastExponent num den digits).toNat := by
  have hleading := pow_leadingExponent_le hnum hden
  rw [lastExponent]
  generalize leadingExponent num den = leading at hleading
  generalize digits - 1 = further
  apply Nat.le_of_mul_le_mul_right ?_ (Nat.pow_pos (n := (-leading).toNat) (by decide : 0 < 10))
  calc 10 ^ further * (den * 10 ^ (leading - further).toNat) * 10 ^ (-leading).toNat
      = den * 10 ^ leading.toNat * 10 ^ (-(leading - further)).toNat := by
        rw [Nat.mul_left_comm, Nat.mul_assoc, Nat.mul_assoc, Nat.mul_assoc, ← Nat.pow_add,
          ← Nat.pow_add, ← Nat.pow_add]
        congr 2
        omega
    _ ≤ num * 10 ^ (-leading).toNat * 10 ^ (-(leading - further)).toNat :=
        Nat.mul_le_mul_right _ hleading
    _ = num * 10 ^ (-(leading - further)).toNat * 10 ^ (-leading).toNat :=
        Nat.mul_right_comm ..

/-- A difference of half a step, where many steps make up a bound, is small beside the bound. -/
theorem near_of_half {a b step near bound : Nat} (h : 2 * a ≤ 2 * b + step)
    (hbound : near * step ≤ bound) : 2 * near * a ≤ 2 * near * b + bound :=
  calc 2 * near * a = near * (2 * a) := by rw [Nat.mul_comm 2, Nat.mul_assoc]
    _ ≤ near * (2 * b + step) := Nat.mul_le_mul_left near h
    _ = 2 * near * b + near * step := by
        rw [Nat.mul_add, ← Nat.mul_assoc, Nat.mul_comm near 2]
    _ ≤ 2 * near * b + bound := Nat.add_le_add_left hbound _

/-- Rounded to more digits than the precision needs, a number of a format is read as itself. -/
theorem round_roundQuotient {f : Format} {code : Nat} (hprecision : 0 < f.precision)
    (hdigits : 2 ^ f.precision < 10 ^ (digits - 1)) (hpositive : 0 < f.units code) :
    f.round (roundQuotient (f.units code) (2 ^ f.scale) digits).num
      (roundQuotient (f.units code) (2 ^ f.scale) digits).den = code := by
  have hscale : 0 < 2 ^ f.scale := Nat.two_pow_pos _
  have hlarge := pow_digits_le hpositive hscale digits
  have hstep : 0 < 2 ^ f.scale * 10 ^ (lastExponent (f.units code) (2 ^ f.scale) digits).toNat :=
    Nat.mul_pos hscale (Nat.pow_pos (by decide))
  have hbelow := two_mul_nearestEven_le
    (f.units code * 10 ^ (-lastExponent (f.units code) (2 ^ f.scale) digits).toNat) hstep
  have habove := le_two_mul_nearestEven
    (f.units code * 10 ^ (-lastExponent (f.units code) (2 ^ f.scale) digits).toNat) hstep
  rw [roundQuotient, num, den]
  dsimp only
  generalize lastExponent (f.units code) (2 ^ f.scale) digits = last at *
  generalize hnearest : nearestEven (f.units code * 10 ^ (-last).toNat)
    (2 ^ f.scale * 10 ^ last.toNat) = nearest at *
  have hscaled : nearest * 10 ^ last.toNat * 2 ^ f.scale =
      nearest * (2 ^ f.scale * 10 ^ last.toNat) := by
    rw [Nat.mul_assoc, Nat.mul_comm (10 ^ _)]
  apply Format.round_of_near hprecision (Nat.pow_pos (by decide)) hdigits
  · rw [hscaled]
    exact near_of_half habove hlarge
  · rw [hscaled]
    exact near_of_half hbelow hlarge

end Decimal

/-! ## Shortest decimals -/

namespace Magnitude

variable {m : Magnitude}

theorem toNumber_eq_finite_iff {d : Decimal} {negative : Bool} :
    d.toNumber negative = .finite negative m ↔ Format.double.round d.num d.den = m.code := by
  rw [Decimal.toNumber_eq, Number.ofCode]
  constructor
  · intro h
    split at h
    · cases h
      rfl
    · cases h
  · intro h
    rw [dif_pos (h ▸ m.code_lt)]
    congr

theorem readsBack_iff {d : Decimal} :
    m.readsBack d ↔ Format.double.round d.num d.den = m.code := by
  rw [readsBack, beq_iff_eq, toNumber_eq_finite_iff]

/-- Seventeen digits are enough. -/
theorem readsBack_roundTo (hcode : m.code ≠ 0) : m.readsBack (m.roundTo 17) :=
  readsBack_iff.mpr (Decimal.round_roundQuotient (by decide) (by decide)
    (Format.units_pos (by decide) hcode))

/-- Of the decimals next to a number, one is the number rounded. -/
theorem roundTo_eq_or (m : Magnitude) (digits : Nat) :
    let next := Decimal.neighbours m.units (2 ^ Format.double.scale) digits
    m.roundTo digits = next.1 ∨ m.roundTo digits = next.2 := by
  rw [roundTo, Decimal.roundQuotient, Decimal.neighbours, nearestEven]
  dsimp only
  split
  · exact .inl rfl
  · exact .inr rfl

theorem readsBack_nearestOfLength {digits : Nat} {d : Decimal}
    (h : m.nearestOfLength digits = some d) : m.readsBack d := by
  have hround := roundTo_eq_or m digits
  rw [nearestOfLength] at h
  generalize Decimal.neighbours m.units (2 ^ Format.double.scale) digits = next at h hround
  obtain ⟨below, above⟩ := next
  dsimp only at h hround
  split at h
  · next hbelow habove =>
    rw [← Option.some.inj h]
    rcases hround with hround | hround
    · rw [hround, hbelow]
    · rw [hround, habove]
  · next hbelow _ => rwa [← Option.some.inj h]
  · next _ habove => rwa [← Option.some.inj h]
  · cases h

theorem readsBack_shortest (hcode : m.code ≠ 0) : m.readsBack m.shortest := by
  rw [shortest]
  cases hfound : (List.range 17).findSome? fun n => m.nearestOfLength (n + 1) with
  | none => exact readsBack_roundTo hcode
  | some d =>
      obtain ⟨n, -, hn⟩ := List.exists_of_findSome?_eq_some hfound
      exact readsBack_nearestOfLength hn

theorem coefficient_shortest_ne_zero (hcode : m.code ≠ 0) : m.shortest.coefficient ≠ 0 := by
  intro hzero
  have hround := readsBack_iff.mp (readsBack_shortest hcode)
  rw [Decimal.num, hzero, Nat.zero_mul, Format.round_eq_zero (by decide)] at hround
  · exact hcode hround.symm
  · rw [Nat.zero_mul]
    exact Decimal.den_pos _

/-- The shortest decimal of a number is read as the number. -/
theorem toNumber_shortest (hcode : m.code ≠ 0) (negative : Bool) :
    m.shortest.toNumber negative = .finite negative m :=
  toNumber_eq_finite_iff.mpr (readsBack_iff.mp (readsBack_shortest hcode))

end Magnitude

end MiniLox
