import MiniLox.Numeric.Number
import MiniLox.Proofs.Numeric.Rounding

/-!
# Numbers of 32 bits

Every number of 32 bits is one of 64: its digits are few enough, and its exponent is within
the wider range.  To round a number to 32 bits therefore loses nothing twice, and what comes
out of rounding stays as it is when it is rounded again.
-/

namespace MiniLox

namespace Numeric.Format

variable {f : Format}

/-- A number of a format is nearest to itself. -/
theorem round_units (hprecision : 0 < f.precision) (code : Nat) :
    f.round (f.units code) (2 ^ f.scale) = code :=
  round_of_near hprecision (Nat.two_pow_pos _) (Nat.lt_succ_self _) (Nat.le_add_right _ _)
    (Nat.le_add_right _ _)

/-- A multiple of at least half of the digits of the precision is counted by a code. -/
theorem units_of_multiple {exponent multiple : Nat} (hprecision : 0 < f.precision)
    (hle : 2 ^ (f.precision - 1) ≤ multiple) (hlt : multiple < 2 ^ f.precision) :
    f.units (exponent * 2 ^ (f.precision - 1) + multiple) = multiple * 2 ^ exponent := by
  have hhalf : 0 < 2 ^ (f.precision - 1) := Nat.two_pow_pos _
  rw [two_pow_precision hprecision] at hlt
  obtain ⟨digits, rfl⟩ := Nat.exists_eq_add_of_le hle
  have hdigits : digits < 2 ^ (f.precision - 1) := by omega
  have hcode : exponent * 2 ^ (f.precision - 1) + (2 ^ (f.precision - 1) + digits) =
      digits + (exponent + 1) * 2 ^ (f.precision - 1) := by
    rw [Nat.add_mul, Nat.one_mul]
    omega
  have hlarge : ¬digits + (exponent + 1) * 2 ^ (f.precision - 1) < 2 ^ (f.precision - 1) := by
    rw [Nat.add_mul, Nat.one_mul]
    omega
  rw [hcode, units, if_neg hlarge, Nat.add_mul_mod_self_right, Nat.mod_eq_of_lt hdigits,
    Nat.add_mul_div_right _ _ hhalf, Nat.div_eq_of_lt hdigits, Nat.zero_add, Nat.add_sub_cancel,
    Nat.add_comm digits]

/-- Every number whose digits fit the precision has a code, of the size of its exponent. -/
theorem exists_units_eq (hprecision : 0 < f.precision) {multiple : Nat}
    (hmultiple : multiple < 2 ^ f.precision) (exponent : Nat) :
    ∃ code, f.units code = multiple * 2 ^ exponent ∧
      code < (exponent + 2) * 2 ^ (f.precision - 1) := by
  have hdouble := two_pow_precision hprecision
  by_cases hle : 2 ^ (f.precision - 1) ≤ multiple
  · refine ⟨_, units_of_multiple hprecision hle hmultiple, ?_⟩
    rw [Nat.add_mul]
    omega
  · induction exponent generalizing multiple with
    | zero =>
        refine ⟨multiple, ?_, by omega⟩
        rw [units, if_pos (Nat.lt_of_not_le hle), Nat.pow_zero, Nat.mul_one]
    | succ exponent ih =>
        -- One factor of two goes to the multiple, until it has all of its digits.
        have hshift : multiple * 2 ^ (exponent + 1) = 2 * multiple * 2 ^ exponent := by
          rw [Nat.pow_succ', ← Nat.mul_assoc, Nat.mul_comm multiple]
        rw [hshift]
        by_cases hfull : 2 ^ (f.precision - 1) ≤ 2 * multiple
        · refine ⟨_, units_of_multiple hprecision hfull (by omega), ?_⟩
          rw [Nat.add_mul, Nat.add_mul]
          omega
        · obtain ⟨code, hunits, hcode⟩ := ih (by omega) hfull
          refine ⟨code, hunits, Nat.lt_of_lt_of_le hcode (Nat.mul_le_mul_right _ ?_)⟩
          omega

/-- The numbers of 32 bits are numbers of 64 bits. -/
theorem exists_double_eq {code : Nat} (hcode : code < single.limit) :
    ∃ wide, wide < double.limit ∧
      double.units wide * 2 ^ single.scale = single.units code * 2 ^ double.scale := by
  obtain ⟨exponent, multiple, h⟩ := exists_isMultiple (f := single) (by decide) code
  have hexponent : exponent < 255 := by
    have hle : exponent * 2 ^ 23 ≤ code := Nat.le.intro h.code_eq.symm
    have hlt : exponent * 2 ^ 23 < 255 * 2 ^ 23 := Nat.lt_of_le_of_lt hle hcode
    exact Nat.lt_of_mul_lt_mul_right hlt
  have hmultiple : multiple < 2 ^ double.precision :=
    Nat.lt_trans h.multiple_lt (Nat.pow_lt_pow_right (by decide) (by decide))
  obtain ⟨wide, hunits, hwide⟩ := exists_units_eq (f := double) (by decide) hmultiple
    (exponent + (double.scale - single.scale))
  refine ⟨wide, ?_, ?_⟩
  · refine Nat.lt_of_lt_of_le hwide (Nat.mul_le_mul_right (2 ^ 52) ?_)
    change exponent + 925 + 2 ≤ 2047
    omega
  · rw [hunits, h.units_eq, Nat.mul_assoc, Nat.mul_assoc, ← Nat.pow_add, ← Nat.pow_add]
    rfl

end Numeric.Format

open Numeric

namespace Number

variable {n : Number}

theorem neg_ofCode (negative : Bool) (code : Nat) :
    (ofCode negative code).neg = ofCode (!negative) code := by
  rw [ofCode, ofCode]
  split <;> rfl

/-- The number of 64 bits that a number of 32 bits is. -/
theorem ofRatio_units {wide code : Nat} (hwide : wide < Format.double.limit)
    (hunits : Format.double.units wide * 2 ^ Format.single.scale =
      Format.single.units code * 2 ^ Format.double.scale) (negative : Bool) :
    ofRatio negative (Format.single.units code) (2 ^ Format.single.scale) =
      .finite negative ⟨wide, hwide⟩ := by
  have hround : Format.double.round (Format.single.units code) (2 ^ Format.single.scale) =
      wide := by
    rw [← Format.round_units (f := Format.double) (by decide) wide]
    exact Format.round_eq_round (Nat.two_pow_pos _) (Nat.two_pow_pos _) hunits.symm
  rw [ofRatio, hround, ofCode, dif_pos hwide]

/-- What was rounded to 32 bits is a number of 32 bits. -/
theorem isSingle_toSingle (n : Number) : n.toSingle.IsSingle := by
  cases n with
  | nan => rfl
  | infinity negative => rfl
  | finite negative m =>
      rw [toSingle]
      split
      · next hcode =>
        obtain ⟨wide, hwide, hunits⟩ := Format.exists_double_eq hcode
        have hround : Format.single.round (Format.double.units wide) (2 ^ Format.double.scale) =
            Format.single.round m.units (2 ^ Format.double.scale) := by
          rw [Format.round_eq_round (Nat.two_pow_pos _) (Nat.two_pow_pos _) hunits,
            Format.round_units (by decide)]
        rw [ofRatio_units hwide hunits, IsSingle, toSingle, Magnitude.units, hround,
          if_pos hcode, ofRatio_units hwide hunits]
      · rfl

theorem toSingle_neg (n : Number) : n.neg.toSingle = n.toSingle.neg := by
  cases n with
  | nan => rfl
  | infinity negative => rfl
  | finite negative m =>
      rw [neg, toSingle, toSingle]
      split
      · rw [ofRatio, ofRatio, neg_ofCode]
      · rfl

theorem IsSingle.neg (h : n.IsSingle) : n.neg.IsSingle := by
  rw [IsSingle, toSingle_neg, h]

/-- The number is no result of an operation that has none, and has no minus. -/
def IsUnsigned (n : Number) : Prop := n = .infinity false ∨ ∃ m, n = .finite false m

theorem isUnsigned_ofCode (code : Nat) : (ofCode false code).IsUnsigned := by
  rw [ofCode]
  split
  · exact Or.inr ⟨_, rfl⟩
  · exact Or.inl rfl

theorem IsUnsigned.toSingle (h : n.IsUnsigned) : n.toSingle.IsUnsigned := by
  rcases h with rfl | ⟨m, rfl⟩
  · exact Or.inl rfl
  · rw [Number.toSingle]
    split
    · exact isUnsigned_ofCode _
    · exact Or.inl rfl

end Number

end MiniLox
