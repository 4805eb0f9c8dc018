import MiniLox.Proofs.Numeric.Twice

/-!
# Values of numbers

A finite number has a rational value.  The finite numbers of 32 bits are given by a sign and a
code of their format, and a quotient that is rounded to 64 bits and then to 32 has the code that
it has when it is rounded twice.
-/

namespace MiniLox

open Numeric

namespace Magnitude

open Format

variable {m : Magnitude}

/-- The value of a magnitude. -/
def value (m : Magnitude) : ℚ := double.value m.code

theorem eq_of_value_eq {a b : Magnitude} (h : a.value = b.value) : a = b := by
  obtain ⟨code, hlt⟩ := a
  obtain ⟨code', hlt'⟩ := b
  obtain rfl : code = code' := (value_strictMono (f := double) (by decide)).injective h
  rfl

theorem code_eq_zero_iff : m.code = 0 ↔ m.value = 0 := by
  rw [value, ← value_zero double, (value_strictMono (by decide)).injective.eq_iff]

theorem cast_units (m : Magnitude) : (m.units : ℚ) = m.value * 2 ^ double.scale := by
  rw [value, Format.value, units]
  field_simp

theorem units_pos_of_value_ne_zero (h : m.value ≠ 0) : 0 < m.units := by
  apply Nat.pos_of_ne_zero
  intro hzero
  have hcast := cast_units m
  rw [hzero, Nat.cast_zero, eq_comm, mul_eq_zero] at hcast
  exact hcast.elim h (by positivity)

end Magnitude

namespace Number

open Format

variable {negative : Bool} {m : Magnitude} {c : Nat}

/-- The value of a finite number. -/
def value : Number → ℚ
  | .finite negative m => if negative then -m.value else m.value
  | _ => 0

/-- The number of 32 bits with a code, an infinity when the code is beyond the finite ones. -/
def ofSingle (negative : Bool) (c : Nat) : Number :=
  if c < single.limit then ofRatio negative (single.units c) (2 ^ single.scale)
  else .infinity negative

theorem value_neg (n : Number) : n.neg.value = -n.value := by
  cases n with
  | nan | infinity negative => simp [neg, value]
  | finite negative m => cases negative <;> simp [neg, value]

theorem abs_value_finite (negative : Bool) (m : Magnitude) :
    |(finite negative m).value| = m.value := by
  have hnonneg : 0 ≤ m.value := value_nonneg _ _
  cases negative <;> simp [value, abs_of_nonneg hnonneg]

theorem exists_ofSingle_eq (hc : c < single.limit) :
    ∃ m : Magnitude, m.value = single.value c ∧
      ∀ negative, ofSingle negative c = .finite negative m := by
  obtain ⟨wide, hwide, hunits⟩ := exists_double_eq hc
  refine ⟨⟨wide, hwide⟩, ?_, fun negative => ?_⟩
  · rw [Magnitude.value, Format.value, Format.value,
      div_eq_div_iff (by positivity) (by positivity)]
    exact_mod_cast hunits
  · rw [ofSingle, if_pos hc, ofRatio_units hwide hunits]

theorem toSingle_finite (negative : Bool) (m : Magnitude) :
    (finite negative m).toSingle = ofSingle negative (single.code m.value) := by
  have hround : single.round m.units (2 ^ double.scale) = single.code m.value := by
    rw [round_eq_code (Nat.two_pow_pos _), Nat.cast_pow, Nat.cast_ofNat]
    rfl
  rw [toSingle, hround, ofSingle]

/-- What is beyond the finite numbers of 64 bits is beyond those of 32. -/
theorem two_pow_le_value_limit : 2 ^ 128 ≤ double.value double.limit := by
  have hone : 1 < 2 ^ double.precision := by decide
  obtain ⟨w, hunits, hw⟩ := exists_units_eq (by decide) hone (128 + double.scale)
  have hvalue : double.value w = 2 ^ 128 := by
    rw [Format.value, hunits, Nat.one_mul, Nat.cast_pow, Nat.cast_ofNat, pow_add,
      mul_div_cancel_right₀ _ (by positivity)]
  have hle : w ≤ double.limit := hw.le.trans (by decide)
  rw [← hvalue]
  exact (value_strictMono (by decide)).monotone hle

/-- What is rounded to 64 bits and then to 32 is rounded twice. -/
theorem toSingle_ofRatio {num den : Nat} (hden : 0 < den) (negative : Bool) :
    (ofRatio negative num den).toSingle =
      ofSingle negative (twice ((num : ℚ) / (den : ℚ))) := by
  rw [ofRatio, round_eq_code hden, ofCode]
  split
  · exact toSingle_finite _ _
  · next hlarge =>
    have hle := (value_strictMono (f := double) (by decide)).monotone (not_lt.mp hlarge)
    have hlimit := two_pow_le_value_limit
    have hbeyond : single.limit ≤ twice ((num : ℚ) / (den : ℚ)) :=
      (limit_le_code_iff (value_nonneg _ _)).mpr (by linarith)
    rw [ofSingle, if_neg (not_lt.mpr hbeyond)]
    rfl

/-- A finite number of 32 bits has a code of their format. -/
theorem exists_code_of_isSingle (h : (finite negative m).IsSingle) :
    ∃ c < single.limit, m.value = single.value c ∧
      ∀ negative, ofSingle negative c = .finite negative m := by
  rw [IsSingle, toSingle_finite] at h
  by_cases hc : single.code m.value < single.limit
  · obtain ⟨other, hvalue, hother⟩ := exists_ofSingle_eq hc
    rw [hother] at h
    cases h
    exact ⟨_, hc, hvalue, hother⟩
  · rw [ofSingle, if_neg hc] at h
    cases h

theorem lt_limit_of_ofSingle_eq (h : ofSingle negative c = .finite negative m) :
    c < single.limit := by
  by_contra hc
  rw [ofSingle, if_neg hc] at h
  cases h

theorem value_of_ofSingle_eq (h : ofSingle negative c = .finite negative m) :
    m.value = single.value c := by
  obtain ⟨other, hvalue, hother⟩ := exists_ofSingle_eq (lt_limit_of_ofSingle_eq h)
  rw [hother] at h
  cases h
  exact hvalue

/-- A finite number of 32 bits tells its sign and its code. -/
theorem ofSingle_eq_finite_iff {other : Nat} {s t : Bool}
    (hc : ∀ negative, ofSingle negative c = .finite negative m) :
    ofSingle s other = .finite t m ↔ s = t ∧ other = c := by
  constructor
  · intro h
    have hsign : s = t := by
      by_cases hlarge : other < single.limit
      · obtain ⟨m', -, hm'⟩ := exists_ofSingle_eq hlarge
        rw [hm'] at h
        cases h
        rfl
      · rw [ofSingle, if_neg hlarge] at h
        cases h
    subst hsign
    have hvalue := (value_of_ofSingle_eq h).symm.trans (value_of_ofSingle_eq (hc s))
    exact ⟨rfl, (value_strictMono (by decide)).injective hvalue⟩
  · rintro ⟨rfl, rfl⟩
    exact hc s

end Number

end MiniLox
