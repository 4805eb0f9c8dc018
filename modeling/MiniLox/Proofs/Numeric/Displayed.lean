import MiniLox.Numeric.Display
import MiniLox.Proofs.Numeric.Digits
import MiniLox.Proofs.Numeric.Single

/-!
# The text of a number of 32 bits

The output of a program shows a number in positional form: digits, perhaps with a point among
them, and no exponent.  For a number of 32 bits they are the first rounded decimal of at most
nine digits that is read as the number.  Where there were none, the digits that identify it among
the numbers of 64 bits would be shown, which are read as the number as well.  Either way the text
is read as the number again.
-/

namespace MiniLox

open Numeric Decimal

namespace Magnitude

variable {m : Magnitude}

theorem eq_of_code_eq_zero (hcode : m.code = 0) (negative : Bool) :
    Number.ofCode negative 0 = .finite negative m := by
  obtain ⟨code, hlt⟩ := m
  obtain rfl : code = 0 := hcode
  rw [Number.ofCode, dif_pos hlt]

theorem toNumber_of_coefficient_eq_zero {d : Decimal} (h : d.coefficient = 0) (negative : Bool) :
    d.toNumber negative = Number.ofCode negative 0 := by
  rw [toNumber, if_pos h]

theorem toSingle_ofCode_zero : (Number.ofCode false 0).toSingle = Number.ofCode false 0 := by
  decide +kernel

/-- A decimal that is read as a number other than zero is not zero. -/
theorem coefficient_ne_zero {d : Decimal} (hcode : m.code ≠ 0)
    (h : (d.toNumber false).toSingle = .finite false m) : d.coefficient ≠ 0 := by
  intro hzero
  rw [toNumber_of_coefficient_eq_zero hzero, toSingle_ofCode_zero, Number.ofCode] at h
  split at h
  · cases h
    exact hcode rfl
  · cases h

/-- The decimal that is shown is read as the number. -/
theorem toSingle_toNumber_shown (hsingle : (Number.finite false m).IsSingle) (hcode : m.code ≠ 0) :
    ((m.shortestSingle?.getD m.shortest).toNumber false).toSingle = .finite false m := by
  -- That one of the nine decimals is found need not be known: both outcomes are read back.
  cases hfound : m.shortestSingle? with
  | none => rw [Option.getD_none, toNumber_shortest hcode, hsingle]
  | some d =>
      have hreads : m.readsBackSingle d = true := List.find?_some hfound
      rwa [readsBackSingle, beq_iff_eq] at hreads

end Magnitude

namespace Number

variable {m : Magnitude}

theorem display_finite_true (m : Magnitude) :
    (finite true m).display = "-" ++ (finite false m).display := rfl

/-- A number of 32 bits without a minus is shown as digits before and behind a point, which are
read as the number again. -/
theorem exists_display_eq (hsingle : (finite false m).IsSingle) :
    ∃ whole fraction, (finite false m).display.toList = whole ++ pointed fraction ∧
      IsWhole whole ∧ (∀ c ∈ fraction, c.isDigit) ∧
      ((ofDigits whole fraction).toNumber false).toSingle = .finite false m := by
  have hdisplay : (finite false m).display =
      if m.code = 0 then "0" else (m.shortestSingle?.getD m.shortest).positional := rfl
  rw [hdisplay]
  by_cases hcode : m.code = 0
  · refine ⟨['0'], [], ?_, .inl rfl, List.forall_mem_nil _, ?_⟩
    · rw [if_pos hcode]
      rfl
    · rw [Magnitude.toNumber_of_coefficient_eq_zero rfl, Magnitude.eq_of_code_eq_zero hcode,
        hsingle]
  · have hshown := Magnitude.toSingle_toNumber_shown hsingle hcode
    obtain ⟨whole, fraction, htext, hwhole, hfraction, hvalue⟩ :=
      exists_positional_eq (Magnitude.coefficient_ne_zero hcode hshown)
    refine ⟨whole, fraction, ?_, hwhole, hfraction, ?_⟩
    · rw [if_neg hcode, htext]
    · rw [hvalue, hshown]

end Number

end MiniLox
