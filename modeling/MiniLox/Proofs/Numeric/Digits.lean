import MiniLox.Proofs.Numeric.Decimal

/-!
# Decimals as text

The text of a decimal is made of digits before the point, digits after it and an exponent, of
which the last two may be missing.  As a decimal again, these parts differ from the first one
only in zeros at the end of the coefficient, so they are read as the same number.
-/

namespace MiniLox

open Numeric

namespace Decimal

variable {c : Char} {digits whole fraction : List Char}

/-! ## Digits -/

/-- The digits of a whole number: a zero alone, or no zero in front. -/
def IsWhole (digits : List Char) : Prop :=
  digits = ['0'] ∨ ∃ c rest, digits = c :: rest ∧ c ≠ '0' ∧ ∀ d ∈ digits, d.isDigit

theorem isDigit_singleton_zero : ∀ d ∈ ['0'], d.isDigit := by
  intro d hd
  cases List.mem_singleton.mp hd
  rfl

theorem IsWhole.isDigit (h : IsWhole digits) : ∀ d ∈ digits, d.isDigit := by
  rcases h with rfl | ⟨_, _, _, _, h⟩
  · exact isDigit_singleton_zero
  · exact h

theorem IsWhole.exists_eq_cons (h : IsWhole digits) :
    ∃ c rest, digits = c :: rest ∧ c.isDigit := by
  have hdigits := h.isDigit
  rcases h with rfl | ⟨c, rest, rfl, -, -⟩
  · exact ⟨'0', [], rfl, rfl⟩
  · exact ⟨c, rest, rfl, hdigits c List.mem_cons_self⟩

theorem isDigit_toDigits (n : Nat) : ∀ d ∈ Nat.toDigits 10 n, d.isDigit :=
  fun _ h => Nat.isDigit_of_mem_toDigits (by decide) (by decide) h

theorem exists_toDigits_eq_cons {n : Nat} (hn : n ≠ 0) :
    ∃ c rest, Nat.toDigits 10 n = c :: rest ∧ c ≠ '0' := by
  induction n using Nat.strongRecOn with
  | ind n ih =>
      rw [Nat.toDigits_eq_if (by decide)]
      split
      · exact ⟨_, _, rfl, fun hzero => hn (Nat.digitChar_eq_zero.mp hzero)⟩
      · obtain ⟨c, rest, hdigits, hc⟩ := ih (n / 10) (by omega) (by omega)
        exact ⟨c, _, by rw [hdigits, List.cons_append], hc⟩

theorem isWhole_toDigits (n : Nat) : IsWhole (Nat.toDigits 10 n) := by
  by_cases hn : n = 0
  · rw [hn]
    exact .inl (Nat.toDigits_zero 10)
  · obtain ⟨c, rest, hdigits, hc⟩ := exists_toDigits_eq_cons hn
    exact .inr ⟨c, rest, hdigits, hc, isDigit_toDigits n⟩

theorem isDigit_replicate_zero {n : Nat} : ∀ d ∈ List.replicate n '0', d.isDigit := by
  intro d hd
  rw [List.eq_of_mem_replicate hd]
  decide

/-- Digits are what is left without the zeros at their end, and these zeros. -/
theorem exists_eq_stripZeros_append (digits : List Char) :
    ∃ zeros, digits = stripZeros digits ++ List.replicate zeros '0' := by
  have hzeros : ∀ d ∈ digits.reverse.takeWhile (· == '0'), d = '0' := by
    intro d hd
    exact beq_iff_eq.mp (List.all_eq_true.mp List.all_takeWhile d hd)
  refine ⟨(digits.reverse.takeWhile (· == '0')).length, ?_⟩
  calc digits
      = (digits.reverse.takeWhile (· == '0') ++ digits.reverse.dropWhile (· == '0')).reverse := by
        rw [List.takeWhile_append_dropWhile, List.reverse_reverse]
    _ = stripZeros digits ++ (digits.reverse.takeWhile (· == '0')).reverse :=
        List.reverse_append
    _ = _ := by
        rw [List.eq_replicate_of_mem hzeros, List.reverse_replicate, List.length_replicate]

theorem isDigit_stripZeros (h : ∀ d ∈ digits, d.isDigit) : ∀ d ∈ stripZeros digits, d.isDigit := by
  obtain ⟨zeros, hdigits⟩ := exists_eq_stripZeros_append digits
  intro d hd
  exact h d (hdigits ▸ List.mem_append_left _ hd)

/-! ## Points -/

/-- The text of a fraction, which has no point if there are no digits. -/
def pointed : List Char → List Char
  | [] => []
  | c :: rest => '.' :: c :: rest

/-- Zeros at the end of a fraction do not change the number. -/
theorem toNumber_ofDigits_append_zeros (whole fraction : List Char) (zeros : Nat)
    (exponent : Int) (negative : Bool) :
    toNumber negative ⟨(ofDigits whole (fraction ++ List.replicate zeros '0')).coefficient,
        (ofDigits whole (fraction ++ List.replicate zeros '0')).exponent + exponent⟩ =
      toNumber negative ⟨(ofDigits whole fraction).coefficient,
        (ofDigits whole fraction).exponent + exponent⟩ := by
  rw [ofDigits, ofDigits, ← List.append_assoc, Nat.ofDigitChars_append,
    Nat.ofDigitChars_replicate_zero, Nat.mul_comm, List.length_append, List.length_replicate,
    ← toNumber_scale (Nat.ofDigitChars 10 (whole ++ fraction) 0) _ zeros]
  congr 2
  dsimp only
  omega

/-- With zeros in front, so that one digit at least is left, digits without those of the places
are a whole number. -/
theorem isWhole_take_padded {first : Char} {others digits : List Char} (places : Nat)
    (hfirst : digits = first :: others) (hzero : first ≠ '0') (hdigits : ∀ c ∈ digits, c.isDigit) :
    let padded := List.replicate (places + 1 - digits.length) '0' ++ digits
    IsWhole (padded.take (padded.length - places)) := by
  intro padded
  have hlength : padded.length = places + 1 - digits.length + digits.length := by
    rw [List.length_append, List.length_replicate]
  obtain ⟨further, hfurther⟩ : ∃ further, padded.length - places = further + 1 :=
    Nat.exists_eq_succ_of_ne_zero (by omega)
  rw [hfurther]
  by_cases hshort : digits.length ≤ places
  · obtain ⟨zeros, hzeros⟩ : ∃ zeros, places + 1 - digits.length = zeros + 1 :=
      Nat.exists_eq_succ_of_ne_zero (by omega)
    have hnone : further = 0 := by omega
    rw [hnone, show padded = List.replicate (zeros + 1) '0' ++ digits by rw [← hzeros],
      List.replicate_succ]
    exact .inl rfl
  · have hsame : padded = digits := by
      rw [show padded = List.replicate (places + 1 - digits.length) '0' ++ digits from rfl,
        Nat.sub_eq_zero_of_le (by omega), List.replicate_zero, List.nil_append]
    rw [hsame]
    refine .inr ⟨first, others.take further, ?_, hzero, ?_⟩
    · rw [hfirst, List.take_succ_cons]
    · exact fun d hd => hdigits d (List.mem_of_mem_take hd)

/-- A decimal that is split at its point is read as the same number. -/
theorem exists_split_eq {d : Decimal} (hcoefficient : d.coefficient ≠ 0) :
    ∃ whole fraction, d.split = (whole, fraction) ∧ IsWhole whole ∧
      (∀ c ∈ fraction, c.isDigit) ∧
      ∀ negative, toNumber negative (ofDigits whole fraction) = toNumber negative d := by
  obtain ⟨coefficient, exponent⟩ := d
  have hvalue : Nat.ofDigitChars 10 (Nat.toDigits 10 coefficient) 0 = coefficient :=
    Nat.ofDigitChars_toDigits (by decide) (by decide)
  have hdigits := isDigit_toDigits coefficient
  obtain ⟨first, others, hfirst, hzero⟩ := exists_toDigits_eq_cons hcoefficient
  rw [split]
  dsimp only at hcoefficient hvalue hdigits hfirst ⊢
  generalize Nat.toDigits 10 coefficient = digits at hvalue hdigits hfirst ⊢
  split
  · next hexponent =>
    have hwhole : IsWhole (digits ++ List.replicate exponent.toNat '0') := by
      refine .inr ⟨first, others ++ List.replicate exponent.toNat '0', ?_, hzero, ?_⟩
      · rw [hfirst, List.cons_append]
      · exact fun d hd => (List.mem_append.mp hd).elim (hdigits d) (isDigit_replicate_zero d)
    refine ⟨_, _, rfl, hwhole, nofun, ?_⟩
    intro negative
    rw [ofDigits, List.append_nil, Nat.ofDigitChars_append, Nat.ofDigitChars_replicate_zero, hvalue,
      Nat.mul_comm, ← toNumber_scale coefficient exponent exponent.toNat]
    congr 2
    rw [List.length_nil]
    omega
  · next hexponent =>
    generalize hplaces : (-exponent).toNat = places
    have hwhole := isWhole_take_padded places hfirst hzero hdigits
    generalize hpadded : List.replicate (places + 1 - digits.length) '0' ++ digits = padded
      at hwhole
    have hlength : places + 1 ≤ padded.length := by
      rw [← hpadded, List.length_append, List.length_replicate]
      omega
    have hall : ∀ c ∈ padded, c.isDigit := by
      intro c hc
      rw [← hpadded] at hc
      exact (List.mem_append.mp hc).elim (isDigit_replicate_zero c) (hdigits c)
    refine ⟨_, _, rfl, hwhole, fun c hc => hall c (List.mem_of_mem_drop hc), ?_⟩
    intro negative
    have hlast : padded.length - (padded.length - places) = places := by omega
    rw [ofDigits, List.take_append_drop, List.length_drop, hlast, ← hpadded,
      Nat.ofDigitChars_append, Nat.ofDigitChars_replicate_zero, Nat.mul_zero, hvalue]
    congr 2
    omega

/-- The positional text of a decimal has no zeros at the end of its fraction. -/
theorem exists_positional_eq {d : Decimal} (hcoefficient : d.coefficient ≠ 0) :
    ∃ whole fraction, d.positional.toList = whole ++ pointed fraction ∧ IsWhole whole ∧
      (∀ c ∈ fraction, c.isDigit) ∧
      ∀ negative, toNumber negative (ofDigits whole fraction) = toNumber negative d := by
  obtain ⟨whole, fraction, hsplit, hwhole, hfraction, hvalue⟩ := exists_split_eq hcoefficient
  obtain ⟨zeros, hzeros⟩ := exists_eq_stripZeros_append fraction
  refine ⟨whole, stripZeros fraction, ?_, hwhole, isDigit_stripZeros hfraction, ?_⟩
  · rw [positional, hsplit]
    dsimp only
    rw [String.toList_ofList]
    cases stripZeros fraction with
    | nil => exact (List.append_nil whole).symm
    | cons c rest => rfl
  · intro negative
    have hstrip := toNumber_ofDigits_append_zeros whole (stripZeros fraction) zeros 0 negative
    rw [← hzeros, Int.add_zero, Int.add_zero] at hstrip
    exact hstrip.symm.trans (hvalue negative)

end Decimal

/-! ## Exponents -/

namespace Number

open Decimal

/-- The text of an exponent, if there is one. -/
def exponentChars (exponent : Option Int) : List Char :=
  exponent.elim [] fun e => (exponentText e).toList

/-- A positional text has a point if the number has a fraction. -/
theorem contains_point {text : String} {whole fraction : List Char}
    (htext : text.toList = whole ++ pointed fraction) (hwhole : IsWhole whole) :
    text.contains '.' = !fraction.isEmpty := by
  have hpoint : '.' ∉ whole := fun hmem => absurd (hwhole.isDigit _ hmem) (by decide)
  rw [String.contains_char_eq, htext]
  cases fraction with
  | nil =>
      rw [pointed, List.append_nil]
      exact decide_eq_false hpoint
  | cons c rest => exact decide_eq_true (List.mem_append_right _ List.mem_cons_self)

/-- Without the zeros at their end, the digits of a number that is not zero begin with one that
is not zero. -/
theorem exists_stripZeros_eq_cons {n : Nat} (hn : n ≠ 0) :
    ∃ c rest zeros, stripZeros (Nat.toDigits 10 n) = c :: rest ∧ c ≠ '0' ∧
      [c] ++ (rest ++ List.replicate zeros '0') = Nat.toDigits 10 n := by
  obtain ⟨zeros, hzeros⟩ := exists_eq_stripZeros_append (Nat.toDigits 10 n)
  obtain ⟨first, others, hfirst, hne⟩ := exists_toDigits_eq_cons hn
  cases hstrip : stripZeros (Nat.toDigits 10 n) with
  | nil =>
      have hvalue : Nat.ofDigitChars 10 (Nat.toDigits 10 n) 0 = n :=
        Nat.ofDigitChars_toDigits (by decide) (by decide)
      rw [hstrip, List.nil_append] at hzeros
      rw [hzeros, Nat.ofDigitChars_replicate_zero] at hvalue
      exact (hn hvalue.symm).elim
  | cons c rest =>
      rw [hstrip] at hzeros
      refine ⟨c, rest, zeros, rfl, ?_, hzeros.symm⟩
      rw [hfirst, List.cons_append] at hzeros
      exact (List.cons.inj hzeros).1 ▸ hne

/-- The text of a decimal is made of digits, a fraction and an exponent, and has a fraction or
an exponent; these parts are read as the decimal is. -/
theorem exists_decimalText_eq {d : Decimal} (hcoefficient : d.coefficient ≠ 0) :
    ∃ whole fraction exponent,
      (decimalText d).toList = whole ++ (pointed fraction ++ exponentChars exponent) ∧
        IsWhole whole ∧ (∀ c ∈ fraction, c.isDigit) ∧ (fraction ≠ [] ∨ exponent ≠ none) ∧
          ∀ negative, toNumber negative ⟨(ofDigits whole fraction).coefficient,
            (ofDigits whole fraction).exponent + exponent.getD 0⟩ = toNumber negative d := by
  rw [decimalText]
  dsimp only
  split
  · obtain ⟨whole, fraction, htext, hwhole, hfraction, hvalue⟩ := exists_positional_eq hcoefficient
    rw [contains_point htext hwhole]
    cases fraction with
    | nil =>
        refine ⟨whole, ['0'], none, ?_, hwhole, isDigit_singleton_zero,
          .inl (List.cons_ne_nil _ _), ?_⟩
        · change (d.positional ++ ".0").toList = _
          rw [String.toList_append, htext, pointed, List.append_nil]
          rfl
        · intro negative
          exact (toNumber_ofDigits_append_zeros whole [] 1 0 negative).trans (hvalue negative)
    | cons c rest =>
        refine ⟨whole, c :: rest, none, ?_, hwhole, hfraction, .inl (List.cons_ne_nil _ _), ?_⟩
        · change d.positional.toList = _
          rw [htext]
          exact (congrArg _ (List.append_nil _)).symm
        · intro negative
          exact (congrArg _ (congrArg _ (Int.add_zero _))).trans (hvalue negative)
  · generalize hleading : (digitCount d.coefficient : Int) + d.exponent - 1 = leading
    have hdigits := isDigit_toDigits d.coefficient
    have hvalue : Nat.ofDigitChars 10 (Nat.toDigits 10 d.coefficient) 0 = d.coefficient :=
      Nat.ofDigitChars_toDigits (by decide) (by decide)
    obtain ⟨c, rest, zeros, hstrip, hc, hall⟩ := exists_stripZeros_eq_cons hcoefficient
    have hstripped := isDigit_stripZeros hdigits
    rw [hstrip] at hstripped ⊢
    refine ⟨[c], rest, some leading, ?_, .inr ⟨c, [], rfl, hc, ?_⟩, ?_, .inr nofun, ?_⟩
    · cases rest with
      | nil =>
          rw [String.toList_append, String.toList_ofList]
          rfl
      | cons next rest =>
          rw [String.toList_append, String.toList_ofList]
          rfl
    · exact fun d hd => hstripped d (List.mem_cons.mpr (.inl (List.mem_singleton.mp hd)))
    · exact fun d hd => hstripped d (List.mem_cons_of_mem c hd)
    · intro negative
      -- The zeros are read along, so that the digits are those of the coefficient again.
      refine (toNumber_ofDigits_append_zeros [c] rest zeros leading negative).symm.trans ?_
      have hcount : digitCount d.coefficient = 1 + (rest.length + zeros) := by
        rw [digitCount, ← hall, List.length_append, List.length_append, List.length_replicate]
        rfl
      rw [ofDigits, hall, hvalue, List.length_append, List.length_replicate]
      congr 2
      dsimp only
      omega

end Number

end MiniLox
