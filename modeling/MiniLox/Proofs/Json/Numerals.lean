import MiniLox.Json.Parser
import MiniLox.Proofs.Numeric.Digits

/-!
# Reading numbers of documents

The text of a number is read as the number, whatever may follow a value in a document.
-/

namespace MiniLox

open Numeric
open Decimal (IsWhole pointed ofDigits)
open Number (exponentChars)

namespace Json

variable {α β : Type} {text rest whole fraction : List Char}

/-! ## Results -/

/-- A result is a value and the rest of the text. -/
def Reads (result : Reader α text) (value : α) (rest : List Char) : Prop :=
  ∃ shorter, result = .ok ⟨value, rest, shorter⟩

theorem reads_ok {r : Reading Char α text} {value : α} (hvalue : r.value = value)
    (hrest : r.rest = rest) : Reads (.ok r) value rest := by
  subst hvalue hrest
  exact ⟨r.shorter, rfl⟩

theorem Reads.bind {input mid : List Char} {result : Reader α text} {a : α} {value : β}
    {f : Reading Char α text → Reader β input} (h : Reads result a mid)
    (hf : ∀ shorter, Reads (f ⟨a, mid, shorter⟩) value rest) :
    Reads (result >>= f) value rest := by
  obtain ⟨shorter, rfl⟩ := h
  exact hf shorter

/-- What may follow a value in a document. -/
def EndsValue (rest : List Char) : Prop := ∀ c ∈ rest.head?, c = ',' ∨ c = '\n'

/-- A text that starts with no digit. -/
def EndsDigits (rest : List Char) : Prop := ∀ c ∈ rest.head?, ¬c.isDigit

theorem EndsValue.endsDigits (h : EndsValue rest) : EndsDigits rest := by
  intro c hc
  rcases h c hc with rfl | rfl
  · decide
  · decide

/-! ## Parts of numbers -/

theorem spanDigits_append {digits : List Char} (h : ∀ c ∈ digits, c.isDigit)
    (hrest : EndsDigits rest) : spanDigits (digits ++ rest) = (digits, rest) := by
  have htake : rest.takeWhile Char.isDigit = [] ∧ rest.dropWhile Char.isDigit = rest := by
    cases rest with
    | nil => exact ⟨rfl, rfl⟩
    | cons c rest =>
        have hc : ¬c.isDigit := hrest c rfl
        exact ⟨List.takeWhile_cons_of_neg hc, List.dropWhile_cons_of_neg hc⟩
  rw [spanDigits, List.takeWhile_append_of_pos h, List.dropWhile_append_of_pos h, htake.1,
    htake.2, List.append_nil]

theorem spanFraction_pointed (h : ∀ c ∈ fraction, c.isDigit) (hrest : EndsDigits rest)
    (hpoint : rest.head? ≠ some '.') :
    spanFraction (pointed fraction ++ rest) = (fraction, rest) := by
  cases fraction with
  | nil =>
      change spanFraction rest = _
      rw [spanFraction.eq_2]
      rintro c more rfl
      exact hpoint rfl
  | cons c more =>
      change spanFraction ('.' :: c :: (more ++ rest)) = _
      rw [spanFraction, if_pos (h c List.mem_cons_self)]
      exact spanDigits_append h hrest

theorem spanExponent_of_endsValue (h : EndsValue rest) : spanExponent rest = (none, rest) := by
  cases rest with
  | nil => rfl
  | cons c rest =>
      have hc : ¬((c = 'e' ∨ c = 'E') ∧
          (spanDigits (spanSign rest).2).1 ≠ []) := by
        rintro ⟨hletter, -⟩
        rcases h c rfl with rfl | rfl
        · exact absurd hletter (by decide)
        · exact absurd hletter (by decide)
      rw [spanExponent]
      exact if_neg hc

/-- An exponent is written as a sign and digits. -/
theorem exists_exponentText_eq (e : Int) :
    ∃ digits, (Number.exponentText e).toList = 'e' :: (if e < 0 then '-' else '+') :: digits ∧
      digits ≠ [] ∧ (∀ c ∈ digits, c.isDigit) ∧ Nat.ofDigitChars 10 digits 0 = e.natAbs := by
  have hdigits := Decimal.isDigit_toDigits e.natAbs
  have hvalue : Nat.ofDigitChars 10 (Nat.toDigits 10 e.natAbs) 0 = e.natAbs :=
    Nat.ofDigitChars_toDigits (by decide) (by decide)
  have hsign : (if e < 0 then "e-" else "e+").toList = ['e', if e < 0 then '-' else '+'] := by
    split
    · rfl
    · rfl
  rw [Number.exponentText, String.toList_append, hsign]
  generalize (if e < 0 then '-' else '+') = sign
  split
  · refine ⟨'0' :: Nat.toDigits 10 e.natAbs, ?_, List.cons_ne_nil _ _, ?_, ?_⟩
    · rw [String.toList_append, Nat.toString_eq_ofList_toDigits,
        String.toList_ofList (l := Nat.toDigits 10 e.natAbs)]
      rfl
    · exact fun c hc => (List.mem_cons.mp hc).elim (fun h => h ▸ rfl) (hdigits c)
    · rw [Nat.ofDigitChars_cons]
      exact hvalue
  · refine ⟨Nat.toDigits 10 e.natAbs, ?_, Nat.toDigits_ne_nil, hdigits, hvalue⟩
    rw [Nat.toString_eq_ofList_toDigits, String.toList_ofList]
    rfl

theorem spanExponent_exponentChars (exponent : Option Int) (h : EndsValue rest) :
    spanExponent (exponentChars exponent ++ rest) = (exponent, rest) := by
  cases exponent with
  | none => exact spanExponent_of_endsValue h
  | some e =>
      obtain ⟨digits, htext, hne, hdigits, hvalue⟩ := exists_exponentText_eq e
      have hspan := spanDigits_append hdigits h.endsDigits
      have hsign : spanSign ((if e < 0 then '-' else '+') :: (digits ++ rest)) =
          (decide (e < 0), digits ++ rest) := by
        by_cases hnegative : e < 0
        · rw [if_pos hnegative, decide_eq_true hnegative]
          rfl
        · rw [if_neg hnegative, decide_eq_false hnegative]
          rfl
      rw [exponentChars, Option.elim_some, htext]
      change spanExponent ('e' :: (if e < 0 then '-' else '+') :: (digits ++ rest)) = _
      rw [spanExponent, hsign]
      dsimp only
      rw [hspan, if_pos ⟨.inl rfl, hne⟩, hvalue]
      congr 2
      by_cases hnegative : e < 0
      · rw [decide_eq_true hnegative, if_pos rfl]
        omega
      · rw [decide_eq_false hnegative, if_neg (by decide)]
        omega

/-! ## Numbers -/

theorem reads_readNumberTail {after mid : List Char} {negative : Bool} {exponent : Option Int}
    {value : Json} (hfraction : spanFraction after = (fraction, mid))
    (hexponent : spanExponent mid = (exponent, rest))
    (hnumber : numberOf negative whole fraction exponent = .ok value)
    (shorter : after.length < text.length) :
    Reads (readNumberTail negative whole after shorter) value rest := by
  obtain rfl : (spanFraction after).1 = fraction := congrArg Prod.fst hfraction
  obtain rfl : (spanFraction after).2 = mid := congrArg Prod.snd hfraction
  obtain rfl : (spanExponent (spanFraction after).2).1 = exponent := congrArg Prod.fst hexponent
  rw [readNumberTail, hnumber]
  exact reads_ok rfl (congrArg Prod.snd hexponent)

theorem reads_readNumber_of_tail {after start : List Char} {negative : Bool} {value : Json}
    (hwhole : IsWhole whole) (hafter : EndsDigits after)
    (h : ∀ {text : List Char} (shorter : after.length < text.length),
      Reads (readNumberTail negative whole after shorter) value rest) :
    Reads (readNumber negative start (whole ++ after)) value rest := by
  rcases hwhole with rfl | ⟨c, others, rfl, hc, hdigits⟩
  · exact h (Nat.lt_succ_self _)
  · have hspan := spanDigits_append (fun d hd => hdigits d (List.mem_cons_of_mem c hd)) hafter
    rw [spanDigits, Prod.mk.injEq] at hspan
    have htail : ∀ {text : List Char} (digits left : List Char)
        (shorter : left.length < text.length), digits = c :: others → left = after →
          Reads (readNumberTail negative digits left shorter) value rest := by
      rintro text _ _ shorter rfl rfl
      exact h shorter
    change Reads (readNumber negative start (c :: (others ++ after))) value rest
    rw [readNumber, if_pos (hdigits c List.mem_cons_self)]
    · exact htail _ _ _ (congrArg _ hspan.1) hspan.2
    · exact hc

theorem endsDigits_exponent (exponent : Option Int) (hrest : EndsValue rest) :
    EndsDigits (exponentChars exponent ++ rest) ∧
      (exponentChars exponent ++ rest).head? ≠ some '.' := by
  cases exponent with
  | none =>
      refine ⟨hrest.endsDigits, fun hpoint => ?_⟩
      exact absurd (hrest _ hpoint) (by decide)
  | some e =>
      obtain ⟨digits, htext, -⟩ := exists_exponentText_eq e
      rw [exponentChars, Option.elim_some, htext]
      refine ⟨?_, nofun⟩
      rintro _ ⟨⟩
      decide

theorem endsDigits_fraction (exponent : Option Int) (hrest : EndsValue rest) :
    EndsDigits (pointed fraction ++ (exponentChars exponent ++ rest)) := by
  cases fraction with
  | nil => exact (endsDigits_exponent exponent hrest).1
  | cons c more =>
      rintro _ ⟨⟩
      decide

/-- A number with a fraction or an exponent is read as a floating-point number. -/
theorem reads_readNumber {start : List Char} {negative : Bool} {exponent : Option Int}
    (hwhole : IsWhole whole) (hfraction : ∀ c ∈ fraction, c.isDigit)
    (hreal : fraction ≠ [] ∨ exponent ≠ none) (hrest : EndsValue rest) :
    Reads (readNumber negative start
        (whole ++ (pointed fraction ++ (exponentChars exponent ++ rest))))
      (.real (Decimal.toNumber negative ⟨(ofDigits whole fraction).coefficient,
        (ofDigits whole fraction).exponent + exponent.getD 0⟩)) rest := by
  have hnumber : numberOf negative whole fraction exponent =
      .ok (.real (Decimal.toNumber negative ⟨(ofDigits whole fraction).coefficient,
        (ofDigits whole fraction).exponent + exponent.getD 0⟩)) := by
    rw [numberOf]
    rintro rfl rfl
    exact hreal.elim (fun h => h rfl) fun h => h rfl
  obtain ⟨hdigits, hpoint⟩ := endsDigits_exponent exponent hrest
  apply reads_readNumber_of_tail hwhole (endsDigits_fraction exponent hrest)
  exact reads_readNumberTail (spanFraction_pointed hfraction hdigits hpoint)
    (spanExponent_exponentChars exponent hrest) hnumber

/-- A number without a fraction and an exponent is read as a whole number. -/
theorem reads_readNumber_whole {start : List Char} {negative : Bool} (hwhole : IsWhole whole)
    (hlength : whole.length ≤ digitLimit) (hrest : EndsValue rest) :
    Reads (readNumber negative start (whole ++ rest))
      (.whole (if negative then -(Nat.ofDigitChars 10 whole 0 : Int)
        else Nat.ofDigitChars 10 whole 0)) rest := by
  have hnumber : numberOf negative whole [] none =
      .ok (.whole (if negative then -(Nat.ofDigitChars 10 whole 0 : Int)
        else Nat.ofDigitChars 10 whole 0)) :=
    if_neg (Nat.not_lt_of_le hlength)
  obtain ⟨hdigits, hpoint⟩ := endsDigits_exponent none hrest
  apply reads_readNumber_of_tail hwhole hdigits
  exact reads_readNumberTail (@spanFraction_pointed rest [] nofun hdigits hpoint)
    (spanExponent_of_endsValue hrest) hnumber

end Json

end MiniLox
