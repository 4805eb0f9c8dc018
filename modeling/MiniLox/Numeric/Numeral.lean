import MiniLox.Numeric.Decimal
import MiniLox.Text.Digit

/-!
# Reading numbers from text

The parts of a number, digits and signs and exponents, are split off the front
of a text by the `span` functions.

`Number.ofText?` reads a whole text as a number.  It allows blanks around the
number, the digits of any script, a point with digits on one side only, single
underscores between digits, and words for what is not finite.
-/

namespace MiniLox

namespace Numeric

theorem length_dropWhile_le (p : Char → Bool) (text : List Char) :
    (text.dropWhile p).length ≤ text.length :=
  (List.dropWhile_suffix p).length_le

/-- The digits at the start of a text, and the rest. -/
def spanDigits (text : List Char) : List Char × List Char :=
  (text.takeWhile Char.isDigit, text.dropWhile Char.isDigit)

/-- A sign, if the text starts with one: whether it is minus, and the rest. -/
def spanSign : List Char → Bool × List Char
  | '-' :: rest => (true, rest)
  | '+' :: rest => (false, rest)
  | other => (false, other)

/-- An exponent, if the text starts with one, and the rest. -/
def spanExponent : List Char → Option Int × List Char
  | c :: rest =>
    let sign := spanSign rest
    let digits := spanDigits sign.2
    if (c = 'e' ∨ c = 'E') ∧ digits.1 ≠ [] then
      let size : Int := Nat.ofDigitChars 10 digits.1 0
      (some (if sign.1 then -size else size), digits.2)
    else (none, c :: rest)
  | [] => (none, [])

theorem length_spanSign_le (text : List Char) : (spanSign text).2.length ≤ text.length := by
  unfold spanSign
  split <;> simp

theorem length_spanExponent_le (text : List Char) :
    (spanExponent text).2.length ≤ text.length := by
  unfold spanExponent
  split
  · next c rest =>
    dsimp only
    split
    · have hdigits := length_dropWhile_le Char.isDigit (spanSign rest).2
      have hsign := length_spanSign_le rest
      simp only [spanDigits, List.length_cons]
      omega
    · exact Nat.le_refl _
  · exact Nat.le_refl _

end Numeric

open Numeric

namespace Number

/-- A character of a number in the digits that the rest of reading knows. -/
def plainDigit (c : Char) : Char :=
  if c.toNat < 128 then c
  else match Text.decimalDigit? c with
    | some d => d.digitChar
    | none => c

/-- A text without the blanks at its ends. -/
def trimBlanks (text : List Char) : List Char :=
  ((text.dropWhile Text.isBlank).reverse.dropWhile Text.isBlank).reverse

/-- A text without its underscores, each of which must stand between two digits. -/
def dropUnderscores (previous : Option Char) : List Char → Option (List Char)
  | [] => some []
  | '_' :: rest =>
    if previous.any Char.isDigit && rest.head?.any Char.isDigit then
      dropUnderscores (some '_') rest
    else none
  | c :: rest => (dropUnderscores (some c) rest).map (c :: ·)

/-- The number that a word stands for. -/
def ofWord? (negative : Bool) (word : List Char) : Option Number :=
  match String.ofList (word.map Char.toLower) with
  | "inf" => some (.infinity negative)
  | "infinity" => some (.infinity negative)
  | "nan" => some .nan
  | _ => none

/-- The digits after a point, if the text starts with one, and the rest. -/
def spanPoint : List Char → List Char × List Char
  | '.' :: rest => spanDigits rest
  | other => ([], other)

/-- The number that digits, a point and an exponent write. -/
def ofDigits? (negative : Bool) (text : List Char) : Option Number :=
  let whole := spanDigits text
  let fraction := spanPoint whole.2
  let exponent := spanExponent fraction.2
  if whole.1 ++ fraction.1 ≠ [] ∧ exponent.2 = [] then
    let d := Decimal.ofDigits whole.1 fraction.1
    some (Decimal.toNumber negative ⟨d.coefficient, d.exponent + exponent.1.getD 0⟩)
  else none

/-- The number that a text stands for. -/
def ofText? (text : String) : Option Number := do
  let plain ← dropUnderscores none ((trimBlanks text.toList).map plainDigit)
  let signed := spanSign plain
  ofWord? signed.1 signed.2 <|> ofDigits? signed.1 signed.2

end Number

end MiniLox
