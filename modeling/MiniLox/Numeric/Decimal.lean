import MiniLox.Numeric.Number

/-!
# Decimal numbers

A decimal number is a whole coefficient times a power of ten.  This module reads
one as a floating-point number, rounds a quotient to a number of significant
digits, and writes a decimal number in positional form.
-/

namespace MiniLox

open Numeric

/-- The number `coefficient * 10 ^ exponent`. -/
structure Decimal where
  coefficient : Nat
  exponent : Int
deriving DecidableEq

namespace Decimal

/-- The number of decimal digits of a whole number; zero has one. -/
def digitCount (n : Nat) : Nat := (Nat.toDigits 10 n).length

/-- The numerator of the decimal number as a quotient of whole numbers. -/
def num (d : Decimal) : Nat := d.coefficient * 10 ^ d.exponent.toNat

/-- The denominator that goes with `num`. -/
def den (d : Decimal) : Nat := 10 ^ (-d.exponent).toNat

/-- The number written by digits before and after a point. -/
def ofDigits (whole fraction : List Char) : Decimal :=
  ⟨Nat.ofDigitChars 10 (whole ++ fraction) 0, -(fraction.length : Int)⟩

/-- The nearest floating-point number.  Beyond four hundred places before or
after the point the answer is an infinity or zero, and no power is formed. -/
def toNumber (negative : Bool) (d : Decimal) : Number :=
  if d.coefficient = 0 then Number.ofCode negative 0
  else if 400 < d.exponent then .infinity negative
  else if (digitCount d.coefficient : Int) + d.exponent < -400 then Number.ofCode negative 0
  else Number.ofRatio negative d.num d.den

/-- The exponent of the leading digit of the positive quotient `num / den`. -/
def leadingExponent (num den : Nat) : Int :=
  if den ≤ num then (digitCount (num / den) : Int) - 1
  else -(digitCount ((den + num - 1) / num - 1) : Int)

/-- The exponent of the last of `digits` significant digits of `num / den`. -/
def lastExponent (num den digits : Nat) : Int := leadingExponent num den - (digits - 1 : Nat)

/-- The positive quotient `num / den` rounded to a number of significant digits,
a half going to the even last digit. -/
def roundQuotient (num den digits : Nat) : Decimal :=
  let last := lastExponent num den digits
  ⟨nearestEven (num * 10 ^ (-last).toNat) (den * 10 ^ last.toNat), last⟩

/-- The decimals of a number of digits next to `num / den`, below and above. -/
def neighbours (num den digits : Nat) : Decimal × Decimal :=
  let last := lastExponent num den digits
  let below := num * 10 ^ (-last).toNat / (den * 10 ^ last.toNat)
  (⟨below, last⟩, ⟨below + 1, last⟩)

/-- The digits before and after the point, neither padded nor stripped beyond
the one digit that must stand before the point. -/
def split (d : Decimal) : List Char × List Char :=
  let digits := Nat.toDigits 10 d.coefficient
  if 0 ≤ d.exponent then
    (if d.coefficient = 0 then digits else digits ++ List.replicate d.exponent.toNat '0', [])
  else
    let places := (-d.exponent).toNat
    let padded := List.replicate (places + 1 - digits.length) '0' ++ digits
    (padded.take (padded.length - places), padded.drop (padded.length - places))

/-- A list of digits without the zeros at its end. -/
def stripZeros (digits : List Char) : List Char :=
  (digits.reverse.dropWhile (· == '0')).reverse

/-- The decimal number without an exponent, and without zeros at the end of its
fraction. -/
def positional (d : Decimal) : String :=
  let (whole, fraction) := d.split
  let fraction := stripZeros fraction
  String.ofList (if fraction.isEmpty then whole else whole ++ '.' :: fraction)

end Decimal

end MiniLox
