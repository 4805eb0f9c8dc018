import MiniLox.Numeric.Decimal

/-!
# The text of a number

`Number.display` is what a program prints: the fewest digits, up to nine, whose
nearest number of 32 bits is the number, and where there are none (the number is
not one of 32 bits) the fewest that identify it among the numbers of 64 bits;
either way without an exponent.

`Number.literal` is the text that a stored number has: the fewest digits that
identify it, with a point or an exponent, so that it does not read as a whole number.
-/

namespace MiniLox

open Numeric

namespace Magnitude

/-- The decimal that rounds the magnitude to a number of significant digits. -/
def roundTo (m : Magnitude) (digits : Nat) : Decimal :=
  Decimal.roundQuotient m.units (2 ^ Format.double.scale) digits

/-- Whether a decimal reads as the magnitude. -/
def readsBack (m : Magnitude) (d : Decimal) : Bool := d.toNumber false == .finite false m

/-- Whether a decimal reads as the magnitude once it is rounded to 32 bits. -/
def readsBackSingle (m : Magnitude) (d : Decimal) : Bool :=
  (d.toNumber false).toSingle == .finite false m

/-- Of the decimals of a number of digits next to the magnitude, the nearest
that reads as it; of two at the same distance, the even one. -/
def nearestOfLength (m : Magnitude) (digits : Nat) : Option Decimal :=
  let (below, above) := Decimal.neighbours m.units (2 ^ Format.double.scale) digits
  match m.readsBack below, m.readsBack above with
  | true, true => some (m.roundTo digits)
  | true, false => some below
  | false, true => some above
  | false, false => none

/-- The fewest digits that read as the magnitude. -/
def shortest (m : Magnitude) : Decimal :=
  ((List.range 17).findSome? fun n => m.nearestOfLength (n + 1)).getD (m.roundTo 17)

/-- The fewest digits, up to nine, that round to the magnitude at 32 bits. -/
def shortestSingle? (m : Magnitude) : Option Decimal :=
  ((List.range 9).map fun n => m.roundTo (n + 1)).find? m.readsBackSingle

end Magnitude

namespace Number

/-- The text of a number in the output of a program. -/
def display : Number → String
  | .nan => "NaN"
  | .infinity s => if s then "-inf" else "inf"
  | .finite s m =>
    let text := if m.code = 0 then "0" else (m.shortestSingle?.getD m.shortest).positional
    if s then "-" ++ text else text

/-- An exponent with its sign and at least two digits. -/
def exponentText (e : Int) : String :=
  let digits := toString e.natAbs
  (if e < 0 then "e-" else "e+") ++ (if e.natAbs < 10 then "0" ++ digits else digits)

/-- A positive decimal number, positional when its leading digit has an exponent
from minus four to fifteen. -/
def decimalText (d : Decimal) : String :=
  let digits := Decimal.stripZeros (Nat.toDigits 10 d.coefficient)
  let leading := (Decimal.digitCount d.coefficient : Int) + d.exponent - 1
  if -4 ≤ leading ∧ leading < 16 then
    let text := d.positional
    if text.contains '.' then text else text ++ ".0"
  else match digits with
    | [] => "0.0"
    | [c] => String.ofList [c] ++ exponentText leading
    | c :: rest => String.ofList (c :: '.' :: rest) ++ exponentText leading

/-- The text of a stored number, where the texts of `nan` and of the positive
infinity are given. -/
def literalWith (n : Number) (undefined huge : String) : String :=
  match n with
  | .nan => undefined
  | .infinity s => if s then "-" ++ huge else huge
  | .finite s m =>
    let text := if m.code = 0 then "0.0" else decimalText m.shortest
    if s then "-" ++ text else text

/-- The text of a stored number inside other text. -/
def literal (n : Number) : String := n.literalWith "nan" "inf"

end Number

end MiniLox
