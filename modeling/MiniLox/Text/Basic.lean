/-!
# Texts

A text of a running program is a list of code points.  Nearly all of them are
characters.  A stored document can also name one half of the two units of sixteen
bits that write a character beyond the first 65536; without the other half it is a
code point, but no character.

A text of characters only is plain.  Sources, files and the names of files are
plain, and are given as strings.
-/

namespace MiniLox

/-- One half of a pair of units, standing alone. -/
structure Half where
  index : Fin 0x800
deriving DecidableEq

/-- The first code point of the halves. -/
def Half.start : Nat := 0xD800

/-- The code point of a half. -/
def Half.code (h : Half) : Nat := Half.start + h.index

/-- A code point of a text. -/
inductive CodePoint where
  | char (c : Char)
  | half (h : Half)
deriving DecidableEq

namespace CodePoint

/-- The character that a code point is. -/
def char? : CodePoint → Option Char
  | .char c => some c
  | .half _ => none

/-- Whether a code point is a character. -/
def isChar (p : CodePoint) : Bool := p.char?.isSome

/-- The number of a code point. -/
def code : CodePoint → Nat
  | .char c => c.toNat
  | .half h => h.code

end CodePoint

/-- A text of a running program. -/
structure Text where
  points : List CodePoint
deriving DecidableEq

namespace Text

/-- A string as a text. -/
def ofString (s : String) : Text := ⟨s.toList.map .char⟩

instance : Coe String Text := ⟨ofString⟩

instance : Append Text := ⟨fun a b => ⟨a.points ++ b.points⟩⟩

instance : Inhabited Text := ⟨⟨[]⟩⟩

/-- The characters of a text. -/
def chars (t : Text) : List Char := t.points.filterMap CodePoint.char?

/-- Whether a text holds nothing but characters. -/
def isPlain (t : Text) : Bool := t.points.all CodePoint.isChar

/-- A plain text as a string. -/
def plain? (t : Text) : Option String := if t.isPlain then some (String.ofList t.chars) else none

end Text

end MiniLox
