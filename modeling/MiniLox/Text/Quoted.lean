import MiniLox.Text.Basic
import MiniLox.Text.Printable

/-!
# Text in quotes

A text is shown between single quotes, or between double quotes when it holds a
single quote and no double one.  The quote in use and the backslash are preceded
by a backslash; line feeds, returns and tabs have letters, and every other code
point that is no printable character is given by its number.  What is shown is
therefore always plain.
-/

namespace MiniLox.Text

/-- The last `width` hexadecimal digits of a number. -/
def hexDigits : (width : Nat) → Nat → List Char
  | 0, _ => []
  | width + 1, n => hexDigits width (n / 16) ++ [Nat.digitChar (n % 16)]

/-- A code point by its number, in the shortest of three forms. -/
def codeEscape (n : Nat) : List Char :=
  if n < 0x100 then '\\' :: 'x' :: hexDigits 2 n
  else if n < 0x10000 then '\\' :: 'u' :: hexDigits 4 n
  else '\\' :: 'U' :: hexDigits 8 n

/-- A character inside the given quotes. -/
def quotedChar (quote c : Char) : List Char :=
  if c = quote ∨ c = '\\' then ['\\', c]
  else if c = '\n' then ['\\', 'n']
  else if c = '\r' then ['\\', 'r']
  else if c = '\t' then ['\\', 't']
  else if isPrintable c then [c]
  else codeEscape c.toNat

/-- A code point inside the given quotes. -/
def quotedPoint (quote : Char) : CodePoint → List Char
  | .char c => quotedChar quote c
  | .half h => codeEscape h.code

/-- The quote that a text is shown in. -/
def quoteFor (t : Text) : Char :=
  if t.points.contains (.char '\'') && !t.points.contains (.char '"') then '"' else '\''

/-- A text between quotes. -/
def quoted (t : Text) : String :=
  let quote := quoteFor t
  String.ofList (quote :: t.points.flatMap (quotedPoint quote) ++ [quote])

end MiniLox.Text
