import MiniLox.Json.Basic
import MiniLox.Numeric.Display
import MiniLox.Text.Quoted

/-!
# Data as a document

`Json.print` writes data as the text of a document: one item or member on a
line, two blanks of indentation for each level, and nothing inside an empty
array or object.  In text, the double quote, the backslash and the controls
below the space are escaped; all other characters stand for themselves.  A text
that is not plain has no document.
-/

namespace MiniLox.Json

/-- A character inside the text of a document. -/
def escapedChar (c : Char) : List Char :=
  match c with
  | '"' => ['\\', '"']
  | '\\' => ['\\', '\\']
  | '\n' => ['\\', 'n']
  | '\r' => ['\\', 'r']
  | '\t' => ['\\', 't']
  | '\x08' => ['\\', 'b']
  | '\x0c' => ['\\', 'f']
  | c => if c.toNat < 0x20 then '\\' :: 'u' :: Text.hexDigits 4 c.toNat else [c]

/-- Text between double quotes. -/
def printText (s : String) : String :=
  String.ofList ('"' :: s.toList.flatMap escapedChar ++ ['"'])

/-- The start of a line at a level of indentation. -/
def lineStart (level : Nat) : String := "\n" ++ String.ofList (List.replicate (2 * level) ' ')

/-- Lines between brackets, each one level further in than the brackets. -/
def bracketed (opening closing : String) (level : Nat) (lines : List String) : String :=
  if lines.isEmpty then opening ++ closing
  else opening ++ lineStart (level + 1) ++ ("," ++ lineStart (level + 1)).intercalate lines ++
    lineStart level ++ closing

mutual

/-- The document text of data that begins at a level of indentation. -/
def printAt (level : Nat) : Json → Option String
  | .null => some "null"
  | .boolean b => some (if b then "true" else "false")
  | .whole i => some (toString i)
  | .real n => some (n.literalWith "NaN" "Infinity")
  | .text s => do return printText (← s.plain?)
  | .array items => do return bracketed "[" "]" level (← printItems (level + 1) items)
  | .object members => do
    return bracketed "\x7b" "\x7d" level (← printMembers (level + 1) members)

/-- The document texts of items. -/
def printItems (level : Nat) : List Json → Option (List String)
  | [] => some []
  | item :: rest => do return (← printAt level item) :: (← printItems level rest)

/-- The document texts of members. -/
def printMembers (level : Nat) : List (Text × Json) → Option (List String)
  | [] => some []
  | (name, value) :: rest => do
    let first := printText (← name.plain?) ++ ": " ++ (← printAt level value)
    return first :: (← printMembers level rest)

end

/-- The text of a document that holds the data. -/
def print (j : Json) : Option String := printAt 0 j

end MiniLox.Json
