import MiniLox.Json.Basic
import MiniLox.Numeric.Display
import MiniLox.Text.Quoted

/-!
# Data inside messages

`Json.display` is how a message shows a piece of data: text as it is, and
everything else as `Json.inner` does.  Inside arrays and objects text stands
between quotes.

A whole number with more digits than the limit has no such text, nor has an array
or object that holds one.
-/

namespace MiniLox.Json

mutual

/-- Data as it stands inside other data. -/
def inner : Json → String
  | .null => "None"
  | .boolean b => if b then "True" else "False"
  | .whole i => toString i
  | .real n => n.literal
  | .text s => Text.quoted s
  | .array items => "[" ++ ", ".intercalate (innerItems items) ++ "]"
  | .object members => "\x7b" ++ ", ".intercalate (innerMembers members) ++ "\x7d"

/-- The texts of the items of an array. -/
def innerItems : List Json → List String
  | [] => []
  | item :: rest => inner item :: innerItems rest

/-- The texts of the members of an object. -/
def innerMembers : List (Text × Json) → List String
  | [] => []
  | (name, value) :: rest => (Text.quoted name ++ ": " ++ inner value) :: innerMembers rest

end

/-- Data as a message shows it. -/
def display : Json → Text
  | .text s => s
  | j => j.inner

mutual

/-- Whether no whole number in the data is too long to be shown. -/
def isShowable : Json → Bool
  | .whole i => decide ((Nat.toDigits 10 i.natAbs).length ≤ digitLimit)
  | .array items => areShowable items
  | .object members => areShowableMembers members
  | .null | .boolean _ | .real _ | .text _ => true

/-- Whether no whole number in the items is too long to be shown. -/
def areShowable : List Json → Bool
  | [] => true
  | item :: rest => item.isShowable && areShowable rest

/-- Whether no whole number in the members is too long to be shown. -/
def areShowableMembers : List (Text × Json) → Bool
  | [] => true
  | (_, value) :: rest => value.isShowable && areShowableMembers rest

end

end MiniLox.Json
