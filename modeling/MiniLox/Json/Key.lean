import MiniLox.Json.Basic

/-!
# Data as keys

Null, booleans, numbers and text can serve as keys.  Booleans and numbers of the
same value are one key, whatever their kind: a boolean counts as one or zero, and
a floating-point number without a fraction as a whole number.
-/

namespace MiniLox

/-- A key. -/
inductive Key where
  | null
  | whole (i : Int)
  /-- A floating-point number that is no whole number. -/
  | real (n : Number)
  | text (s : Text)
deriving DecidableEq

namespace Number

/-- The whole number that a floating-point number is. -/
def toInt? : Number → Option Int
  | .finite s m =>
    let unit := 2 ^ Numeric.Format.double.scale
    if m.units % unit = 0 then
      some (if s then -((m.units / unit : Nat) : Int) else ((m.units / unit : Nat) : Int))
    else none
  | _ => none

end Number

namespace Json

/-- The key that data stands for; arrays and objects are none. -/
def key? : Json → Option Key
  | .null => some .null
  | .boolean b => some (.whole (if b then 1 else 0))
  | .whole i => some (.whole i)
  | .real n => some (match n.toInt? with
    | some i => .whole i
    | none => .real n)
  | .text s => some (.text s)
  | .array _ => none
  | .object _ => none

end Json

namespace Key

/-- A key as data. -/
def toJson : Key → Json
  | .null => .null
  | .whole i => .whole i
  | .real n => .real n
  | .text s => .text s

/-- Whether two keys are equal in value; `nan` equals nothing. -/
def equal (a b : Key) : Bool := a == b && a != .real .nan

end Key

end MiniLox
