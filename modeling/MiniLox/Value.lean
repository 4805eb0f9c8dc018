import MiniLox.Fault

/-!
# Values

A value is a text, a number, a boolean or nil.  Values of different types are
never equal, and comparing them is no fault; two numbers are equal when they are
at most a ten-thousandth apart.  An operator that requires a type rejects every
other, except that nil serves as a boolean.
-/

namespace MiniLox

/-- A value of the language. -/
inductive Value where
  | text (s : Text)
  | number (n : Number)
  | boolean (b : Bool)
  | nil
deriving DecidableEq

namespace Value

/-- The largest distance at which two numbers are equal. -/
def tolerance : Number := Number.ofRatio false 1 10000

/-- Equality of numbers: equal in value, or no further apart than the tolerance. -/
def numbersEqual (a b : Number) : Bool := a.eq b || (a.sub b).abs.le tolerance

/-- Equality of values. -/
def equal : Value → Value → Bool
  | .text a, .text b => a == b
  | .number a, .number b => numbersEqual a b
  | .boolean a, .boolean b => a == b
  | .nil, .nil => true
  | _, _ => false

/-- The name of the type of a value. -/
def typeName : Value → String
  | .text _ => "string"
  | .number _ => "number"
  | .boolean _ => "boolean"
  | .nil => "nil"

/-- The text of a value, as a program prints it. -/
def display : Value → Text
  | .text s => s
  | .number n => n.display
  | .boolean b => if b then "true" else "false"
  | .nil => "nil"

/-- The number that an operator requires. -/
def asNumber (line : Json) : Value → Except Fault Number
  | .number n => .ok n
  | v => .error (.typeMismatch "number" v.typeName line)

/-- The text that an operator requires. -/
def asText (line : Json) : Value → Except Fault Text
  | .text s => .ok s
  | v => .error (.typeMismatch "string" v.typeName line)

/-- The boolean that an operator requires; nil counts as false. -/
def asBoolean (line : Json) : Value → Except Fault Bool
  | .boolean b => .ok b
  | .nil => .ok false
  | v => .error (.typeMismatch "boolean" v.typeName line)

/-- A value as data. -/
def toJson : Value → Json
  | .text s => .text s
  | .number n => .real n
  | .boolean b => .boolean b
  | .nil => .null

end Value

end MiniLox
