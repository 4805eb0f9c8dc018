import MiniLox.Numeric.Number
import MiniLox.Text.Basic

/-!
# Structured data

Data as a stored document holds it: the null value, booleans, whole numbers of
any size, floating-point numbers, text, arrays and objects.  Whole numbers and
floating-point numbers are different data even when they are equal in value.

An object keeps its members in the order in which their names first appeared,
each with the last value that was given to it.
-/

namespace MiniLox

/-- A piece of structured data. -/
inductive Json where
  | null
  | boolean (b : Bool)
  | whole (i : Int)
  | real (n : Number)
  | text (s : Text)
  | array (items : List Json)
  | object (members : List (Text × Json))

namespace Json

instance : Inhabited Json := ⟨.null⟩

/-- The most digits that a whole number may have where it is read or shown. -/
def digitLimit : Nat := 4300

/-- Members with one more, which replaces the value of a member of the same name. -/
def insert (name : Text) (value : Json) : List (Text × Json) → List (Text × Json)
  | [] => [(name, value)]
  | (n, v) :: rest => if n = name then (n, value) :: rest else (n, v) :: insert name value rest

/-- The value of a member. -/
def find? (name : Text) (members : List (Text × Json)) : Option Json := members.lookup name

/-- Whether data is null. -/
def isNull : Json → Bool
  | .null => true
  | _ => false

/-- The name of the kind of data. -/
def kindName : Json → String
  | .null => "NoneType"
  | .boolean _ => "bool"
  | .whole _ => "int"
  | .real _ => "float"
  | .text _ => "str"
  | .array _ => "list"
  | .object _ => "dict"

/-- Whether data counts as true: all does but null, false, zeros and what is empty. -/
def isTruthy : Json → Bool
  | .null => false
  | .boolean b => b
  | .whole i => i != 0
  | .real (.finite _ m) => m.code != 0
  | .real _ => true
  | .text s => !s.points.isEmpty
  | .array items => !items.isEmpty
  | .object members => !members.isEmpty

mutual

/-- Whether two pieces of data are the same, member order included. -/
def same : Json → Json → Bool
  | .null, .null => true
  | .boolean a, .boolean b => a == b
  | .whole a, .whole b => a == b
  | .real a, .real b => a == b
  | .text a, .text b => a == b
  | .array a, .array b => sameItems a b
  | .object a, .object b => sameMembers a b
  | _, _ => false

/-- Whether two arrays have the same items in the same order. -/
def sameItems : List Json → List Json → Bool
  | [], [] => true
  | a :: as, b :: bs => same a b && sameItems as bs
  | _, _ => false

/-- Whether two objects have the same members in the same order. -/
def sameMembers : List (Text × Json) → List (Text × Json) → Bool
  | [], [] => true
  | (m, a) :: as, (n, b) :: bs => m == n && same a b && sameMembers as bs
  | _, _ => false

end

end Json

end MiniLox
