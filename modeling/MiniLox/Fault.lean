import MiniLox.Json.Display
import MiniLox.Stream

/-!
# Faults of a running program

The causes for which evaluation stops, each with its wording.  Only the first
two can come out of a program that was parsed from source and meets nothing but
plain texts; the others need a tree that was put together by other means, such as
a stored document.

A line is a piece of data, because a stored document may hold anything there;
it is null where no line is known.
-/

namespace MiniLox

/-- What was being done with a node that has no place there. -/
inductive Activity where
  /-- Carrying out a statement. -/
  | interpret
  /-- Computing the value of an expression. -/
  | evaluate
deriving DecidableEq

/-- The number of operands of an operator. -/
inductive Arity where
  | unary
  | binary
deriving DecidableEq

/-- Why evaluation stops. -/
inductive Fault where
  /-- An operand is not of the type that an operator requires. -/
  | typeMismatch (expected actual : String) (line : Json)
  /-- No enclosing scope defines a name. -/
  | undefinedVariable (name : Text) (line : Json)
  /-- A node stands where it cannot be carried out or evaluated. -/
  | unexpectedNode (activity : Activity) (description : String)
  /-- An operator that has no meaning with this number of operands. -/
  | unsupportedOperator (arity : Arity) (lexeme : Json)
  /-- A name that cannot be looked up, because it is an array or an object. -/
  | unusableName (kind : String)
  /-- A program that is not a list of statements. -/
  | notStatements (kind : String)
  /-- A line that its stream does not take. -/
  | unwritable (event : Event)

namespace Fault

/-- The words that tell a line, where one is known. -/
def onLine (line : Json) : Text := if line.isNull then "" else " on line " ++ line.display

/-- The name of an activity in a message. -/
def activityName : Activity → String
  | .interpret => "interpret"
  | .evaluate => "evaluate"

/-- The name of an arity in a message. -/
def arityName : Arity → String
  | .unary => "unary"
  | .binary => "binary"

/-- The wording of a fault. -/
def message : Fault → Text
  | typeMismatch expected actual line =>
    "Type error" ++ onLine line ++ s!": expected {expected}, got {actual}"
  | undefinedVariable name line => "Undefined variable '" ++ name ++ "'" ++ onLine line
  | unexpectedNode activity description =>
    s!"{activityName activity}: unexpected node type {description}"
  | unsupportedOperator arity lexeme =>
    s!"unsupported {arityName arity} operator " ++ lexeme.display
  | unusableName kind => s!"a value of type {kind} is no name"
  | notStatements kind => s!"a value of type {kind} has no statements"
  | unwritable event => event.line.refusal

/-- The line of a fault, null where it has none. -/
def line : Fault → Json
  | typeMismatch _ _ line => line
  | undefinedVariable _ line => line
  | _ => .null

/-- Whether the fault is one that a program parsed from source can cause. -/
def isProgramFault : Fault → Bool
  | typeMismatch .. => true
  | undefinedVariable .. => true
  | _ => false

/-- The fault with another line, where it names one. -/
def withLine (line : Json) : Fault → Fault
  | typeMismatch expected actual _ => typeMismatch expected actual line
  | undefinedVariable name _ => undefinedVariable name line
  | fault => fault

end Fault

end MiniLox
