import MiniLox.Node.Basic

/-!
# Expressions in prefix form

`1 + 2 * 3` becomes `(+ 1 (* 2 3))`: an operator stands in front of its operands,
in parentheses, and parentheses of the source become the operator `grouping`.
Assignments have no such form, nor does a token that shows no text.
-/

namespace MiniLox

/-- Why a node has no prefix form. -/
inductive PrintFault where
  | assignment
  /-- A node that is no expression. -/
  | unexpectedNode (description : String)
  /-- A token that shows no text. -/
  | noText

/-- The wording of a fault. -/
def PrintFault.message : PrintFault → String
  | .assignment => "assignment expressions cannot be printed"
  | .unexpectedNode description => "unexpected node type " ++ description
  | .noText => "a token shows no text"

namespace Node

/-- The text that a token shows. -/
def markText (m : Mark) : Except PrintFault Text :=
  match m.text? with
  | some s => .ok s
  | none => .error .noText

/-- The prefix form of an expression. -/
def prefixForm : Node → Except PrintFault Text
  | .literal v => .ok v.display
  | .blank => .ok Json.null.display
  | .variable name => markText name
  | .grouping e => do
    let inner ← e.prefixForm
    return "(grouping " ++ inner ++ ")"
  | .unary op e => do
    let name ← markText op
    let right ← e.prefixForm
    return "(" ++ name ++ " " ++ right ++ ")"
  | .binary l op r => do
    let name ← markText op
    let left ← l.prefixForm
    let right ← r.prefixForm
    return "(" ++ name ++ " " ++ left ++ " " ++ right ++ ")"
  | .assign .. => .error .assignment
  | n => .error (.unexpectedNode n.description)

end Node

end MiniLox
