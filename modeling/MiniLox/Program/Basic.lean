import MiniLox.Token.Basic

/-!
# Programs

A program is a list of statements.  Expressions and statements keep the tokens
of their operators and names, so that faults can tell a line.

The binary operators stand on four levels, those of one level binding equally
tightly.
-/

namespace MiniLox

/-- An expression. -/
inductive Expr where
  | literal (value : Value)
  /-- A literal whose token carries no value. -/
  | blank
  | grouping (inner : Expr)
  | unary (operator : Token) (right : Expr)
  | binary (left : Expr) (operator : Token) (right : Expr)
  | variable (name : Token)
  | assign (name : Token) (value : Expr)
deriving DecidableEq

/-- A statement. -/
inductive Stmt where
  | expression (e : Expr)
  | print (e : Expr)
  | declare (name : Token) (initializer : Option Expr)
  | block (statements : List Stmt)

mutual

/-- Equality of statements can be decided. -/
def Stmt.decEq : (s t : Stmt) → Decidable (s = t)
  | .expression d, .expression e => decidable_of_iff (d = e) ⟨congrArg _, Stmt.expression.inj⟩
  | .print d, .print e => decidable_of_iff (d = e) ⟨congrArg _, Stmt.print.inj⟩
  | .declare m d, .declare n e =>
    decidable_of_iff (m = n ∧ d = e) ⟨fun h => h.1 ▸ h.2 ▸ rfl, Stmt.declare.inj⟩
  | .block p, .block q =>
    have := Stmt.decEqAll p q
    decidable_of_iff (p = q) ⟨congrArg _, Stmt.block.inj⟩
  | .expression _, .print _ | .expression _, .declare .. | .expression _, .block _
  | .print _, .expression _ | .print _, .declare .. | .print _, .block _
  | .declare .., .expression _ | .declare .., .print _ | .declare .., .block _
  | .block _, .expression _ | .block _, .print _ | .block _, .declare .. => isFalse nofun

/-- Equality of lists of statements can be decided. -/
def Stmt.decEqAll : (p q : List Stmt) → Decidable (p = q)
  | [], [] => isTrue rfl
  | s :: p, t :: q =>
    have := Stmt.decEq s t
    have := Stmt.decEqAll p q
    decidable_of_iff (s = t ∧ p = q) ⟨fun h => h.1 ▸ h.2 ▸ rfl, List.cons.inj⟩
  | [], _ :: _ | _ :: _, [] => isFalse nofun

end

instance : DecidableEq Stmt := Stmt.decEq

/-- A list of statements. -/
abbrev Program := List Stmt

/-- The expression that a literal token stands for. -/
def Expr.ofLiteral : Option Value → Expr
  | some v => .literal v
  | none => .blank

/-- The binary operators of a level; higher levels bind less tightly, and all
of them associate to the left. -/
def operatorsAt : Nat → List TokenKind
  | 1 => [.slash, .star]
  | 2 => [.minus, .plus]
  | 3 => [.greater, .greaterEqual, .less, .lessEqual]
  | 4 => [.bangEqual, .equalEqual]
  | _ => []

/-- The level of the binary operators that bind least tightly. -/
def topLevel : Nat := 4

/-- The unary operators. -/
def unaryOperators : List TokenKind := [.bang, .minus]

end MiniLox
