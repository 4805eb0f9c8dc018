import MiniLox.Program.Basic

/-!
# The names in a program

The names that a program declares, reads or assigns, in the order in which they
are written.
-/

namespace MiniLox

/-- The names in an expression. -/
def Expr.names : Expr → List String
  | .literal _ | .blank => []
  | .grouping e => e.names
  | .unary _ e => e.names
  | .binary l _ r => l.names ++ r.names
  | .variable name => [name.lexeme]
  | .assign name e => name.lexeme :: e.names

mutual

/-- The names in a statement. -/
def Stmt.names : Stmt → List String
  | .expression e | .print e => e.names
  | .declare name none => [name.lexeme]
  | .declare name (some e) => name.lexeme :: e.names
  | .block statements => Program.names statements

/-- The names in a program. -/
def Program.names : List Stmt → List String
  | [] => []
  | s :: rest => s.names ++ Program.names rest

end

end MiniLox
