import MiniLox.Program.Basic

/-!
# Trees of nodes

A node is what a stored document holds for an expression or a statement.  Unlike
an expression or a statement it may be malformed: a child may be missing, be a
list, or be a statement where an expression belongs.  Every program is a list of
well-formed nodes.
-/

namespace MiniLox

/-- A node of a tree that may be malformed. -/
inductive Node where
  /-- A child that is missing. -/
  | null
  | list (items : List Node)
  | literal (value : Value)
  /-- A literal that has no value. -/
  | blank
  | grouping (inner : Node)
  | unary (operator : Mark) (right : Node)
  | binary (left : Node) (operator : Mark) (right : Node)
  | variable (name : Mark)
  | assign (name : Mark) (value : Node)
  | expression (e : Node)
  | print (e : Node)
  | declare (name : Mark) (initializer : Node)
  | block (statements : List Node)

/-- An expression as a node. -/
def Expr.node : Expr → Node
  | .literal v => .literal v
  | .blank => .blank
  | .grouping e => .grouping e.node
  | .unary op e => .unary op.mark e.node
  | .binary l op r => .binary l.node op.mark r.node
  | .variable name => .variable name.mark
  | .assign name e => .assign name.mark e.node

mutual

/-- A statement as a node. -/
def Stmt.node : Stmt → Node
  | .expression e => .expression e.node
  | .print e => .print e.node
  | .declare name none => .declare name.mark .null
  | .declare name (some e) => .declare name.mark e.node
  | .block statements => .block (Stmt.nodes statements)

/-- Statements as nodes. -/
def Stmt.nodes : List Stmt → List Node
  | [] => []
  | s :: rest => s.node :: Stmt.nodes rest

end

namespace Node

/-- The name of the kind of a node. -/
def kindName : Node → String
  | .null => "NoneType"
  | .list _ => "list"
  | .literal _ => "Literal"
  | .blank => "Literal"
  | .grouping _ => "Grouping"
  | .unary .. => "Unary"
  | .binary .. => "Binary"
  | .variable _ => "Variable"
  | .assign .. => "Assign"
  | .expression _ => "ExprStmt"
  | .print _ => "PrintStmt"
  | .declare .. => "VarStmt"
  | .block _ => "Block"

/-- The kind of a node in a message. -/
def description : Node → String
  | .null => "<class 'NoneType'>"
  | .list _ => "<class 'list'>"
  | n => s!"<class 'treelox.ast.{n.kindName}'>"

mutual

/-- Equality of nodes: tokens without their lines, numbers up to the tolerance. -/
def equal : Node → Node → Bool
  | .null, .null => true
  | .list a, .list b => equalAll a b
  | .literal a, .literal b => a.equal b
  | .grouping a, .grouping b => equal a b
  | .unary o a, .unary p b => o.equal p && equal a b
  | .binary a o c, .binary b p d => equal a b && o.equal p && equal c d
  | .variable a, .variable b => a.equal b
  | .assign m a, .assign n b => m.equal n && equal a b
  | .expression a, .expression b => equal a b
  | .print a, .print b => equal a b
  | .declare m a, .declare n b => m.equal n && equal a b
  | .block a, .block b => equalAll a b
  | _, _ => false

/-- Equality of nodes in order. -/
def equalAll : List Node → List Node → Bool
  | [], [] => true
  | a :: as, b :: bs => equal a b && equalAll as bs
  | _, _ => false

end

end Node

end MiniLox
