import MiniLox.Program.Basic
import MiniLox.Reference.Grammar
import MiniLox.Token.Lexer

/-!
# From parse trees to programs

A parse tree is transformed from its leaves to its root: every node becomes what its label
makes of what its children have become.  `parseReference` is the parser of the grammar
followed by this; the parser itself is given.
-/

namespace MiniLox

namespace Reference

/-- What a parse tree becomes. -/
inductive Item where
  | lexeme (t : Lexeme)
  | expr (e : Expr)
  | stmt (s : Stmt)
  | program (p : Program)

/-- An operator or a name as a token. -/
def Lexeme.token (t : Lexeme) : Token :=
  if t.kind = .identifier then
    let name := String.ofList t.text
    ⟨.identifier, name, some (.text name), some t.line⟩
  else Token.simple t.kind (some t.line)

namespace Item

/-- The statement that an item is. -/
def stmt? : Item → Option Stmt
  | stmt s => some s
  | _ => none

/-- The terminal that is a name. -/
def name? : Item → Option Token
  | lexeme t => if t.kind = .identifier then some t.token else none
  | _ => none

/-- Whether an item is more than a terminal. -/
def isNode : Item → Bool
  | lexeme _ => false
  | _ => true

end Item

/-- The expression that is the first of some items, terminals aside. -/
def firstExpr? (items : List Item) : Option Expr :=
  match items.filter Item.isNode with
  | .expr e :: _ => some e
  | _ => none

/-- Operators and operands after an expression, folded to the left. -/
def fold (e : Expr) : List Item → Option Expr
  | [] => some e
  | .lexeme operator :: .expr right :: more => fold (.binary e operator.token right) more
  | _ => none

/-- What a node becomes. -/
def Label.apply (label : Label) (items : List Item) : Option Item :=
  match label with
  | .rule .start => (items.mapM Item.stmt?).map .program
  | .rule .varDecl => do
    let name ← items.findSome? Item.name?
    match items.filter Item.isNode with
    | [] => return .stmt (.declare name none)
    | .expr e :: _ => return .stmt (.declare name (some e))
    | _ => none
  | .rule .printStmt => (firstExpr? items).map (.stmt ∘ .print)
  | .rule .block => ((items.filter Item.isNode).mapM Item.stmt?).map (.stmt ∘ .block)
  | .rule .exprStmt => (firstExpr? items).map (.stmt ∘ .expression)
  | .assign => do
    let name ← items.findSome? Item.name?
    return .expr (.assign name (← firstExpr? items))
  | .rule .equality | .rule .comparison | .rule .term | .rule .factor =>
    match items with
    | .expr e :: more => (fold e more).map .expr
    | _ => none
  | .signed =>
    match items with
    | [.lexeme operator, .expr operand] => some (.expr (.unary operator.token operand))
    | _ => none
  | .number =>
    match items with
    | .lexeme t :: _ => some (.expr (.literal (.number (Lexer.numberValue t.text))))
    | _ => none
  | .text =>
    match items with
    | .lexeme t :: _ =>
      some (.expr (.literal (.text (String.ofList (t.text.drop 1).dropLast))))
    | _ => none
  | .trueValue => some (.expr (.literal (.boolean true)))
  | .falseValue => some (.expr (.literal (.boolean false)))
  | .nilValue => some (.expr (.literal .nil))
  | .grouping => (firstExpr? items).map (.expr ∘ .grouping)
  | .variable =>
    match items with
    | .lexeme t :: _ => some (.expr (.variable t.token))
    | _ => none
  -- The other rules are inlined, with one child in every alternative without a name.
  | .rule .declaration | .rule .statement | .rule .expression | .rule .assignment
  | .rule .unary | .rule .primary => none

mutual

/-- What a parse tree becomes. -/
def transform : ParseTree → Option Item
  | .leaf t => some (.lexeme t)
  | .node label children => do label.apply (← transformAll children)

/-- What parse trees become. -/
def transformAll : List ParseTree → Option (List Item)
  | [] => some []
  | tree :: rest => do return (← transform tree) :: (← transformAll rest)

end

/-- The program that a source is by the grammar, if it is one, where `parser` is the parser
of the grammar. -/
def parseReference (parser : String → Option ParseTree) (source : String) : Option Program := do
  match ← transform (← parser source) with
  | .program p => return p
  | _ => none

end Reference

end MiniLox
