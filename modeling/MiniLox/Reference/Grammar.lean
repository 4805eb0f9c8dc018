import MiniLox.Token.Kind

/-!
# The grammar as data

The rules of the grammar in extended form, with repetition, option and choice inside a
right-hand side, and the parse trees that they give.  A terminal that a rule spells out is
not kept in the tree, and one that it names is a leaf.  A node is called by its rule or by
the name that the alternative has of its own; a rule that is inlined gives no node where
the alternative has no name and there is one child, which then stands for the whole.

There are no terminals for the words and marks of the language that the grammar does not
use.  Blanks, among them the form feed, and comments are ignored.
-/

namespace MiniLox

namespace Reference

/-- The rules of the grammar. -/
inductive Rule where
  | start
  | declaration
  | varDecl
  | statement
  | printStmt
  | block
  | exprStmt
  | expression
  | assignment
  | equality
  | comparison
  | term
  | factor
  | unary
  | primary
deriving DecidableEq

/-- What a node of a parse tree is called. -/
inductive Label where
  | rule (r : Rule)
  | assign
  | signed
  | number
  | text
  | trueValue
  | falseValue
  | nilValue
  | grouping
  | variable
deriving DecidableEq

/-- A right-hand side, or a part of one. -/
inductive Phrase where
  /-- A terminal that is spelled out. -/
  | quoted (kind : TokenKind)
  /-- A terminal that is named. -/
  | named (kind : TokenKind)
  | rule (r : Rule)
  | seq (first second : Phrase)
  | either (left right : Phrase)
  | optional (inner : Phrase)
  | star (inner : Phrase)

/-- One way to apply a rule, with its own name if it has one. -/
structure Alternative where
  phrase : Phrase
  label : Option Label

/-- Whether a rule gives no node around a single child. -/
def Rule.isInlined : Rule → Bool
  | .start | .varDecl | .printStmt | .block | .exprStmt => false
  | _ => true

namespace Phrase

/-- Operands of a rule, with one of two operators between them. -/
def chain (operand : Rule) (operators : Phrase) : Phrase :=
  .seq (.rule operand) (.star (.seq operators (.rule operand)))

end Phrase

open Phrase in
/-- The alternatives of each rule. -/
def Rule.alternatives : Rule → List Alternative
  | .start => [⟨star (rule .declaration), none⟩]
  | .declaration => [⟨rule .varDecl, none⟩, ⟨rule .statement, none⟩]
  | .varDecl =>
    [⟨seq (quoted .varWord) (seq (named .identifier)
      (seq (optional (seq (quoted .equal) (rule .expression))) (quoted .semicolon))), none⟩]
  | .statement => [⟨rule .printStmt, none⟩, ⟨rule .block, none⟩, ⟨rule .exprStmt, none⟩]
  | .printStmt =>
    [⟨seq (quoted .printWord) (seq (rule .expression) (quoted .semicolon)), none⟩]
  | .block =>
    [⟨seq (quoted .leftBrace) (seq (star (rule .declaration))
      (seq (quoted .rightBrace) (quoted .semicolon))), none⟩]
  | .exprStmt => [⟨seq (rule .expression) (quoted .semicolon), none⟩]
  | .expression => [⟨rule .assignment, none⟩]
  | .assignment =>
    [⟨seq (named .identifier) (seq (quoted .equal) (rule .assignment)), some .assign⟩,
      ⟨rule .equality, none⟩]
  | .equality => [⟨chain .comparison (either (named .bangEqual) (named .equalEqual)), none⟩]
  | .comparison =>
    [⟨chain .term (either (either (named .greater) (named .greaterEqual))
      (either (named .less) (named .lessEqual))), none⟩]
  | .term => [⟨chain .factor (either (named .minus) (named .plus)), none⟩]
  | .factor => [⟨chain .unary (either (named .slash) (named .star)), none⟩]
  | .unary =>
    [⟨seq (either (named .bang) (named .minus)) (rule .unary), some .signed⟩,
      ⟨rule .primary, none⟩]
  | .primary =>
    [⟨named .number, some .number⟩, ⟨named .text, some .text⟩,
      ⟨quoted .trueWord, some .trueValue⟩, ⟨quoted .falseWord, some .falseValue⟩,
      ⟨quoted .nilWord, some .nilValue⟩,
      ⟨seq (quoted .leftParen) (seq (rule .expression) (quoted .rightParen)), some .grouping⟩,
      ⟨named .identifier, some .variable⟩]

/-- The words that the grammar uses. -/
def words : List TokenKind := [.varWord, .printWord, .trueWord, .falseWord, .nilWord]

/-- The operators and marks that the grammar uses. -/
def marks : List TokenKind :=
  [.semicolon, .leftBrace, .rightBrace, .leftParen, .rightParen, .equal, .bangEqual, .equalEqual,
    .greaterEqual, .greater, .lessEqual, .less, .minus, .plus, .slash, .star, .bang]

/-- The terminals that may stand anywhere and mean nothing. -/
def ignored : List TokenKind := [.comment, .blank]

/-- All terminals. -/
def terminals : List TokenKind := words ++ marks ++ ignored ++ [.number, .text, .identifier]

/-- A terminal that has been found in a source, with its characters and its line. -/
structure Lexeme where
  kind : TokenKind
  text : List Char
  line : Nat
deriving DecidableEq

/-- Whether a terminal is preferred to another one in the same place: it is longer, or it is
as long and is spelled out where the other is a pattern. -/
def Lexeme.Beats (t u : Lexeme) : Prop :=
  u.text.length < t.text.length ∨
    u.text.length = t.text.length ∧
      (u.kind = t.kind ∨ t.kind.spelling?.isSome ∧ u.kind.spelling?.isNone)

instance (t u : Lexeme) : Decidable (t.Beats u) := inferInstanceAs (Decidable (_ ∨ _))

/-- A parse tree. -/
inductive ParseTree where
  | leaf (t : Lexeme)
  | node (label : Label) (children : List ParseTree)

/-- The parse tree that an alternative of a rule gives. -/
def ParseTree.build (r : Rule) (a : Alternative) (children : List ParseTree) : ParseTree :=
  match a.label with
  | some label => .node label children
  | none =>
    match r.isInlined, children with
    | true, [child] => child
    | _, _ => .node (.rule r) children

end Reference

end MiniLox
