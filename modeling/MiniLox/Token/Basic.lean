import MiniLox.Json.Key
import MiniLox.Token.Kind
import MiniLox.Value

/-!
# Tokens

A token is one lexical unit of a source: its kind, the text that it was read
from, the value of a literal or the name of an identifier, and the line it
starts on.  Comments and blanks have no line.

A `Mark` is a token as a node of a stored tree keeps it, where the text, the
literal and the line may be any data.
-/

namespace MiniLox

/-- One lexical unit of a source. -/
structure Token where
  kind : TokenKind
  lexeme : String
  literal : Option Value
  line : Option Nat
deriving DecidableEq

/-- A token whose text, literal and line may be any data. -/
structure Mark where
  kind : TokenKind
  lexeme : Json
  literal : Json
  line : Json

namespace Mark

/-- The text of data that stands for a value. -/
def literalText : Json → Text
  | .boolean b => if b then "true" else "false"
  | .real n => n.display
  | j => j.display

/-- The text that a token shows.  An identifier or text shows its literal, and
shows nothing when that is no text. -/
def text? (m : Mark) : Option Text :=
  match m.kind with
  | .identifier | .text =>
    match m.literal with
    | .text s => some s
    | _ => none
  | .number => some (literalText m.literal)
  | kind => some kind.spelling

/-- Equality of tokens, their lines aside. -/
def equal (a b : Mark) : Bool :=
  a.kind == b.kind && a.lexeme.same b.lexeme && a.literal.same b.literal

end Mark

namespace Token

/-- The token of a kind with a fixed spelling. -/
def simple (kind : TokenKind) (line : Option Nat) : Token := ⟨kind, kind.spelling, none, line⟩

/-- Whether a token matters to the grammar. -/
def isSemantic (t : Token) : Bool := t.kind.isSemantic

/-- A line as data. -/
def lineJson (t : Token) : Json :=
  match t.line with
  | some n => .whole n
  | none => .null

/-- The token as a node keeps it. -/
def mark (t : Token) : Mark :=
  ⟨t.kind, .text t.lexeme, (t.literal.map Value.toJson).getD .null, t.lineJson⟩

/-- The text that a token shows, if it has one. -/
def text? (t : Token) : Option Text := t.mark.text?

/-- Equality of literals: numbers and booleans by their value, everything else by identity. -/
def literalsEqual (a b : Option Value) : Bool :=
  match (a.map Value.toJson).bind Json.key?, (b.map Value.toJson).bind Json.key? with
  | some x, some y => x.equal y
  | none, none => true
  | _, _ => false

/-- Equality of tokens, their lines aside. -/
def equal (a b : Token) : Bool :=
  a.kind == b.kind && a.lexeme == b.lexeme && literalsEqual a.literal b.literal

end Token

end MiniLox
