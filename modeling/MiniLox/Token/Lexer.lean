import MiniLox.Numeric.Decimal
import MiniLox.Token.Basic

/-!
# From a source to its tokens

A source is cut into consecutive pieces, none empty and none overlapping.  Each
piece is the longest one that the rest of the source can start with: an operator
or punctuation mark, a number, a word, a text in quotes, a comment, or a run of
blanks.  A character that starts none of these is a piece of its own, and so is
the whole rest after a quote that is never closed.

`cut` finds the shape of a piece and its length, `pieces` the list of all, and
`scan` the tokens and the problems.  A piece carries the line it starts on.
-/

namespace MiniLox

/-- A problem in the characters of a source. -/
inductive LexicalCause where
  | unknownCharacter (c : Char)
  | unterminatedText
deriving DecidableEq

/-- The wording of a problem. -/
def LexicalCause.message : LexicalCause → String
  | .unknownCharacter c => "Unknown token " ++ String.singleton c
  | .unterminatedText => "Unterminated string"

/-- A problem and its line. -/
structure LexicalError where
  line : Nat
  cause : LexicalCause
deriving DecidableEq

/-- The shape of a piece of a source. -/
inductive Shape where
  /-- An operator or punctuation mark. -/
  | fixed (kind : TokenKind)
  /-- A keyword or an identifier. -/
  | word
  | number
  /-- A text with its quotes. -/
  | quotation
  | comment
  | blank
  /-- A character that starts no token. -/
  | unknown
  /-- A quote that is never closed, and all that follows. -/
  | openQuotation
deriving DecidableEq

/-- A piece of a source, and the line it starts on. -/
structure Piece where
  shape : Shape
  text : List Char
  line : Nat
deriving DecidableEq

/-- What a source consists of. -/
structure Scan where
  tokens : List Token
  errors : List LexicalError
  /-- The line at the end. -/
  line : Nat

namespace Lexer

/-- The punctuation marks and operators of one character that start no longer one. -/
def single? : Char → Option TokenKind
  | '(' => some .leftParen
  | ')' => some .rightParen
  | '{' => some .leftBrace
  | '}' => some .rightBrace
  | ',' => some .comma
  | '.' => some .dot
  | '-' => some .minus
  | '+' => some .plus
  | ';' => some .semicolon
  | '*' => some .star
  | _ => none

/-- The operators that an equals sign may follow: without it, and with it. -/
def equalSuffixed? : Char → Option (TokenKind × TokenKind)
  | '!' => some (.bang, .bangEqual)
  | '=' => some (.equal, .equalEqual)
  | '<' => some (.less, .lessEqual)
  | '>' => some (.greater, .greaterEqual)
  | _ => none

/-- Whether a character separates tokens. -/
def isBlank (c : Char) : Bool := c == ' ' || c == '\t' || c == '\r' || c == '\n'

/-- Whether a character may start a word. -/
def startsWord (c : Char) : Bool := c.isAlpha || c == '_'

/-- The length of the longest front whose characters all have a property. -/
def runLength (p : Char → Bool) (text : List Char) : Nat := (text.takeWhile p).length

/-- The length of the part of a number after its first digit. -/
def numberLength (rest : List Char) : Nat :=
  let whole := runLength Char.isDigit rest
  match rest.drop whole with
  | '.' :: c :: after => if c.isDigit then whole + 2 + runLength Char.isDigit after else whole
  | _ => whole

/-- The shape of the piece that starts with a character, and how many of the
characters after it belong to it. -/
def cut (c : Char) (rest : List Char) : Shape × Nat :=
  match single? c with
  | some kind => (.fixed kind, 0)
  | none =>
    match equalSuffixed? c with
    | some (plain, withEqual) =>
      if rest.head? = some '=' then (.fixed withEqual, 1) else (.fixed plain, 0)
    | none =>
      if c = '/' then
        match rest with
        | '/' :: after => (.comment, 1 + runLength (· != '\n') after)
        | _ => (.fixed .slash, 0)
      else if c = '"' then
        let inside := runLength (· != '"') rest
        if inside < rest.length then (.quotation, inside + 1) else (.openQuotation, inside)
      else if isBlank c then (.blank, runLength isBlank rest)
      else if c.isDigit then (.number, numberLength rest)
      else if startsWord c then (.word, runLength Char.isAlphanum rest)
      else (.unknown, 0)

/-- The number of line ends in a text. -/
def lineEnds (text : List Char) : Nat := text.count '\n'

/-- The pieces of a source that starts on a line. -/
def pieces (line : Nat) : List Char → List Piece
  | [] => []
  | c :: rest =>
    let front := cut c rest
    let text := c :: rest.take front.2
    ⟨front.1, text, line⟩ :: pieces (line + lineEnds text) (rest.drop front.2)
termination_by source => source.length
decreasing_by simp only [List.length_drop, List.length_cons]; omega

/-- The number that digits stand for: the nearest of 64 bits, rounded to 32. -/
def numberValue (text : List Char) : Number :=
  let whole := text.takeWhile Char.isDigit
  let fraction := (text.dropWhile Char.isDigit).drop 1
  ((Decimal.ofDigits whole fraction).toNumber false).toSingle

end Lexer

namespace Piece

/-- The line at the end of a piece. -/
def endLine (p : Piece) : Nat := p.line + Lexer.lineEnds p.text

/-- The token or the problem that a piece is. -/
def outcome (p : Piece) : Except LexicalError Token :=
  let lexeme := String.ofList p.text
  match p.shape with
  | .fixed kind => .ok (Token.simple kind (some p.line))
  | .word =>
    match TokenKind.keyword? lexeme with
    | some kind => .ok (Token.simple kind (some p.line))
    | none => .ok ⟨.identifier, lexeme, some (.text lexeme), some p.line⟩
  | .number => .ok ⟨.number, lexeme, some (.number (Lexer.numberValue p.text)), some p.line⟩
  | .quotation =>
    let inside := String.ofList (p.text.drop 1).dropLast
    .ok ⟨.text, inside, some (.text inside), some p.line⟩
  | .comment => .ok ⟨.comment, lexeme, none, none⟩
  | .blank => .ok ⟨.blank, lexeme, none, none⟩
  | .unknown => .error ⟨p.line, .unknownCharacter (p.text.headD ' ')⟩
  | .openQuotation => .error ⟨p.endLine, .unterminatedText⟩

/-- The token of a piece, if it has no problem. -/
def token? (p : Piece) : Option Token := p.outcome.toOption

/-- The problem of a piece, if it has one. -/
def error? (p : Piece) : Option LexicalError :=
  match p.outcome with
  | .ok _ => none
  | .error e => some e

end Piece

namespace Lexer

/-- The tokens of a source, with one at its end, and its problems. -/
def scan (source : String) : Scan :=
  let text := source.toList
  let all := pieces 1 text
  let line := 1 + lineEnds text
  ⟨all.filterMap Piece.token? ++ [⟨.endOfInput, "", none, some line⟩],
    all.filterMap Piece.error?, line⟩

end Lexer

end MiniLox
