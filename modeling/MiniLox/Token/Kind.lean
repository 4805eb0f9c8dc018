/-!
# Kinds of tokens

Every kind of token has a name, under which a stored document knows it.  The
punctuation marks, operators and keywords are spelled in one way only; the other
kinds have no fixed spelling.  Comments and blanks carry no meaning.
-/

namespace MiniLox

/-- The kind of a token. -/
inductive TokenKind where
  | leftParen
  | rightParen
  | leftBrace
  | rightBrace
  | comma
  | dot
  | minus
  | plus
  | semicolon
  | slash
  | star
  | bang
  | bangEqual
  | equal
  | equalEqual
  | greater
  | greaterEqual
  | less
  | lessEqual
  | identifier
  | text
  | number
  | andWord
  | classWord
  | elseWord
  | falseWord
  | funWord
  | forWord
  | ifWord
  | nilWord
  | orWord
  | printWord
  | returnWord
  | superWord
  | thisWord
  | trueWord
  | varWord
  | whileWord
  | endOfInput
  | comment
  | blank
deriving DecidableEq, Repr

namespace TokenKind

/-- All kinds. -/
def all : List TokenKind :=
  [.leftParen, .rightParen, .leftBrace, .rightBrace, .comma, .dot, .minus, .plus, .semicolon,
    .slash, .star, .bang, .bangEqual, .equal, .equalEqual, .greater, .greaterEqual, .less,
    .lessEqual, .identifier, .text, .number, .andWord, .classWord, .elseWord, .falseWord,
    .funWord, .forWord, .ifWord, .nilWord, .orWord, .printWord, .returnWord, .superWord,
    .thisWord, .trueWord, .varWord, .whileWord, .endOfInput, .comment, .blank]

/-- The name of a kind in a stored document. -/
def name : TokenKind → String
  | .leftParen => "LEFT_PAREN"
  | .rightParen => "RIGHT_PAREN"
  | .leftBrace => "LEFT_BRACE"
  | .rightBrace => "RIGHT_BRACE"
  | .comma => "COMMA"
  | .dot => "DOT"
  | .minus => "MINUS"
  | .plus => "PLUS"
  | .semicolon => "SEMICOLON"
  | .slash => "SLASH"
  | .star => "STAR"
  | .bang => "BANG"
  | .bangEqual => "BANG_EQUAL"
  | .equal => "EQUAL"
  | .equalEqual => "EQUAL_EQUAL"
  | .greater => "GREATER"
  | .greaterEqual => "GREATER_EQUAL"
  | .less => "LESS"
  | .lessEqual => "LESS_EQUAL"
  | .identifier => "IDENTIFIER"
  | .text => "STRING"
  | .number => "NUMBER"
  | .andWord => "AND"
  | .classWord => "CLASS"
  | .elseWord => "ELSE"
  | .falseWord => "FALSE"
  | .funWord => "FUN"
  | .forWord => "FOR"
  | .ifWord => "IF"
  | .nilWord => "NIL"
  | .orWord => "OR"
  | .printWord => "PRINT"
  | .returnWord => "RETURN"
  | .superWord => "SUPER"
  | .thisWord => "THIS"
  | .trueWord => "TRUE"
  | .varWord => "VAR"
  | .whileWord => "WHILE"
  | .endOfInput => "EOF"
  | .comment => "COMMENT"
  | .blank => "WHITESPACE"

/-- The kind with a name. -/
def ofName? (name : String) : Option TokenKind := all.find? (·.name == name)

/-- The one spelling of a kind, if it has one. -/
def spelling? : TokenKind → Option String
  | .leftParen => some "("
  | .rightParen => some ")"
  | .leftBrace => some "\x7b"
  | .rightBrace => some "\x7d"
  | .comma => some ","
  | .dot => some "."
  | .minus => some "-"
  | .plus => some "+"
  | .semicolon => some ";"
  | .slash => some "/"
  | .star => some "*"
  | .bang => some "!"
  | .bangEqual => some "!="
  | .equal => some "="
  | .equalEqual => some "=="
  | .greater => some ">"
  | .greaterEqual => some ">="
  | .less => some "<"
  | .lessEqual => some "<="
  | .andWord => some "and"
  | .classWord => some "class"
  | .elseWord => some "else"
  | .falseWord => some "false"
  | .funWord => some "fun"
  | .forWord => some "for"
  | .ifWord => some "if"
  | .nilWord => some "nil"
  | .orWord => some "or"
  | .printWord => some "print"
  | .returnWord => some "return"
  | .superWord => some "super"
  | .thisWord => some "this"
  | .trueWord => some "true"
  | .varWord => some "var"
  | .whileWord => some "while"
  | _ => none

/-- The spelling of a kind, empty where it is not fixed. -/
def spelling (kind : TokenKind) : String := kind.spelling?.getD ""

/-- The words that are no identifiers. -/
def keywords : List TokenKind :=
  [.andWord, .classWord, .elseWord, .falseWord, .funWord, .forWord, .ifWord, .nilWord, .orWord,
    .printWord, .returnWord, .superWord, .thisWord, .trueWord, .varWord, .whileWord]

/-- The keyword with a spelling. -/
def keyword? (word : String) : Option TokenKind := keywords.find? (·.spelling == word)

/-- Whether a kind matters to the grammar. -/
def isSemantic (kind : TokenKind) : Bool := kind != .comment && kind != .blank

end TokenKind

end MiniLox
