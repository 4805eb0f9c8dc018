import MiniLox.Program.Basic
import MiniLox.Reading

/-!
# From tokens to programs

A declaration is `var name (= expression)? ;` or a statement; a statement is
`print expression ;`, a block `{ declaration* } ;`, or `expression ;`.  An
assignment is `name = assignment` or an expression of the four levels of binary
operators, all of them left associative, over unary operators and primaries.

An assignment is read as an expression first; when an equals sign follows, the
expression must be a variable.  A failure tells how many tokens were left when it
was found.  `Program.parse` then skips to just behind a semicolon or in front
of a word that starts a statement, and goes on from there, so that one pass
finds every independent failure.
-/

namespace MiniLox

/-- What a program does not have where it should. -/
inductive SyntaxCause where
  | variableName
  | semicolonAfterDeclaration
  | semicolonAfterValue
  | semicolonAfterExpression
  | semicolonAfterBlock
  | closingBrace
  | closingParen
  | assignmentTarget
  | expression
deriving DecidableEq

/-- The wording of a syntax error. -/
def SyntaxCause.message : SyntaxCause → String
  | .variableName => "Expect variable name."
  | .semicolonAfterDeclaration => "Expect ';' after variable declaration."
  | .semicolonAfterValue => "Expect ';' after value."
  | .semicolonAfterExpression => "Expect ';' after expression."
  | .semicolonAfterBlock => "Expect ';' after block."
  | .closingBrace => "Expect '\x7d' after block."
  | .closingParen => "Expect ')' after expression."
  | .assignmentTarget => "Invalid assignment target."
  | .expression => "Expect expression."

/-- A syntax error and its line, zero where no line is known. -/
structure SyntaxError where
  line : Nat
  cause : SyntaxCause
deriving DecidableEq

namespace Parser

/-- A syntax error, and how many tokens were left when it was found. -/
structure Failure where
  error : SyntaxError
  remaining : Nat

/-- The result of reading from tokens. -/
abbrev Result (α : Type) (tokens : List Token) := Except Failure (Reading Token α tokens)

/-- The line of a token, zero where it has none. -/
def lineOf (t : Token) : Nat := t.line.getD 0

/-- The line of the next token; `last` is the line of the end. -/
def nextLine (last : Nat) : List Token → Nat
  | [] => last
  | t :: _ => lineOf t

/-- A failure at the next token. -/
def fail {α : Type} (last : Nat) (cause : SyntaxCause) (tokens : List Token) : Except Failure α :=
  .error ⟨⟨nextLine last tokens, cause⟩, tokens.length⟩

/-- The next token, which must be of a kind. -/
def expect (last : Nat) (kind : TokenKind) (cause : SyntaxCause) (tokens : List Token) :
    Result Token tokens :=
  match tokens with
  | t :: rest => if t.kind = kind then .ok ⟨t, rest, by simp⟩ else fail last cause (t :: rest)
  | [] => fail last cause []

mutual

/-- An expression: an assignment, or an expression of the top level. -/
def assignment (last : Nat) (tokens : List Token) : Result Expr tokens := do
  let left ← operand last topLevel tokens
  match h : left.rest with
  | t :: after =>
    have hafter : after.length < tokens.length := by
      have := left.shorter; rw [h, List.length_cons] at this; omega
    if t.kind = .equal then
      match left.value with
      | .variable name => do
        let value ← assignment last after
        return ⟨.assign name value.value, value.rest, Nat.lt_trans value.shorter hafter⟩
      | _ => .error ⟨⟨lineOf t, .assignmentTarget⟩, after.length⟩
    else return left
  | [] => return left
termination_by 16 * tokens.length + topLevel + 3

/-- An expression of a level: operands of the level below, and operators between them. -/
def operand (last : Nat) (level : Nat) (tokens : List Token) : Result Expr tokens :=
  match level with
  | 0 => unary last tokens
  | below + 1 => do
    let first ← operand last below tokens
    have := first.shorter
    operands last below first.value first.rest tokens this
termination_by 16 * tokens.length + level + 2

/-- The operators and operands after a first operand. -/
def operands (last : Nat) (below : Nat) (left : Expr) (tokens input : List Token)
    (shorter : tokens.length < input.length) : Result Expr input :=
  match tokens with
  | t :: after =>
    if t.kind ∈ operatorsAt (below + 1) then do
      let right ← operand last below after
      have := right.shorter
      operands last below (.binary left t right.value) right.rest input (by
        simp only [List.length_cons] at *; omega)
    else return ⟨left, t :: after, shorter⟩
  | [] => return ⟨left, [], shorter⟩
termination_by 16 * tokens.length + below + 3
decreasing_by all_goals simp only [List.length_cons]; omega

/-- A unary operator and its operand, or a primary. -/
def unary (last : Nat) (tokens : List Token) : Result Expr tokens :=
  match tokens with
  | t :: after =>
    if t.kind ∈ unaryOperators then do
      let right ← unary last after
      return ⟨.unary t right.value, right.rest, by
        have := right.shorter; simp only [List.length_cons]; omega⟩
    else primary last (t :: after)
  | [] => primary last []
termination_by 16 * tokens.length + 1

/-- A literal, a variable, or an expression in parentheses. -/
def primary (last : Nat) (tokens : List Token) : Result Expr tokens :=
  match tokens with
  | t :: after =>
    match t.kind with
    | .trueWord => .ok ⟨.literal (.boolean true), after, by simp⟩
    | .falseWord => .ok ⟨.literal (.boolean false), after, by simp⟩
    | .nilWord => .ok ⟨.literal .nil, after, by simp⟩
    | .number | .text => .ok ⟨.ofLiteral t.literal, after, by simp⟩
    | .identifier => .ok ⟨.variable t, after, by simp⟩
    | .leftParen => do
      let inner ← assignment last after
      match h : inner.rest with
      | close :: outside =>
        if close.kind = .rightParen then
          return ⟨.grouping inner.value, outside, by
            have := inner.shorter; rw [h] at this; simp only [List.length_cons] at *; omega⟩
        else .error ⟨⟨lineOf t, .closingParen⟩, outside.length + 1⟩
      | [] => .error ⟨⟨lineOf t, .closingParen⟩, 0⟩
    | _ => fail last .expression (t :: after)
  | [] => fail last .expression []
termination_by 16 * tokens.length
decreasing_by simp only [topLevel, List.length_cons]; omega

end

/-- What has been read, when the next token is of a kind; that token is passed over. -/
def closedBy {α : Type} {tokens : List Token} (last : Nat) (kind : TokenKind) (cause : SyntaxCause)
    (r : Reading Token α tokens) : Result α tokens :=
  (expect last kind cause r.rest).map fun t => (r.andThen t).map fun _ => r.value

/-- The expression that an equals sign introduces, if the next token is one. -/
def initializer (last : Nat) {tokens : List Token} (name : Reading Token Token tokens) :
    Result Stmt tokens :=
  match h : name.rest with
  | t :: after =>
    if t.kind = .equal then
      (assignment last after).map fun value =>
        (value.map fun e => .declare name.value (some e)).weaken (by
          have := name.shorter; rw [h, List.length_cons] at this; omega)
    else .ok (name.map fun n => .declare n none)
  | [] => .ok (name.map fun n => .declare n none)

/-- The rest of a declaration, after its first word. -/
def binding (last : Nat) (tokens : List Token) : Result Stmt tokens := do
  let name ← expect last .identifier .variableName tokens
  let declared ← initializer last name
  closedBy last .semicolon .semicolonAfterDeclaration declared

mutual

/-- A declaration or statement. -/
def declaration (last : Nat) (tokens : List Token) : Result Stmt tokens :=
  match tokens with
  | t :: after =>
    match t.kind with
    | .varWord => (binding last after).map (·.weaken (Nat.le_succ _))
    | .printWord => do
      let e ← assignment last after
      let done ← closedBy last .semicolon .semicolonAfterValue e
      return (done.map .print).weaken (Nat.le_succ _)
    | .leftBrace => do
      let body ← statements last after
      let done ← closedBy last .semicolon .semicolonAfterBlock body
      return (done.map .block).weaken (Nat.le_succ _)
    | _ => do
      let e ← assignment last (t :: after)
      let done ← closedBy last .semicolon .semicolonAfterExpression e
      return done.map .expression
  | [] => do
    let e ← assignment last []
    let done ← closedBy last .semicolon .semicolonAfterExpression e
    return done.map .expression
termination_by 2 * tokens.length

/-- The declarations of a block, up to and with its closing brace. -/
def statements (last : Nat) (tokens : List Token) : Result (List Stmt) tokens :=
  match tokens with
  | t :: after =>
    if t.kind = .rightBrace then .ok ⟨[], after, by simp⟩
    else do
      let first ← declaration last (t :: after)
      have := first.shorter
      let others ← statements last first.rest
      return first.andThen (others.map (first.value :: ·))
  | [] => fail last .closingBrace []
termination_by 2 * tokens.length + 1
decreasing_by all_goals simp only [List.length_cons] at *; omega

end

/-- The words that start a statement. -/
def statementStarts : List TokenKind :=
  [.classWord, .funWord, .varWord, .forWord, .ifWord, .whileWord, .printWord, .returnWord]

/-- The tokens from which to go on, when `previous` stands in front of them. -/
def resume (previous : Token) : List Token → List Token
  | [] => []
  | t :: after =>
    if previous.kind = .semicolon ∨ t.kind ∈ statementStarts then t :: after
    else resume t after

/-- The tokens from which to go on after a failure: at least one token is
skipped, and then all up to a semicolon or a word that starts a statement.
Nothing is left when there is no such place before the end. -/
def synchronize : List Token → List Token
  | [] => []
  | t :: after => resume t after

theorem length_resume_le (previous : Token) (tokens : List Token) :
    (resume previous tokens).length ≤ tokens.length := by
  induction tokens generalizing previous with
  | nil => simp [resume]
  | cons t after ih =>
    rw [resume]
    split
    · exact Nat.le_refl _
    · exact Nat.le_succ_of_le (ih t)

/-- The tokens of a program: those that matter, up to the first end of input,
and the line of the end. -/
structure Input where
  tokens : List Token
  last : Nat

/-- The input that a list of tokens is.  Where no token marks the end, the end
has the line of the last token, and line zero when there is none. -/
def Input.ofTokens (all : List Token) : Input :=
  let semantic := all.filter Token.isSemantic
  let inner := semantic.takeWhile (·.kind != .endOfInput)
  match semantic.find? (·.kind == .endOfInput), semantic.getLast? with
  | some t, _ => ⟨inner, lineOf t⟩
  | none, some t => ⟨inner, lineOf t⟩
  | none, none => ⟨inner, 0⟩

/-- The tokens from which to go on after a failure in a list of tokens. -/
def recover (tokens : List Token) (failure : Failure) : List Token :=
  synchronize (tokens.drop (tokens.length - failure.remaining))

theorem length_synchronize_lt {tokens : List Token} (h : tokens ≠ []) :
    (synchronize tokens).length < tokens.length := by
  match tokens, h with
  | t :: after, _ => exact Nat.lt_succ_of_le (length_resume_le t after)

theorem length_recover_lt {tokens : List Token} (h : tokens ≠ []) (failure : Failure) :
    (recover tokens failure).length < tokens.length := by
  have hpos : 0 < tokens.length := List.length_pos_iff.2 h
  unfold recover
  generalize hleft : tokens.drop (tokens.length - failure.remaining) = left
  have hle : left.length ≤ tokens.length := by rw [← hleft, List.length_drop]; omega
  match left with
  | [] => exact hpos
  | t :: after => exact Nat.lt_of_lt_of_le (length_synchronize_lt (List.cons_ne_nil t after)) hle

/-- All declarations of the tokens, and the errors of the attempts that failed. -/
def declarations (last : Nat) (tokens : List Token) : Program × List SyntaxError :=
  match tokens with
  | [] => ([], [])
  | t :: after =>
    match declaration last (t :: after) with
    | .ok d =>
      let others := declarations last d.rest
      (d.value :: others.1, others.2)
    | .error failure =>
      let others := declarations last (recover (t :: after) failure)
      (others.1, failure.error :: others.2)
termination_by tokens.length
decreasing_by
  · exact d.shorter
  · exact length_recover_lt (List.cons_ne_nil t after) failure

/-- The first declaration that can be read, and the errors before it.  There is
one attempt even when no token is left at first. -/
def firstDeclaration (last : Nat) (tokens : List Token) : Option Stmt × List SyntaxError :=
  match declaration last tokens with
  | .ok d => (some d.value, [])
  | .error failure =>
    match h : recover tokens failure with
    | [] => (none, [failure.error])
    | t :: after =>
      have : (t :: after).length < tokens.length := by
        rw [← h]
        refine length_recover_lt ?_ failure
        rintro rfl
        simp [recover, synchronize] at h
      let next := firstDeclaration last (t :: after)
      (next.1, failure.error :: next.2)
termination_by tokens.length

end Parser

/-- Reads a whole program from tokens, with every syntax error in it. -/
def Program.parse (tokens : List Token) : Program × List SyntaxError :=
  let input := Parser.Input.ofTokens tokens
  Parser.declarations input.last input.tokens

/-- Reads the first declaration that can be read, with every syntax error before it. -/
def Stmt.parse (tokens : List Token) : Option Stmt × List SyntaxError :=
  let input := Parser.Input.ofTokens tokens
  Parser.firstDeclaration input.last input.tokens

end MiniLox
