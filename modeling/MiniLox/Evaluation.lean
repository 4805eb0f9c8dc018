import MiniLox.Node.Basic
import MiniLox.Outcome

/-!
# Evaluation

Statements are carried out and expressions are evaluated directly on nodes.  An
operator evaluates its operands from left to right and then converts them to the
types that it requires.  Arithmetic rounds the result of 64 bits to 32.

A block runs in a scope of its own, which is left however the block ends.

With a level of one or more, a run traces the statements of a program; with two,
definitions, assignments and scopes; with three, the results of operators.  A line
that its stream refuses ends the run, after what was done before it.
-/

namespace MiniLox

namespace Evaluation

/-- The result of a binary operator on two numbers, if it is one on numbers. -/
def arithmetic? : TokenKind → Option (Number → Number → Value)
  | .minus => some fun a b => .number (a.sub b).toSingle
  | .star => some fun a b => .number (a.mul b).toSingle
  | .slash => some fun a b => .number (a.div b).toSingle
  | .greater => some fun a b => .boolean (b.lt a)
  | .greaterEqual => some fun a b => .boolean (b.le a)
  | .less => some fun a b => .boolean (a.lt b)
  | .lessEqual => some fun a b => .boolean (a.le b)
  | _ => none

/-- The sum of two numbers, or two texts joined; the left operand decides which. -/
def plus (left right : Value) (line : Json) : Except Fault Value :=
  match left with
  | .number a => do return .number (a.add (← right.asNumber line)).toSingle
  | _ => do return .text ((← left.asText line) ++ (← right.asText line))

/-- The result of a binary operator. -/
def binaryResult (operator : Mark) (left right : Value) : Except Fault Value :=
  match arithmetic? operator.kind with
  | some f => do
    let a ← left.asNumber operator.line
    let b ← right.asNumber operator.line
    return f a b
  | none =>
    match operator.kind with
    | .plus => plus left right operator.line
    | .equalEqual => .ok (.boolean (left.equal right))
    | .bangEqual => .ok (.boolean (!left.equal right))
    | _ => .error (.unsupportedOperator .binary operator.lexeme)

/-- The result of a unary operator. -/
def unaryResult (operator : Mark) (right : Value) : Except Fault Value :=
  match operator.kind with
  | .minus => do return .number (← right.asNumber operator.line).neg
  | .bang => do return .boolean (!(← right.asBoolean operator.line))
  | _ => .error (.unsupportedOperator .unary operator.lexeme)

/-- Applies a unary operator. -/
def unary (mode : Mode) (operator : Mark) (right : Value) : Action Fault Value := do
  let result ← Action.lift (unaryResult operator right)
  Action.trace mode 3 (operator.lexeme.display ++ right.display ++ " -> " ++ result.display)
  return result

/-- Applies a binary operator. -/
def binary (mode : Mode) (operator : Mark) (left right : Value) : Action Fault Value := do
  let result ← Action.lift (binaryResult operator left right)
  Action.trace mode 3
    (left.display ++ " " ++ operator.lexeme.display ++ " " ++ right.display ++ " -> " ++
      result.display)
  return result

/-- The key that a token names. -/
def nameOf (name : Mark) : Except Fault Key :=
  match name.lexeme.key? with
  | some key => .ok key
  | none => .error (.unusableName name.lexeme.kindName)

/-- The fault of a name that no scope binds. -/
def undefined (name : Mark) : Fault := .undefinedVariable name.lexeme.display name.line

/-- The value of a variable. -/
def lookup (name : Mark) : Action Fault Value := do
  let key ← Action.lift (nameOf name)
  match (← Action.environment).get? key with
  | some v => return v
  | none => Action.fail (undefined name)

/-- Gives a variable a new value. -/
def assign (mode : Mode) (name : Mark) (value : Value) : Action Fault Value := do
  let key ← Action.lift (nameOf name)
  match (← Action.environment).assign? key value with
  | some env => do
    Action.modify fun _ => env
    Action.trace mode 2 ("assign " ++ name.lexeme.display ++ " = " ++ value.display)
    return value
  | none => Action.fail (undefined name)

/-- Defines a variable in the current scope. -/
def define (mode : Mode) (name : Mark) (value : Value) : Action Fault Unit := do
  let key ← Action.lift (nameOf name)
  Action.modify fun env => env.define key value
  let depth := (← Action.environment).depth
  Action.trace mode 2
    ("define " ++ name.lexeme.display ++ s!": {value.typeName} = " ++ value.display ++
      s!" (depth {depth})")

/-- Runs an action in a new scope, which is left even if the action fails.  The lines
around it are plain, and no stream refuses them. -/
def inScope {α : Type} (mode : Mode) (body : Action Fault α) : Action Fault α := fun env =>
  let entered := Action.trace mode 2 s!"enter block (depth {env.enter.depth})" env
  let inner := body env.enter
  let left := Action.trace mode 2 s!"leave block (depth {env.depth})" env
  ⟨entered.events ++ inner.events ++ left.events, inner.environment.leave, inner.result⟩

/-- Evaluates an expression. -/
def evaluate (mode : Mode) : Node → Action Fault Value
  | .literal v => return v
  | .grouping e => evaluate mode e
  | .variable name => lookup name
  | .assign name e => do
    let value ← evaluate mode e
    assign mode name value
  | .unary op e => do
    let right ← evaluate mode e
    unary mode op right
  | .binary l op r => do
    let left ← evaluate mode l
    let right ← evaluate mode r
    binary mode op left right
  | n => Action.fail (.unexpectedNode .evaluate n.description)

mutual

/-- Carries out a statement; the value is that of an expression statement, and
nil for every other. -/
def interpret (mode : Mode) : Node → Action Fault Value
  | .expression e => evaluate mode e
  | .print e => do
    let value ← evaluate mode e
    Action.output mode value.display
    return .nil
  | .declare name .null => do
    define mode name .nil
    return .nil
  | .declare name e => do
    let value ← evaluate mode e
    define mode name value
    return .nil
  | .block statements => do
    inScope mode (interpretAll mode statements)
    return .nil
  | n => Action.fail (.unexpectedNode .interpret n.description)

/-- Carries out the statements of a block. -/
def interpretAll (mode : Mode) : List Node → Action Fault Unit
  | [] => return ()
  | s :: rest => do
    let _ ← interpret mode s
    interpretAll mode rest

end

/-- Carries out a statement of a program. -/
def step (mode : Mode) (statement : Node) : Action Fault Value := do
  Action.trace mode 1 s!"execute {statement.kindName}"
  interpret mode statement

/-- Carries out the statements of a program; the value is that of the last one. -/
def executeAll (mode : Mode) (statements : List Node) : Action Fault Value :=
  statements.foldlM (fun _ s => step mode s) .nil

/-- Whether the value of a statement is shown when it stands in a program. -/
def isExpressionStatement : Node → Bool
  | .expression _ => true
  | _ => false

/-- Carries out the statements of a program, and shows the values of its
expression statements. -/
def execute (mode : Mode) : List Node → Action Fault Unit
  | [] => return ()
  | s :: rest => do
    let value ← step mode s
    if isExpressionStatement s then Action.output mode value.display
    execute mode rest

/-- Carries out a tree that should be the list of statements of a program. -/
def executeTree (mode : Mode) : Node → Action Fault Unit
  | .list statements => execute mode statements
  | n => Action.fail (.notStatements n.kindName)

end Evaluation

end MiniLox
