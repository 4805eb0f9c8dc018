import MiniLox.Proofs.Evaluation
import MiniLox.Proofs.Grammar.Exchanging
import MiniLox.Proofs.Lexing.Seams
import MiniLox.Session

/-!
# Programs on later lines

The lines in a program matter to nothing but the line that a fault tells.  A program that
stands some lines further down writes the same lines and changes the environment in the
same way, and where it fails, the line of the fault is as much greater.
-/

namespace MiniLox

/-- The line some lines further down, if it is one. -/
def Json.later (lines : Nat) : Json → Json
  | .whole line => .whole (line + lines)
  | j => j

/-- The token of a node some lines further down. -/
def Mark.later (lines : Nat) (m : Mark) : Mark :=
  { m with line := m.line.later lines }

/-- The fault some lines further down. -/
def Fault.later (lines : Nat) (fault : Fault) : Fault :=
  fault.withLine (fault.line.later lines)

/-- The error with a later line, if it is one of the running program. -/
def Error.later (lines : Nat) : Error → Error
  | .runtime message line => .runtime message (line.later lines)
  | .fault cause => .fault (cause.later lines)
  | e => e

theorem Fault.line_later {lines : Nat} {fault : Fault} (h : fault.isProgramFault) :
    (fault.later lines).line = fault.line.later lines := by
  cases fault with
  | typeMismatch => rfl
  | undefinedVariable => rfl
  | _ => cases h

theorem keepsKinds_later (lines : Nat) : KeepsKinds (Token.later lines) :=
  ⟨fun _ => rfl, fun _ => rfl⟩

theorem Token.later_mark (lines : Nat) (t : Token) :
    (t.later lines).mark = t.mark.later lines := by
  obtain ⟨kind, lexeme, literal, line⟩ := t
  cases line <;> rfl

namespace Evaluation

variable {mode : Mode} (lines : Nat)

/-! ## Lines that are written -/

theorem put_later (event : Event) :
    (Action.put mode event).mapError (Fault.later lines) = Action.put mode event := by
  rw [Action.put]
  split <;> rfl

theorem output_later (line : Text) :
    (Action.output mode line).mapError (Fault.later lines) = Action.output mode line :=
  put_later lines _

theorem trace_later (level : Nat) (line : Text) :
    (Action.trace mode level line).mapError (Fault.later lines) =
      Action.trace mode level line := by
  rw [Action.trace]
  split
  · exact put_later lines _
  · rfl

/-! ## Operators -/

theorem asNumber_later (line : Json) (v : Value) :
    v.asNumber (line.later lines) = (v.asNumber line).mapError (Fault.later lines) := by
  cases v <;> rfl

theorem asText_later (line : Json) (v : Value) :
    v.asText (line.later lines) = (v.asText line).mapError (Fault.later lines) := by
  cases v <;> rfl

theorem asBoolean_later (line : Json) (v : Value) :
    v.asBoolean (line.later lines) = (v.asBoolean line).mapError (Fault.later lines) := by
  cases v <;> rfl

theorem mapError_bind {α β : Type} (f : Fault → Fault) (x : Except Fault α)
    (g : α → Except Fault β) :
    (x >>= g).mapError f = x.mapError f >>= fun a => (g a).mapError f := by
  cases x <;> rfl

theorem plus_later (left right : Value) (line : Json) :
    plus left right (line.later lines) =
      (plus left right line).mapError (Fault.later lines) := by
  cases left with
  | number a =>
      simp only [plus, asNumber_later, mapError_bind]
      rfl
  | _ =>
      simp only [plus, asText_later, mapError_bind]
      rfl

theorem binaryResult_later (operator : Mark) (left right : Value) :
    binaryResult (operator.later lines) left right =
      (binaryResult operator left right).mapError (Fault.later lines) := by
  obtain ⟨kind, lexeme, literal, line⟩ := operator
  simp only [binaryResult, Mark.later]
  cases arithmetic? kind with
  | some f =>
      simp only [asNumber_later, mapError_bind]
      rfl
  | none =>
      cases kind with
      | plus => exact plus_later lines left right line
      | _ => rfl

theorem unaryResult_later (operator : Mark) (right : Value) :
    unaryResult (operator.later lines) right =
      (unaryResult operator right).mapError (Fault.later lines) := by
  obtain ⟨kind, lexeme, literal, line⟩ := operator
  cases kind with
  | minus =>
      simp only [unaryResult, Mark.later, asNumber_later, mapError_bind]
      rfl
  | bang =>
      simp only [unaryResult, Mark.later, asBoolean_later, mapError_bind]
      rfl
  | _ => rfl

theorem unary_later (operator : Mark) (right : Value) :
    unary mode (operator.later lines) right =
      (unary mode operator right).mapError (Fault.later lines) := by
  simp only [unary, unaryResult_later, Action.mapError_bind, Action.mapError_lift,
    trace_later, Action.mapError_pure]
  rfl

theorem binary_later (operator : Mark) (left right : Value) :
    binary mode (operator.later lines) left right =
      (binary mode operator left right).mapError (Fault.later lines) := by
  simp only [binary, binaryResult_later, Action.mapError_bind, Action.mapError_lift,
    trace_later, Action.mapError_pure]
  rfl

/-! ## Names -/

theorem nameOf_later (name : Mark) :
    nameOf (name.later lines) = (nameOf name).mapError (Fault.later lines) := by
  rw [nameOf, nameOf, Mark.later]
  cases name.lexeme.key? <;> rfl

theorem lookup_later (name : Mark) :
    lookup (name.later lines) = (lookup name).mapError (Fault.later lines) := by
  simp only [lookup, nameOf_later, Action.mapError_bind, Action.mapError_lift,
    Action.mapError_environment]
  apply bind_congr
  intro key
  apply bind_congr
  intro env
  cases env.get? key <;> rfl

theorem assign_later (name : Mark) (v : Value) :
    assign mode (name.later lines) v = (assign mode name v).mapError (Fault.later lines) := by
  simp only [assign, nameOf_later, Action.mapError_bind, Action.mapError_lift,
    Action.mapError_environment]
  apply bind_congr
  intro key
  apply bind_congr
  intro env
  cases env.assign? key v with
  | none => rfl
  | some env' =>
      simp only [Action.mapError_bind, Action.mapError_modify, trace_later,
        Action.mapError_pure]
      rfl

theorem define_later (name : Mark) (v : Value) :
    define mode (name.later lines) v = (define mode name v).mapError (Fault.later lines) := by
  simp only [define, nameOf_later, Action.mapError_bind, Action.mapError_lift,
    Action.mapError_modify, Action.mapError_environment, trace_later]
  rfl

/-! ## Expressions and statements -/

theorem evaluate_later (e : Expr) :
    evaluate mode (e.mapTokens (Token.later lines)).node =
      (evaluate mode e.node).mapError (Fault.later lines) := by
  induction e with
  | literal v => rfl
  | blank => rfl
  | grouping e ih => exact ih
  | unary op e ih =>
      simp only [Expr.mapTokens, Expr.node, evaluate, Token.later_mark, ih, unary_later,
        Action.mapError_bind]
  | binary l op r ihLeft ihRight =>
      simp only [Expr.mapTokens, Expr.node, evaluate, Token.later_mark, ihLeft, ihRight,
        binary_later, Action.mapError_bind]
  | «variable» name =>
      simp only [Expr.mapTokens, Expr.node, evaluate, Token.later_mark, lookup_later]
  | assign name e ih =>
      simp only [Expr.mapTokens, Expr.node, evaluate, Token.later_mark, ih, assign_later,
        Action.mapError_bind]

theorem inScope_mapError {α : Type} (f : Fault → Fault) (body : Action Fault α) :
    inScope mode (body.mapError f) = (inScope mode body).mapError f := rfl

mutual

theorem interpret_later : (s : Stmt) →
    interpret mode (s.mapTokens (Token.later lines)).node =
      (interpret mode s.node).mapError (Fault.later lines)
  | .expression e => evaluate_later lines e
  | .print e => by
      simp only [Stmt.mapTokens, Stmt.node, interpret, evaluate_later, Action.mapError_bind,
        output_later, Action.mapError_pure]
  | .declare name none => by
      simp only [Stmt.mapTokens, Option.map_none, Stmt.node, interpret, Token.later_mark,
        define_later, Action.mapError_bind, Action.mapError_pure]
  | .declare name (some e) => by
      simp only [Stmt.mapTokens, Option.map_some, Stmt.node, interpret_declare, Token.later_mark,
        evaluate_later, define_later, Action.mapError_bind, Action.mapError_pure]
  | .block statements => by
      simp only [Stmt.mapTokens, Stmt.node, interpret, interpretAll_later statements,
        inScope_mapError, Action.mapError_bind, Action.mapError_pure]

theorem interpretAll_later : (statements : List Stmt) →
    interpretAll mode (Stmt.nodes (Program.mapTokens (Token.later lines) statements)) =
      (interpretAll mode (Stmt.nodes statements)).mapError (Fault.later lines)
  | [] => rfl
  | s :: rest => by
      simp only [Program.mapTokens, Stmt.nodes, interpretAll, interpret_later s,
        interpretAll_later rest, Action.mapError_bind]

end

/-- The statements of a program do the same on later lines. -/
theorem execute_later (statements : List Stmt) :
    execute mode (Stmt.nodes (Program.mapTokens (Token.later lines) statements)) =
      (execute mode (Stmt.nodes statements)).mapError (Fault.later lines) := by
  induction statements with
  | nil => rfl
  | cons s rest ih =>
      have hkind : (s.mapTokens (Token.later lines)).node.kindName = s.node.kindName := by
        rcases s with _ | _ | ⟨_, _ | _⟩ | _ <;> rfl
      have hshown : isExpressionStatement (s.mapTokens (Token.later lines)).node =
          isExpressionStatement s.node := by
        rcases s with _ | _ | ⟨_, _ | _⟩ | _ <;> rfl
      simp only [Program.mapTokens, Stmt.nodes, execute, step, hkind, hshown, interpret_later, ih,
        Action.mapError_bind, trace_later]
      apply bind_congr
      intro v
      cases isExpressionStatement s.node with
      | true =>
          rw [if_pos rfl, if_pos rfl, Action.mapError_bind, output_later]
      | false => rfl

end Evaluation

end MiniLox
