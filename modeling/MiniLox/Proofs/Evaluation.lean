import MiniLox.Proofs.Action
import MiniLox.Proofs.Environment

/-!
# What operators and names do

Operators, and names that are tokens of a program, write nothing but trace.  An
operator gives its result and changes nothing; a name is looked up, assigned or
defined under its spelling.  That is so where the trace is kept in memory; another
stream may refuse a line.
-/

namespace MiniLox

theorem Stmt.nodes_append (a b : List Stmt) :
    Stmt.nodes (a ++ b) = Stmt.nodes a ++ Stmt.nodes b := by
  induction a with
  | nil => rfl
  | cons s rest ih =>
      rw [List.cons_append, Stmt.nodes, Stmt.nodes, ih, List.cons_append]

namespace Event

/-- The line that is written where a block is entered, with the depth inside it. -/
def entering (depth : Nat) : Event := .trace 2 s!"enter block (depth {depth})"

/-- The line that is written where a block is left, with the depth outside of it. -/
def leaving (depth : Nat) : Event := .trace 2 s!"leave block (depth {depth})"

/-- The line that is written behind a definition. -/
def defining (name : Mark) (v : Value) (depth : Nat) : Event :=
  .trace 2 ("define " ++ name.lexeme.display ++ s!": {v.typeName} = " ++ v.display ++
    s!" (depth {depth})")

end Event

/-- An action wrote nothing but trace, left an environment, and ended in a result. -/
structure Quiet {ε α : Type} (o : Outcome ε α) (env : Environment) (result : Except ε α) :
    Prop where
  output : outputs o.events = []
  environment : o.environment = env
  result : o.result = result

namespace Quiet

variable {ε α β : Type} {env env' env'' : Environment}

theorem bind_ok {x : Action ε α} {f : α → Action ε β} {a : α} {r : Except ε β}
    (hx : Quiet (x env) env' (.ok a)) (hf : Quiet (f a env') env'' r) :
    Quiet ((x >>= f) env) env'' r := by
  rw [Action.bind_ok hx.result, hx.environment]
  constructor
  · rw [outputs_append, hx.output, hf.output, List.append_nil]
  · exact hf.environment
  · exact hf.result

theorem bind_error {x : Action ε α} {f : α → Action ε β} {e : ε}
    (hx : Quiet (x env) env' (.error e)) : Quiet ((x >>= f) env) env' (.error e) := by
  rw [Action.bind_error hx.result]
  exact ⟨hx.output, hx.environment, rfl⟩

theorem pure (a : α) : Quiet ((Pure.pure a : Action ε α) env) env (.ok a) :=
  ⟨rfl, rfl, rfl⟩

theorem lift (r : Except ε α) : Quiet (Action.lift r env) env r :=
  ⟨rfl, rfl, rfl⟩

theorem trace {mode : Mode} (hmode : mode.trace = .memory) (level : Nat) (line : Text) :
    Quiet (Action.trace mode level line env) env (.ok ()) := by
  have htakes : mode.takes (.trace level line) = true := by
    rw [Mode.takes, hmode]
    rfl
  rw [Action.trace, Action.put_of_takes htakes]
  split
  · exact ⟨rfl, rfl, rfl⟩
  · exact ⟨rfl, rfl, rfl⟩

theorem trace_of_isPlain (mode : Mode) (level : Nat) {line : Text} (h : line.isPlain) :
    Quiet (Action.trace mode level line env) env (.ok ()) := by
  have hplain : (Event.trace level line).line.isPlain := h
  rw [Action.trace, Action.put_plain mode hplain]
  split
  · exact ⟨rfl, rfl, rfl⟩
  · exact ⟨rfl, rfl, rfl⟩

theorem mapError {δ : Type} {x : Action ε α} {r : Except ε α} (f : ε → δ)
    (h : Quiet (x env) env' r) : Quiet (x.mapError f env) env' (r.mapError f) :=
  ⟨h.output, h.environment, congrArg (Except.mapError f) h.result⟩

end Quiet

/-- A fault of an operator, which rejects an operand or has no meaning. -/
def Fault.isOfOperator : Fault → Bool
  | .typeMismatch .. => true
  | .unsupportedOperator .. => true
  | _ => false

namespace Evaluation

variable {mode : Mode} {env : Environment}

/-! ## Faults of operators -/

section

variable {v w : Value} {line : Json} {fault : Fault}

theorem isOfOperator_of_asNumber (h : v.asNumber line = .error fault) : fault.isOfOperator := by
  cases v <;> cases h <;> rfl

theorem isOfOperator_of_asText (h : v.asText line = .error fault) : fault.isOfOperator := by
  cases v <;> cases h <;> rfl

theorem isOfOperator_of_asBoolean (h : v.asBoolean line = .error fault) :
    fault.isOfOperator := by
  cases v <;> cases h <;> rfl

theorem isOfOperator_of_plus (h : plus v w line = .error fault) : fault.isOfOperator := by
  have htexts : (do return .text ((← v.asText line) ++ (← w.asText line)) :
      Except Fault Value) = .error fault → fault.isOfOperator := by
    intro h
    rcases error_of_bind h with h | ⟨_, -, h⟩
    · exact isOfOperator_of_asText h
    · rcases error_of_bind h with h | ⟨_, -, h⟩
      · exact isOfOperator_of_asText h
      · cases h
  cases v with
  | number =>
      rcases error_of_bind h with h | ⟨_, -, h⟩
      · exact isOfOperator_of_asNumber h
      · cases h
  | _ => exact htexts h

theorem isOfOperator_of_binaryResult {op : Mark} (h : binaryResult op v w = .error fault) :
    fault.isOfOperator := by
  rw [binaryResult] at h
  split at h
  · rcases error_of_bind h with h | ⟨_, -, h⟩
    · exact isOfOperator_of_asNumber h
    · rcases error_of_bind h with h | ⟨_, -, h⟩
      · exact isOfOperator_of_asNumber h
      · cases h
  · split at h
    · exact isOfOperator_of_plus h
    · cases h
    · cases h
    · cases h
      rfl

theorem isOfOperator_of_unaryResult {op : Mark} (h : unaryResult op v = .error fault) :
    fault.isOfOperator := by
  rw [unaryResult] at h
  split at h
  · rcases error_of_bind h with h | ⟨_, -, h⟩
    · exact isOfOperator_of_asNumber h
    · cases h
  · rcases error_of_bind h with h | ⟨_, -, h⟩
    · exact isOfOperator_of_asBoolean h
    · cases h
  · cases h
    rfl

end

/-! ## Operators and names -/

theorem quiet_unary (hmode : mode.trace = .memory) (operator : Mark) (right : Value) :
    Quiet (unary mode operator right env) env (unaryResult operator right) := by
  rw [unary]
  cases unaryResult operator right with
  | error fault => exact (Quiet.lift (.error fault)).bind_error
  | ok v => exact (Quiet.lift (.ok v)).bind_ok ((Quiet.trace hmode _ _).bind_ok (Quiet.pure v))

theorem quiet_binary (hmode : mode.trace = .memory) (operator : Mark) (left right : Value) :
    Quiet (binary mode operator left right env) env (binaryResult operator left right) := by
  rw [binary]
  cases binaryResult operator left right with
  | error fault => exact (Quiet.lift (.error fault)).bind_error
  | ok v => exact (Quiet.lift (.ok v)).bind_ok ((Quiet.trace hmode _ _).bind_ok (Quiet.pure v))

theorem lookup_of_nameOf {name : Mark} {key : Key} (h : nameOf name = .ok key) :
    lookup name env =
      (match env.get? key with
        | some v => pure v
        | none => Action.fail (undefined name) : Action Fault Value) env := by
  rw [lookup, h]
  rfl

theorem assign_of_nameOf {name : Mark} {key : Key} {v : Value} (h : nameOf name = .ok key) :
    assign mode name v env =
      (match env.assign? key v with
        | some env' => do
          Action.modify fun _ => env'
          Action.trace mode 2 ("assign " ++ name.lexeme.display ++ " = " ++ v.display)
          return v
        | none => Action.fail (undefined name) : Action Fault Value) env := by
  rw [assign, h]
  rfl

variable {name : Token} {v : Value}

theorem lookup_mark (name : Token) :
    lookup name.mark env =
      (match env.get? (.text name.lexeme) with
        | some v => pure v
        | none => Action.fail (undefined name.mark) : Action Fault Value) env :=
  rfl

theorem quiet_lookup_some (h : env.get? (.text name.lexeme) = some v) :
    Quiet (lookup name.mark env) env (.ok v) := by
  rw [lookup_mark, h]
  exact Quiet.pure v

theorem quiet_lookup_none (h : env.get? (.text name.lexeme) = none) :
    Quiet (lookup name.mark env) env (.error (undefined name.mark)) := by
  rw [lookup_mark, h]
  exact ⟨rfl, rfl, rfl⟩

theorem assign_mark (name : Token) :
    assign mode name.mark v env =
      (match env.assign? (.text name.lexeme) v with
        | some env' => do
          Action.modify fun _ => env'
          Action.trace mode 2 ("assign " ++ name.lexeme ++ " = " ++ v.display)
          return v
        | none => Action.fail (undefined name.mark) : Action Fault Value) env :=
  rfl

theorem quiet_assign_some (hmode : mode.trace = .memory) {env' : Environment}
    (h : env.assign? (.text name.lexeme) v = some env') :
    Quiet (assign mode name.mark v env) env' (.ok v) := by
  have hmodify : Quiet (Action.modify (ε := Fault) (fun _ => env') env) env' (.ok ()) :=
    ⟨rfl, rfl, rfl⟩
  rw [assign_mark, h]
  exact hmodify.bind_ok ((Quiet.trace hmode _ _).bind_ok (Quiet.pure v))

theorem quiet_assign_none (h : env.assign? (.text name.lexeme) v = none) :
    Quiet (assign mode name.mark v env) env (.error (undefined name.mark)) := by
  rw [assign_mark, h]
  exact ⟨rfl, rfl, rfl⟩

theorem quiet_define (hmode : mode.trace = .memory) (name : Token) (v : Value) :
    Quiet (define mode name.mark v env) (env.define (.text name.lexeme) v) (.ok ()) := by
  have hmodify : Quiet (Action.modify (ε := Fault) (fun e => e.define (.text name.lexeme) v) env)
      (env.define (.text name.lexeme) v) (.ok ()) :=
    ⟨rfl, rfl, rfl⟩
  have henvironment : ∀ e : Environment, Quiet (Action.environment (ε := Fault) e) e (.ok e) :=
    fun e => ⟨rfl, rfl, rfl⟩
  exact (Quiet.lift (.ok _)).bind_ok
    (hmodify.bind_ok ((henvironment _).bind_ok (Quiet.trace hmode _ _)))

attribute [simp] interpret interpretAll

theorem interpret_declare (name : Mark) (e : Expr) :
    interpret mode (.declare name e.node) = (do
      let v ← evaluate mode e.node
      define mode name v
      return .nil) := by
  cases e <;> rfl

theorem interpret_declare_of_ne {name : Mark} {e : Node} (h : e ≠ .null) :
    interpret mode (.declare name e) = (do
      let value ← evaluate mode e
      define mode name value
      return .nil) := by
  cases e with
  | null => exact (h rfl).elim
  | _ => rfl

theorem events_inScope {α : Type} (body : Action Fault α) (h : 2 ≤ mode.level) :
    (inScope mode body env).events =
      .entering (env.depth + 1) :: (body env.enter).events ++ [.leaving env.depth] := by
  have htrace : ∀ line : String, (Action.trace mode 2 line env).events = [.trace 2 line] := by
    intro line
    rw [Action.trace_plain, if_pos h]
    rfl
  rw [inScope]
  simp only [htrace]
  rfl

/-- A statement of a program is carried out behind a line of trace. -/
theorem step_apply (n : Node) :
    step mode n env =
      ⟨(Action.trace mode 1 s!"execute {n.kindName}" env).events ++
          (interpret mode n env).events,
        (interpret mode n env).environment, (interpret mode n env).result⟩ := by
  rw [step, Action.trace_plain]
  exact Action.bind_ok rfl

/-! ## Statements in order -/

theorem interpretAll_append (a b : List Node) :
    interpretAll mode (a ++ b) = interpretAll mode a >>= fun _ => interpretAll mode b := by
  induction a with
  | nil => rw [List.nil_append, interpretAll, pure_bind]
  | cons n rest ih => rw [List.cons_append, interpretAll, interpretAll, ih, bind_assoc]

theorem execute_append (a b : List Node) :
    execute mode (a ++ b) = execute mode a >>= fun _ => execute mode b := by
  induction a with
  | nil => rw [List.nil_append, execute, pure_bind]
  | cons n rest ih =>
      rw [List.cons_append, execute, execute, ih, bind_assoc]
      apply bind_congr
      intro v
      cases isExpressionStatement n with
      | true => exact (bind_assoc _ _ _).symm
      | false => rfl

end Evaluation

end MiniLox
