import MiniLox.Proofs.Execution.Moments
import MiniLox.Proofs.Session.Faults

/-!
# Where a run gets stuck

A tree that was put together by other means than the grammar may ask for what has no meaning: a
statement where an expression belongs, an operator without a rule, a name that is an array.
None of this matters as long as the run does not get there.  A run ends in a fault that is
neither a type mismatch nor an undefined variable nor a refused line if and only if one of its
moments is stuck at such a node, and the fault is that of the moment.
-/

namespace MiniLox

open Grammar

/-- Whether a node can be carried out. -/
def Node.isStatement : Node → Bool
  | .expression _ | .print _ | .declare .. | .block _ => true
  | _ => false

/-- Whether a node can be evaluated. -/
def Node.isExpression : Node → Bool
  | .literal _ | .grouping _ | .unary .. | .binary .. | .variable _ | .assign .. => true
  | _ => false

namespace Evaluation

variable {mode : Mode} {env : Environment} {fault : Fault}

/-- What a moment asks for has no meaning, and nothing before it has failed. -/
inductive Moment.IsStuck (mode : Mode) : Moment → Fault → Prop where
  | statement (env : Environment) {n : Node} (h : n.isStatement = false) :
      IsStuck mode ⟨.interpret, env, n⟩ (.unexpectedNode .interpret n.description)
  | expression (env : Environment) {n : Node} (h : n.isExpression = false) :
      IsStuck mode ⟨.evaluate, env, n⟩ (.unexpectedNode .evaluate n.description)
  | unary {env : Environment} {op : Mark} {e : Node} {v : Value}
      (he : (evaluate mode e env).result = .ok v) (hop : op.kind ∉ unaryOperators) :
      IsStuck mode ⟨.evaluate, env, .unary op e⟩ (.unsupportedOperator .unary op.lexeme)
  | binary {env : Environment} {l r : Node} {op : Mark} {v w : Value}
      (hl : (evaluate mode l env).result = .ok v)
      (hr : (evaluate mode r (evaluate mode l env).environment).result = .ok w)
      (hop : ∀ precedence, op.kind ∉ operatorsAt precedence) :
      IsStuck mode ⟨.evaluate, env, .binary l op r⟩ (.unsupportedOperator .binary op.lexeme)
  | variable (env : Environment) {name : Mark} (hname : name.lexeme.key? = none) :
      IsStuck mode ⟨.evaluate, env, .variable name⟩ (.unusableName name.lexeme.kindName)
  | assign {env : Environment} {name : Mark} {e : Node} {v : Value}
      (he : (evaluate mode e env).result = .ok v) (hname : name.lexeme.key? = none) :
      IsStuck mode ⟨.evaluate, env, .assign name e⟩ (.unusableName name.lexeme.kindName)
  | declare {env : Environment} {name : Mark} {e : Node}
      (he : e = .null ∨ ∃ v, (evaluate mode e env).result = .ok v)
      (hname : name.lexeme.key? = none) :
      IsStuck mode ⟨.interpret, env, .declare name e⟩ (.unusableName name.lexeme.kindName)

/-! ## Operators and names -/

theorem unaryResult_of_not_mem {op : Mark} (hop : op.kind ∉ unaryOperators) (v : Value) :
    unaryResult op v = .error (.unsupportedOperator .unary op.lexeme) := by
  obtain ⟨kind, lexeme, literal, line⟩ := op
  cases kind with
  | bang | minus => exact (hop (by simp [unaryOperators])).elim
  | _ => rfl

theorem binaryResult_of_not_mem {op : Mark} (hop : ∀ precedence, op.kind ∉ operatorsAt precedence)
    (v w : Value) :
    binaryResult op v w = .error (.unsupportedOperator .binary op.lexeme) := by
  obtain ⟨kind, lexeme, literal, line⟩ := op
  cases kind with
  | slash | star => exact (hop 1 (by simp [operatorsAt])).elim
  | minus | plus => exact (hop 2 (by simp [operatorsAt])).elim
  | greater | greaterEqual | less | lessEqual => exact (hop 3 (by simp [operatorsAt])).elim
  | bangEqual | equalEqual => exact (hop 4 (by simp [operatorsAt])).elim
  | _ => rfl

theorem nameOf_of_none {name : Mark} (h : name.lexeme.key? = none) :
    nameOf name = .error (.unusableName name.lexeme.kindName) := by
  rw [nameOf, h]

theorem nameOf_eq_error {name : Mark} (h : nameOf name = .error fault) :
    name.lexeme.key? = none ∧ fault = .unusableName name.lexeme.kindName := by
  rw [nameOf] at h
  split at h
  · cases h
  · next hnone =>
    cases h
    exact ⟨hnone, rfl⟩

section

variable (hwritten : ∀ event, fault ≠ .unwritable event)

include hwritten

theorem lift_trace_eq_error {α : Type} {r : Except Fault α} {lineLevel : Nat} {line : α → Text}
    (h : ((do
      let a ← Action.lift r
      Action.trace mode lineLevel (line a)
      return a : Action Fault α) env).result = .error fault) : r = .error fault := by
  rcases Action.bind_eq_error_iff.mp h with h | ⟨a, -, h⟩
  · exact h
  · rcases Action.bind_eq_error_iff.mp h with h | ⟨_, -, h⟩
    · exact (hwritten _ (Action.trace_eq_error h)).elim
    · cases h

theorem unary_eq_error {op : Mark} {v : Value}
    (h : (unary mode op v env).result = .error fault) : unaryResult op v = .error fault :=
  lift_trace_eq_error hwritten h

theorem binary_eq_error {op : Mark} {v w : Value}
    (h : (binary mode op v w env).result = .error fault) : binaryResult op v w = .error fault :=
  lift_trace_eq_error hwritten h

/-- A name that cannot be used is the only fault in a definition, but for a refused line. -/
theorem define_eq_error {name : Mark} {v : Value}
    (h : (define mode name v env).result = .error fault) : nameOf name = .error fault := by
  rcases Action.bind_eq_error_iff.mp h with h | ⟨key, -, h⟩
  · exact h
  · rcases Action.bind_eq_error_iff.mp h with h | ⟨_, -, h⟩
    · cases h
    · exact (hwritten _ (Action.trace_eq_error h)).elim

end

/-- A name that cannot be used is the only fault in a lookup that no program can have. -/
theorem lookup_eq_error {name : Mark} (h : (lookup name env).result = .error fault) :
    nameOf name = .error fault ∨ fault = undefined name := by
  cases hname : nameOf name with
  | error cause =>
      rw [lookup, hname] at h
      cases h
      exact Or.inl rfl
  | ok key =>
      rw [lookup_of_nameOf hname] at h
      generalize env.get? key = found at h
      cases found <;> cases h
      exact Or.inr rfl

theorem assign_eq_error (hwritten : ∀ event, fault ≠ .unwritable event) {name : Mark} {v : Value}
    (h : (assign mode name v env).result = .error fault) :
    nameOf name = .error fault ∨ fault = undefined name := by
  cases hname : nameOf name with
  | error cause =>
      rw [assign, hname] at h
      cases h
      exact Or.inl rfl
  | ok key =>
      rw [assign_of_nameOf hname] at h
      generalize env.assign? key v = found at h
      cases found with
      | none =>
          cases h
          exact Or.inr rfl
      | some after =>
          rcases Action.bind_eq_error_iff.mp h with h | ⟨_, -, h⟩
          · cases h
          · rcases Action.bind_eq_error_iff.mp h with h | ⟨_, -, h⟩
            · exact (hwritten _ (Action.trace_eq_error h)).elim
            · cases h

/-! ## Stuck moments -/

namespace Moment

variable {m : Moment}

/-- No program of a source gets stuck. -/
theorem IsStuck.isProgramFault (h : m.IsStuck mode fault) : fault.isProgramFault = false := by
  cases h <;> rfl

theorem IsStuck.ne_unwritable (h : m.IsStuck mode fault) (event : Event) :
    fault ≠ .unwritable event := by
  cases h <;> nofun

/-- A moment that is stuck ends in its fault. -/
theorem IsStuck.outcome_error (h : m.IsStuck mode fault) :
    (m.outcome mode).result = .error fault := by
  cases h with
  | statement env h =>
      rename_i n
      cases n <;> first | rfl | cases h
  | expression env h =>
      rename_i n
      cases n <;> first | rfl | cases h
  | unary he hop =>
      refine Action.bind_eq_error_iff.mpr (Or.inr ⟨_, he, ?_⟩)
      exact Action.bind_eq_error_iff.mpr (Or.inl (unaryResult_of_not_mem hop _))
  | binary hl hr hop =>
      refine Action.bind_eq_error_iff.mpr (Or.inr ⟨_, hl, ?_⟩)
      refine Action.bind_eq_error_iff.mpr (Or.inr ⟨_, hr, ?_⟩)
      exact Action.bind_eq_error_iff.mpr (Or.inl (binaryResult_of_not_mem hop _ _))
  | «variable» env hname =>
      exact Action.bind_eq_error_iff.mpr (Or.inl (nameOf_of_none hname))
  | assign he hname =>
      refine Action.bind_eq_error_iff.mpr (Or.inr ⟨_, he, ?_⟩)
      exact Action.bind_eq_error_iff.mpr (Or.inl (nameOf_of_none hname))
  | @declare env name e he hname =>
      have hdefine : ∀ v env', (define mode name v env').result =
          .error (.unusableName name.lexeme.kindName) :=
        fun v env' => Action.bind_eq_error_iff.mpr (Or.inl (nameOf_of_none hname))
      change (interpret mode (.declare name e) env).result = _
      by_cases hnull : e = .null
      · subst hnull
        exact Action.bind_eq_error_iff.mpr (Or.inl (hdefine _ _))
      · obtain ⟨v, hv⟩ := he.resolve_left hnull
        rw [interpret_declare_of_ne hnull]
        refine Action.bind_eq_error_iff.mpr (Or.inr ⟨v, hv, ?_⟩)
        exact Action.bind_eq_error_iff.mpr (Or.inl (hdefine _ _))

/-- A statement that ends in a fault which no program of a source can have is stuck, or one of
its parts ends so. -/
theorem isStuck_or_of_interpret {n : Node} (hfault : fault.isProgramFault = false)
    (hwritten : ∀ event, fault ≠ .unwritable event)
    (h : (interpret mode n env).result = .error fault) :
    IsStuck mode ⟨.interpret, env, n⟩ fault ∨
      ∃ part, Enters mode ⟨.interpret, env, n⟩ part ∧
        (part.outcome mode).result = .error fault := by
  cases n with
  | expression e => exact Or.inr ⟨_, .expression env e, h⟩
  | print e =>
      rcases Action.bind_eq_error_iff.mp h with h | ⟨v, -, h⟩
      · exact Or.inr ⟨_, .print env e, h⟩
      · rcases Action.bind_eq_error_iff.mp h with h | ⟨_, -, h⟩
        · exact (hwritten _ (Action.put_eq_error h)).elim
        · cases h
  | declare name e =>
      have hstuck : ∀ {v env'}, (e = .null ∨ ∃ v, (evaluate mode e env).result = .ok v) →
          (define mode name v env').result = .error fault →
            IsStuck mode ⟨.interpret, env, .declare name e⟩ fault := by
        intro v env' he hdefine
        obtain ⟨hname, rfl⟩ := nameOf_eq_error (define_eq_error hwritten hdefine)
        exact .declare he hname
      by_cases hnull : e = .null
      · subst hnull
        rcases Action.bind_eq_error_iff.mp h with h | ⟨_, -, h⟩
        · exact Or.inl (hstuck (Or.inl rfl) h)
        · cases h
      · rw [interpret_declare_of_ne hnull] at h
        rcases Action.bind_eq_error_iff.mp h with h | ⟨v, hv, h⟩
        · exact Or.inr ⟨_, .initializer env name hnull, h⟩
        · rcases Action.bind_eq_error_iff.mp h with h | ⟨_, -, h⟩
          · exact Or.inl (hstuck (Or.inr ⟨v, hv⟩) h)
          · cases h
  | block statements =>
      rcases Action.bind_eq_error_iff.mp h with h | ⟨_, -, h⟩
      · obtain ⟨before, s, after, rfl, hbefore, hfails⟩ :=
          (interpretAll_eq_error_iff_exists statements).mp h
        exact Or.inr ⟨_, .statement env s after hbefore, hfails⟩
      · cases h
  | _ =>
      cases h
      exact Or.inl (.statement env rfl)

/-- The same of an expression. -/
theorem isStuck_or_of_evaluate {n : Node} (hfault : fault.isProgramFault = false)
    (hwritten : ∀ event, fault ≠ .unwritable event)
    (h : (evaluate mode n env).result = .error fault) :
    IsStuck mode ⟨.evaluate, env, n⟩ fault ∨
      ∃ part, Enters mode ⟨.evaluate, env, n⟩ part ∧
        (part.outcome mode).result = .error fault := by
  have hdefined : ∀ name, fault ≠ undefined name := by
    rintro name rfl
    cases hfault
  cases n with
  | literal v => cases h
  | grouping e => exact Or.inr ⟨_, .grouping env e, h⟩
  | «variable» name =>
      obtain ⟨hname, rfl⟩ :=
        nameOf_eq_error ((lookup_eq_error h).resolve_right (hdefined name))
      exact Or.inl (.variable env hname)
  | assign name e =>
      rcases Action.bind_eq_error_iff.mp h with h | ⟨v, hv, h⟩
      · exact Or.inr ⟨_, .value env name e, h⟩
      · obtain ⟨hname, rfl⟩ :=
          nameOf_eq_error ((assign_eq_error hwritten h).resolve_right (hdefined name))
        exact Or.inl (.assign hv hname)
  | unary op e =>
      rcases Action.bind_eq_error_iff.mp h with h | ⟨v, hv, h⟩
      · exact Or.inr ⟨_, .operand env op e, h⟩
      · replace h := unary_eq_error hwritten h
        by_cases hop : op.kind ∈ unaryOperators
        · have hprogram := (isAt_of_unaryResult hop h).1
          rw [hfault] at hprogram
          cases hprogram
        · rw [unaryResult_of_not_mem hop] at h
          cases h
          exact Or.inl (.unary hv hop)
  | binary l op r =>
      rcases Action.bind_eq_error_iff.mp h with h | ⟨v, hv, h⟩
      · exact Or.inr ⟨_, .left env l op r, h⟩
      · rcases Action.bind_eq_error_iff.mp h with h | ⟨w, hw, h⟩
        · exact Or.inr ⟨_, .right env op r hv, h⟩
        · replace h := binary_eq_error hwritten h
          by_cases hop : ∃ precedence, op.kind ∈ operatorsAt precedence
          · have hprogram := (isAt_of_binaryResult hop h).1
            rw [hfault] at hprogram
            cases hprogram
          · rw [not_exists] at hop
            rw [binaryResult_of_not_mem hop] at h
            cases h
            exact Or.inl (.binary hv hw hop)
  | _ =>
      cases h
      exact Or.inl (.expression env rfl)

/-- A moment ends in a fault that no program of a source can have if and only if one of its
parts is stuck in it. -/
theorem outcome_eq_error_iff (hfault : fault.isProgramFault = false)
    (hwritten : ∀ event, fault ≠ .unwritable event) :
    (m.outcome mode).result = .error fault ↔
      ∃ n, m.Reaches mode n ∧ n.IsStuck mode fault := by
  constructor
  · intro h
    induction hsize : sizeOf m.node using Nat.strongRecOn generalizing m with
    | ind size ih =>
        have hcases : m.IsStuck mode fault ∨
            ∃ part, Enters mode m part ∧ (part.outcome mode).result = .error fault := by
          obtain ⟨activity, env, n⟩ := m
          cases activity with
          | interpret => exact isStuck_or_of_interpret hfault hwritten h
          | evaluate => exact isStuck_or_of_evaluate hfault hwritten h
        rcases hcases with hstuck | ⟨part, henters, hpart⟩
        · exact ⟨m, .refl, hstuck⟩
        · obtain ⟨n, hreaches, hstuck⟩ :=
            ih (sizeOf part.node) (hsize ▸ henters.sizeOf_lt) hpart rfl
          exact ⟨n, hreaches.head henters, hstuck⟩
  · rintro ⟨n, hreaches, hstuck⟩
    exact hreaches.outcome_error hstuck.outcome_error

end Moment

/-- A program ends in a fault that no program of a source can have if and only if a moment of
its run is stuck in it. -/
theorem execute_eq_error_iff_isStuck (hfault : fault.isProgramFault = false)
    (hwritten : ∀ event, fault ≠ .unwritable event) (statements : List Node) :
    (execute mode statements env).result = .error fault ↔
      ∃ m, Occurs mode statements env m ∧ m.IsStuck mode fault := by
  rw [execute_eq_error_iff_exists hwritten]
  constructor
  · rintro ⟨before, s, after, rfl, hbefore, h⟩
    obtain ⟨m, hreaches, hstuck⟩ := (Moment.outcome_eq_error_iff
      (m := ⟨.interpret, (execute mode before env).environment, s⟩) hfault
      hwritten).mp h
    exact ⟨m, ⟨before, s, after, rfl, hbefore, hreaches⟩, hstuck⟩
  · rintro ⟨m, ⟨before, s, after, rfl, hbefore, hreaches⟩, hstuck⟩
    exact ⟨before, s, after, rfl, hbefore, hreaches.outcome_error hstuck.outcome_error⟩

end Evaluation

end MiniLox
