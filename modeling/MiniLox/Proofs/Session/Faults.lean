import MiniLox.Proofs.Evaluation
import MiniLox.Proofs.Frontend
import MiniLox.Session

/-!
# Faults of a source

A program that comes from a source has an operator wherever there are operands, a value in
every literal, and a line at every operator and every name.  Such a program fails at type
mismatches and undefined variables only, and tells the line of the operator or of the name
at which it does.
-/

namespace MiniLox

open Grammar

/-- A token as it comes from a source: it has a line, and a value if it is a number or a
text. -/
structure Token.IsComplete (t : Token) : Prop where
  line : t.line.isSome
  literal : t.kind = .number ∨ t.kind = .text → t.literal.isSome

/-- An expression with the operators, values and lines that it needs. -/
def Expr.IsComplete : Expr → Prop
  | .literal _ => True
  | .blank => False
  | .grouping e => e.IsComplete
  | .unary op e => (op.kind ∈ unaryOperators ∧ op.line.isSome) ∧ e.IsComplete
  | .binary l op r =>
    l.IsComplete ∧ ((∃ level, op.kind ∈ operatorsAt level) ∧ op.line.isSome) ∧ r.IsComplete
  | .variable name => name.line.isSome
  | .assign name e => name.line.isSome ∧ e.IsComplete

mutual

/-- A statement with the operators, values and lines that it needs. -/
def Stmt.IsComplete : Stmt → Prop
  | .expression e | .print e | .declare _ (some e) => e.IsComplete
  | .declare _ none => True
  | .block statements => Program.IsComplete statements

/-- Statements with the operators, values and lines that they need. -/
def Program.IsComplete : List Stmt → Prop
  | [] => True
  | s :: rest => s.IsComplete ∧ Program.IsComplete rest

end

/-! ## Programs of sources -/

theorem Lexer.isComplete_of_mem_lex {line : Nat} {t : Token} {source : List Char}
    (h : t ∈ (Lexer.lex line source).1) : t.IsComplete := by
  obtain ⟨_, _, _, -, houtcome, hblank, hcomment⟩ := Lexer.exists_outcome_of_mem_lex h
  rcases Lexer.outcome_cases houtcome with
    ⟨k, hspelling, rfl⟩ | rfl | rfl | rfl | ⟨-, hshape | hshape⟩
  · obtain ⟨-, -, hnot⟩ := Lexer.kind_of_spelling hspelling
    simp only [List.mem_cons, List.not_mem_nil, or_false, not_or] at hnot
    refine ⟨rfl, ?_⟩
    rintro (hnumber | htext)
    · exact (hnot.2.1 hnumber).elim
    · exact (hnot.2.2 htext).elim
  · exact ⟨rfl, by rintro (h | h) <;> cases h⟩
  · exact ⟨rfl, fun _ => rfl⟩
  · exact ⟨rfl, fun _ => rfl⟩
  · exact (hcomment hshape).elim
  · exact (hblank hshape).elim

namespace Grammar

/-- Operators of the level above `below`, and their right operands, that are complete. -/
def AreComplete (below : Nat) (others : List (Token × Expr)) : Prop :=
  ∀ other ∈ others,
    (other.1.kind ∈ operatorsAt (below + 1) ∧ other.1.line.isSome) ∧ other.2.IsComplete

/-- What a phrase of a symbol stands for has the operators, values and lines that it needs. -/
def Symbol.IsComplete : (s : Symbol) → s.Meaning → Prop
  | .program, p => Program.IsComplete p
  | .declaration, d | .statement, d => Stmt.IsComplete d
  | .operators below, others => AreComplete below others
  | .expression, e | .assignment, e | .operand _, e | .primary, e => Expr.IsComplete e

theorem isComplete_foldl {below : Nat} {first : Expr} {others : List (Token × Expr)}
    (hfirst : first.IsComplete) (hothers : AreComplete below others) :
    (others.foldl applyOperator first).IsComplete := by
  induction others generalizing first with
  | nil => exact hfirst
  | cons other rest ih =>
      obtain ⟨⟨⟨hkind, hline⟩, hright⟩, hrest⟩ := List.forall_mem_cons.mp hothers
      exact ih ⟨hfirst, ⟨⟨_, hkind⟩, hline⟩, hright⟩ hrest

theorem isComplete_literalExpr {t : Token} (hkind : t.kind ∈ literalKinds)
    (h : t.IsComplete) : (literalExpr t).IsComplete := by
  obtain ⟨kind, lexeme, literal, line⟩ := t
  simp only [literalKinds, List.mem_cons, List.not_mem_nil, or_false] at hkind
  have hvalue : kind = .number ∨ kind = .text → (Expr.ofLiteral literal).IsComplete := by
    intro hkind
    obtain ⟨v, hv⟩ := Option.isSome_iff_exists.mp (h.literal hkind)
    change literal = some v at hv
    rw [hv]
    trivial
  rcases hkind with rfl | rfl | rfl | rfl | rfl
  · exact hvalue (Or.inl rfl)
  · exact hvalue (Or.inr rfl)
  · trivial
  · trivial
  · trivial

theorem Tree.isComplete {s : Symbol} (t : Tree s) (h : ∀ u ∈ t.tokens, u.IsComplete) :
    s.IsComplete t.meaning := by
  induction t with
  | nothing => trivial
  | more first others ihFirst ihOthers =>
      obtain ⟨hfirst, hothers⟩ := List.forall_mem_append.mp h
      exact ⟨ihFirst hfirst, ihOthers hothers⟩
  | declare => trivial
  | define word target sign value close ih =>
      simp only [tokens, List.forall_mem_cons, List.forall_mem_append] at h
      exact ih h.2.2.2.1
  | statement _ ih => exact ih h
  | print word value close ih =>
      simp only [tokens, List.forall_mem_cons, List.forall_mem_append] at h
      exact ih h.2.1
  | block opening body closing close ih =>
      simp only [tokens, List.forall_mem_cons, List.forall_mem_append] at h
      exact ih h.2.1
  | evaluate value close ih =>
      simp only [tokens, List.forall_mem_append] at h
      exact ih h.1
  | expression _ ih => exact ih h
  | assign target sign value ih =>
      simp only [tokens, List.forall_mem_cons] at h
      exact ⟨h.1.line, ih h.2.2⟩
  | equality _ ih => exact ih h
  | chain first others ihFirst ihOthers =>
      obtain ⟨hfirst, hothers⟩ := List.forall_mem_append.mp h
      exact isComplete_foldl (ihFirst hfirst) (ihOthers hothers)
  | stop => exact List.forall_mem_nil _
  | next operator right others ihRight ihOthers =>
      simp only [tokens, List.forall_mem_cons, List.forall_mem_append] at h
      exact List.forall_mem_cons.mpr
        ⟨⟨⟨operator.kind_mem, h.1.line⟩, ihRight h.2.1⟩, ihOthers h.2.2⟩
  | unary operator right ih =>
      simp only [tokens, List.forall_mem_cons] at h
      exact ⟨⟨operator.kind_mem, h.1.line⟩, ih h.2⟩
  | primary _ ih => exact ih h
  | literal t => exact isComplete_literalExpr t.kind_mem (h _ List.mem_cons_self)
  | grouping opening inner closing ih =>
      simp only [tokens, List.forall_mem_cons, List.forall_mem_append] at h
      exact ih h.2.1
  | reference t => exact (h _ List.mem_cons_self).line

end Grammar

theorem IsProgram.isComplete {source : String} {p : Program} (h : IsProgram source p) :
    Program.IsComplete p := by
  obtain ⟨t, rfl, htokens⟩ := h.exists_tree
  exact t.isComplete fun u hu => Lexer.isComplete_of_mem_lex (htokens u hu)

/-! ## Where a program fails -/

/-- A type mismatch or an undefined variable, at a line. -/
def Fault.IsAt (fault : Fault) (line : Json) : Prop := fault.isProgramFault ∧ fault.line = line

namespace Evaluation

variable {level : Nat} {env : Environment} {t : Token} {fault : Fault}

/-- The evaluation of an expression fails at an operator that rejects its operands, or at a
name that no scope binds. -/
inductive FailsAt (level : Nat) : Environment → Expr → Token → Fault → Prop where
  | grouping {env : Environment} {e : Expr} {t : Token} {fault : Fault}
      (h : FailsAt level env e t fault) : FailsAt level env (.grouping e) t fault
  | operand {env : Environment} {op t : Token} {e : Expr} {fault : Fault}
      (h : FailsAt level env e t fault) : FailsAt level env (.unary op e) t fault
  | unary {env : Environment} {op : Token} {e : Expr} {v : Value} {fault : Fault}
      (he : (evaluate level e.node env).result = .ok v)
      (h : unaryResult op.mark v = .error fault) : FailsAt level env (.unary op e) op fault
  | left {env : Environment} {l r : Expr} {op t : Token} {fault : Fault}
      (h : FailsAt level env l t fault) : FailsAt level env (.binary l op r) t fault
  | right {env : Environment} {l r : Expr} {op t : Token} {v : Value} {fault : Fault}
      (hl : (evaluate level l.node env).result = .ok v)
      (h : FailsAt level (evaluate level l.node env).environment r t fault) :
      FailsAt level env (.binary l op r) t fault
  | binary {env : Environment} {l r : Expr} {op : Token} {v w : Value} {fault : Fault}
      (hl : (evaluate level l.node env).result = .ok v)
      (hr : (evaluate level r.node (evaluate level l.node env).environment).result = .ok w)
      (h : binaryResult op.mark v w = .error fault) :
      FailsAt level env (.binary l op r) op fault
  | variable {env : Environment} {name : Token} (h : env.get? (.text name.lexeme) = none) :
      FailsAt level env (.variable name) name (undefined name.mark)
  | value {env : Environment} {name t : Token} {e : Expr} {fault : Fault}
      (h : FailsAt level env e t fault) : FailsAt level env (.assign name e) t fault
  | assign {env : Environment} {name : Token} {e : Expr} {v : Value}
      (he : (evaluate level e.node env).result = .ok v)
      (h : (evaluate level e.node env).environment.assign? (.text name.lexeme) v = none) :
      FailsAt level env (.assign name e) name (undefined name.mark)

mutual

/-- A statement fails where one of its expressions does. -/
inductive StmtFailsAt (level : Nat) : Environment → Stmt → Token → Fault → Prop where
  | expression {env : Environment} {e : Expr} {t : Token} {fault : Fault}
      (h : FailsAt level env e t fault) : StmtFailsAt level env (.expression e) t fault
  | print {env : Environment} {e : Expr} {t : Token} {fault : Fault}
      (h : FailsAt level env e t fault) : StmtFailsAt level env (.print e) t fault
  | declare {env : Environment} {name t : Token} {e : Expr} {fault : Fault}
      (h : FailsAt level env e t fault) :
      StmtFailsAt level env (.declare name (some e)) t fault
  | block {env : Environment} {statements : List Stmt} {t : Token} {fault : Fault}
      (h : ProgramFailsAt level env.enter statements t fault) :
      StmtFailsAt level env (.block statements) t fault

/-- Statements fail where the first of them fails that does. -/
inductive ProgramFailsAt (level : Nat) : Environment → List Stmt → Token → Fault → Prop where
  | here {env : Environment} {s : Stmt} {rest : List Stmt} {t : Token} {fault : Fault}
      (h : StmtFailsAt level env s t fault) : ProgramFailsAt level env (s :: rest) t fault
  | later {env : Environment} {s : Stmt} {rest : List Stmt} {t : Token} {v : Value}
      {fault : Fault} (hs : (interpret level s.node env).result = .ok v)
      (h : ProgramFailsAt level (interpret level s.node env).environment rest t fault) :
      ProgramFailsAt level env (s :: rest) t fault

end

/-! ### Operators -/

theorem isAt_of_asNumber {v : Value} {line : Json} (h : v.asNumber line = .error fault) :
    fault.IsAt line := by
  cases v <;> cases h <;> exact ⟨rfl, rfl⟩

theorem isAt_of_asText {v : Value} {line : Json} (h : v.asText line = .error fault) :
    fault.IsAt line := by
  cases v <;> cases h <;> exact ⟨rfl, rfl⟩

theorem isAt_of_asBoolean {v : Value} {line : Json} (h : v.asBoolean line = .error fault) :
    fault.IsAt line := by
  cases v <;> cases h <;> exact ⟨rfl, rfl⟩

theorem isAt_of_plus {left right : Value} {line : Json}
    (h : plus left right line = .error fault) : fault.IsAt line := by
  have htexts : (do return .text ((← left.asText line) ++ (← right.asText line)) :
      Except Fault Value) = .error fault → fault.IsAt line := by
    intro h
    rcases error_of_bind h with hleft | ⟨a, -, h⟩
    · exact isAt_of_asText hleft
    · rcases error_of_bind h with hright | ⟨b, -, h⟩
      · exact isAt_of_asText hright
      · cases h
  cases left with
  | number a =>
      rcases error_of_bind h with hright | ⟨b, -, h⟩
      · exact isAt_of_asNumber hright
      · cases h
  | _ => exact htexts h

theorem isAt_of_binaryResult {op : Mark} {left right : Value}
    (hkind : ∃ level, op.kind ∈ operatorsAt level)
    (h : binaryResult op left right = .error fault) : fault.IsAt op.line := by
  have hcases : (arithmetic? op.kind).isSome ∨ op.kind ∈ [.plus, .equalEqual, .bangEqual] := by
    obtain ⟨level, hkind⟩ := hkind
    have hall : ∀ level ∈ [1, 2, 3, 4], ∀ k ∈ operatorsAt level,
        (arithmetic? k).isSome ∨ k ∈ [.plus, .equalEqual, .bangEqual] := by decide
    match level with
    | 0 => cases hkind
    | 1 | 2 | 3 | 4 => exact hall _ (by decide) _ hkind
    | _ + 5 => cases hkind
  obtain ⟨kind, lexeme, literal, line⟩ := op
  simp only [binaryResult] at h
  cases harithmetic : arithmetic? kind with
  | some f =>
      simp only [harithmetic] at h
      rcases error_of_bind h with hleft | ⟨a, -, h⟩
      · exact isAt_of_asNumber hleft
      · rcases error_of_bind h with hright | ⟨b, -, h⟩
        · exact isAt_of_asNumber hright
        · cases h
  | none =>
      simp only [harithmetic, Option.isSome_none, Bool.false_eq_true, false_or, List.mem_cons,
        List.not_mem_nil, or_false] at hcases
      rcases hcases with rfl | rfl | rfl
      · exact isAt_of_plus h
      · cases h
      · cases h

theorem isAt_of_unaryResult {op : Mark} {right : Value} (hkind : op.kind ∈ unaryOperators)
    (h : unaryResult op right = .error fault) : fault.IsAt op.line := by
  obtain ⟨kind, lexeme, literal, line⟩ := op
  simp only [unaryOperators, List.mem_cons, List.not_mem_nil, or_false] at hkind
  rcases hkind with rfl | rfl
  · rcases error_of_bind h with hright | ⟨b, -, h⟩
    · exact isAt_of_asBoolean hright
    · cases h
  · rcases error_of_bind h with hright | ⟨b, -, h⟩
    · exact isAt_of_asNumber hright
    · cases h

/-! ### Expressions and statements -/

theorem evaluate_eq_error_iff {e : Expr} (h : e.IsComplete) :
    (evaluate level e.node env).result = .error fault ↔
      ∃ t, FailsAt level env e t fault := by
  induction e generalizing env with
  | literal v =>
      constructor
      · intro hresult
        cases hresult
      · rintro ⟨t, hfails⟩
        cases hfails
  | blank => exact h.elim
  | grouping e ih =>
      rw [Expr.node, evaluate, ih h]
      constructor
      · exact fun ⟨t, hfails⟩ => ⟨t, .grouping hfails⟩
      · rintro ⟨t, ⟨hfails⟩⟩
        exact ⟨t, hfails⟩
  | unary op e ih =>
      rw [Expr.node, evaluate, Action.bind_eq_error_iff, ih h.2]
      constructor
      · rintro (⟨t, hfails⟩ | ⟨v, hv, hresult⟩)
        · exact ⟨t, .operand hfails⟩
        · rw [(quiet_unary (Mode.trace_ofLevel level) op.mark v).result] at hresult
          exact ⟨op, .unary hv hresult⟩
      · rintro ⟨t, hfails⟩
        cases hfails with
        | operand hfails => exact Or.inl ⟨t, hfails⟩
        | @unary _ _ _ v _ hv hresult =>
            refine Or.inr ⟨v, hv, ?_⟩
            exact (quiet_unary (Mode.trace_ofLevel level) op.mark v).result.trans hresult
  | binary l op r ihLeft ihRight =>
      rw [Expr.node, evaluate, Action.bind_eq_error_iff, ihLeft h.1]
      constructor
      · rintro (⟨t, hfails⟩ | ⟨v, hv, hresult⟩)
        · exact ⟨t, .left hfails⟩
        · rcases Action.bind_eq_error_iff.mp hresult with hright | ⟨w, hw, hresult⟩
          · obtain ⟨t, hfails⟩ := (ihRight h.2.2).mp hright
            exact ⟨t, .right hv hfails⟩
          · rw [(quiet_binary (Mode.trace_ofLevel level) op.mark v w).result] at hresult
            exact ⟨op, .binary hv hw hresult⟩
      · rintro ⟨t, hfails⟩
        cases hfails with
        | left hfails => exact Or.inl ⟨t, hfails⟩
        | @right _ _ _ _ _ v _ hv hfails =>
            exact Or.inr ⟨v, hv, Action.bind_eq_error_iff.mpr
              (Or.inl ((ihRight h.2.2).mpr ⟨t, hfails⟩))⟩
        | @binary _ _ _ _ v w _ hv hw hresult =>
            refine Or.inr ⟨v, hv, Action.bind_eq_error_iff.mpr (Or.inr ⟨w, hw, ?_⟩)⟩
            exact (quiet_binary (Mode.trace_ofLevel level) op.mark v w).result.trans hresult
  | «variable» name =>
      rw [Expr.node, evaluate]
      cases hget : env.get? (.text name.lexeme) with
      | some v =>
          rw [(quiet_lookup_some hget).result]
          constructor
          · intro hresult
            cases hresult
          · rintro ⟨t, hfails⟩
            cases hfails with
            | «variable» hnone =>
                rw [hget] at hnone
                cases hnone
      | none =>
          rw [(quiet_lookup_none hget).result]
          constructor
          · intro hresult
            cases hresult
            exact ⟨name, .variable hget⟩
          · rintro ⟨t, ⟨_⟩⟩
            rfl
  | assign name e ih =>
      rw [Expr.node, evaluate, Action.bind_eq_error_iff, ih h.2]
      constructor
      · rintro (⟨t, hfails⟩ | ⟨v, hv, hresult⟩)
        · exact ⟨t, .value hfails⟩
        · cases hassign : (evaluate level e.node env).environment.assign? (.text name.lexeme) v with
          | some env' =>
              rw [(quiet_assign_some (Mode.trace_ofLevel level) hassign).result] at hresult
              cases hresult
          | none =>
              rw [(quiet_assign_none hassign).result] at hresult
              cases hresult
              exact ⟨name, .assign hv hassign⟩
      · rintro ⟨t, hfails⟩
        cases hfails with
        | value hfails => exact Or.inl ⟨t, hfails⟩
        | @assign _ _ _ v hv hassign =>
            exact Or.inr ⟨v, hv, (quiet_assign_none hassign).result⟩

mutual

theorem interpret_eq_error_iff : {s : Stmt} → {env : Environment} → s.IsComplete →
    ((interpret level s.node env).result = .error fault ↔
      ∃ t, StmtFailsAt level env s t fault)
  | .expression e, env, h => by
      rw [Stmt.node, interpret, evaluate_eq_error_iff h]
      constructor
      · exact fun ⟨t, hfails⟩ => ⟨t, .expression hfails⟩
      · rintro ⟨t, hfails⟩
        cases hfails with
        | expression hfails => exact ⟨t, hfails⟩
  | .print e, env, h => by
      rw [Stmt.node, interpret, Action.bind_eq_error_iff, evaluate_eq_error_iff h]
      constructor
      · rintro (⟨t, hfails⟩ | ⟨v, -, hresult⟩)
        · exact ⟨t, .print hfails⟩
        · cases hresult
      · rintro ⟨t, hfails⟩
        cases hfails with
        | print hfails => exact Or.inl ⟨t, hfails⟩
  | .declare name none, env, _ => by
      rw [Stmt.node, interpret, Action.bind_eq_error_iff]
      constructor
      · rintro (hdefine | ⟨v, -, hresult⟩)
        · rw [(quiet_define (Mode.trace_ofLevel level) name .nil).result] at hdefine
          cases hdefine
        · cases hresult
      · rintro ⟨t, hfails⟩
        cases hfails
  | .declare name (some e), env, h => by
      rw [Stmt.node, interpret_declare, Action.bind_eq_error_iff, evaluate_eq_error_iff h]
      constructor
      · rintro (⟨t, hfails⟩ | ⟨v, -, hresult⟩)
        · exact ⟨t, .declare hfails⟩
        · rcases Action.bind_eq_error_iff.mp hresult with hdefine | ⟨_, -, hresult⟩
          · rw [(quiet_define (Mode.trace_ofLevel level) name v).result] at hdefine
            cases hdefine
          · cases hresult
      · rintro ⟨t, hfails⟩
        cases hfails with
        | declare hfails => exact Or.inl ⟨t, hfails⟩
  | .block statements, env, h => by
      have hinner : (inScope level (interpretAll level (Stmt.nodes statements)) env).result =
          (interpretAll level (Stmt.nodes statements) env.enter).result := rfl
      rw [Stmt.node, interpret, Action.bind_eq_error_iff, hinner, interpretAll_eq_error_iff h]
      constructor
      · rintro (⟨t, hfails⟩ | ⟨_, -, hresult⟩)
        · exact ⟨t, .block hfails⟩
        · cases hresult
      · rintro ⟨t, hfails⟩
        cases hfails with
        | block hfails => exact Or.inl ⟨t, hfails⟩

theorem interpretAll_eq_error_iff : {p : List Stmt} → {env : Environment} →
    Program.IsComplete p →
    ((interpretAll level (Stmt.nodes p) env).result = .error fault ↔
      ∃ t, ProgramFailsAt level env p t fault)
  | [], env, _ => by
      constructor
      · intro hresult
        cases hresult
      · rintro ⟨t, hfails⟩
        cases hfails
  | s :: rest, env, h => by
      rw [Stmt.nodes, interpretAll, Action.bind_eq_error_iff, interpret_eq_error_iff h.1]
      constructor
      · rintro (⟨t, hfails⟩ | ⟨v, hv, hresult⟩)
        · exact ⟨t, .here hfails⟩
        · obtain ⟨t, hfails⟩ := (interpretAll_eq_error_iff h.2).mp hresult
          exact ⟨t, .later hv hfails⟩
      · rintro ⟨t, hfails⟩
        cases hfails with
        | here hfails => exact Or.inl ⟨t, hfails⟩
        | @later _ _ _ _ v _ hv hfails =>
            exact Or.inr ⟨v, hv, (interpretAll_eq_error_iff h.2).mpr ⟨t, hfails⟩⟩

end

/-- A program fails where its statements, carried out one after another, do. -/
theorem execute_eq_error_iff {p : List Stmt} (h : Program.IsComplete p) :
    (execute level (Stmt.nodes p) env).result = .error fault ↔
      ∃ t, ProgramFailsAt level env p t fault := by
  rw [← interpretAll_eq_error_iff h]
  generalize Stmt.nodes p = nodes
  induction nodes generalizing env with
  | nil => rfl
  | cons n rest ih =>
      have htrace : Quiet (Action.trace level 1 s!"execute {n.kindName}" env) env
          (.ok ()) :=
        Quiet.trace (Mode.trace_ofLevel level) _ _
      rw [execute, interpretAll, step, bind_assoc, Action.bind_ok htrace.result,
        htrace.environment, Action.bind_eq_error_iff, Action.bind_eq_error_iff]
      simp only [← ih]
      cases isExpressionStatement n <;> rfl

/-! ### Lines -/

theorem FailsAt.isAt {e : Expr} (hfails : FailsAt level env e t fault) (h : e.IsComplete) :
    t.line.isSome ∧ fault.IsAt t.mark.line := by
  induction hfails with
  | grouping _ ih => exact ih h
  | operand _ ih => exact ih h.2
  | unary _ hresult => exact ⟨h.1.2, isAt_of_unaryResult h.1.1 hresult⟩
  | left _ ih => exact ih h.1
  | right _ _ ih => exact ih h.2.2
  | binary _ _ hresult => exact ⟨h.2.1.2, isAt_of_binaryResult h.2.1.1 hresult⟩
  | «variable» => exact ⟨h, rfl, rfl⟩
  | value _ ih => exact ih h.2
  | assign => exact ⟨h.1, rfl, rfl⟩

mutual

theorem StmtFailsAt.isAt : {s : Stmt} → {env : Environment} →
    StmtFailsAt level env s t fault → s.IsComplete → t.line.isSome ∧ fault.IsAt t.mark.line
  | _, _, .expression hfails, h | _, _, .print hfails, h | _, _, .declare hfails, h =>
      hfails.isAt h
  | _, _, .block hfails, h => hfails.isAt h

theorem ProgramFailsAt.isAt : {p : List Stmt} → {env : Environment} →
    ProgramFailsAt level env p t fault → Program.IsComplete p →
      t.line.isSome ∧ fault.IsAt t.mark.line
  | _, _, .here hfails, h => hfails.isAt h.1
  | _, _, .later _ hfails, h => hfails.isAt h.2

end

/-- The fault is that of a name without a binding, or that of an operator. -/
theorem FailsAt.undefined_or_isOfOperator {e : Expr} (hfails : FailsAt level env e t fault) :
    fault = undefined t.mark ∨ fault.isOfOperator := by
  induction hfails with
  | unary _ hresult => exact Or.inr (isOfOperator_of_unaryResult hresult)
  | binary _ _ hresult => exact Or.inr (isOfOperator_of_binaryResult hresult)
  | «variable» | assign => exact Or.inl rfl
  | grouping _ ih | operand _ ih | left _ ih | right _ _ ih | value _ ih => exact ih

mutual

theorem StmtFailsAt.undefined_or_isOfOperator : {s : Stmt} → {env : Environment} →
    StmtFailsAt level env s t fault → fault = undefined t.mark ∨ fault.isOfOperator
  | _, _, .expression hfails | _, _, .print hfails | _, _, .declare hfails =>
      hfails.undefined_or_isOfOperator
  | _, _, .block hfails => hfails.undefined_or_isOfOperator

theorem ProgramFailsAt.undefined_or_isOfOperator : {p : List Stmt} → {env : Environment} →
    ProgramFailsAt level env p t fault → fault = undefined t.mark ∨ fault.isOfOperator
  | _, _, .here hfails => hfails.undefined_or_isOfOperator
  | _, _, .later _ hfails => hfails.undefined_or_isOfOperator

end

/-- The wording of a fault at a line of a program is plain. -/
theorem ProgramFailsAt.isPlain_message {p : List Stmt} {line : Nat}
    (hfails : ProgramFailsAt level env p t fault) (hkind : fault.isProgramFault)
    (hline : fault.line = .whole line) : fault.message.isPlain := by
  have honLine : (Fault.onLine (.whole line)).isPlain := by
    change (Text.ofString _ ++ Text.ofString _).isPlain
    rw [Text.isPlain_append, Text.isPlain_ofString, Text.isPlain_ofString]
    rfl
  cases fault with
  | typeMismatch expected actual l =>
      cases hline
      simp [Fault.message, honLine]
  | undefinedVariable name l =>
      cases hline
      rcases hfails.undefined_or_isOfOperator with heq | hoperator
      · have hname : name = t.lexeme := (Fault.undefinedVariable.inj heq).1
        simp [Fault.message, honLine, hname]
      · cases hoperator
  | _ => cases hkind

/-- A program that fails does so at an operator or a name, which has a line. -/
theorem exists_failsAt {p : List Stmt} (h : Program.IsComplete p)
    (hresult : (execute level (Stmt.nodes p) env).result = .error fault) :
    ∃ t line, ProgramFailsAt level env p t fault ∧ t.line = some line ∧
      fault.IsAt (.whole line) := by
  obtain ⟨t, hfails⟩ := (execute_eq_error_iff h).mp hresult
  obtain ⟨hsome, hfault⟩ := hfails.isAt h
  obtain ⟨line, hline⟩ := Option.isSome_iff_exists.mp hsome
  have hmark : t.mark.line = .whole line := by
    change t.lineJson = _
    rw [Token.lineJson, hline]
  exact ⟨t, line, hfails, hline, hmark ▸ hfault⟩

end Evaluation

end MiniLox
