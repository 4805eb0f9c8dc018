import MiniLox.Proofs.Execution.Lines
import MiniLox.Proofs.Grammar.Tree

/-!
# What a program keeps of its tokens

Of the tokens of a phrase, a program keeps those of its operators and names as they are, and of
those of its literals the values.  All that a program holds has therefore a property that the
tokens of the phrase have, which is proved here once for the kept tokens, and once for the
values.
-/

namespace MiniLox

/-! ## Tokens of programs -/

/-- The tokens that an expression keeps: its operators and names. -/
def Expr.tokens : Expr → List Token
  | .literal _ | .blank => []
  | .grouping e => e.tokens
  | .unary op e => op :: e.tokens
  | .binary l op r => l.tokens ++ op :: r.tokens
  | .variable name => [name]
  | .assign name e => name :: e.tokens

mutual

/-- The tokens that a statement keeps. -/
def Stmt.tokens : Stmt → List Token
  | .expression e | .print e => e.tokens
  | .declare name none => [name]
  | .declare name (some e) => name :: e.tokens
  | .block statements => Program.tokens statements

/-- The tokens that statements keep. -/
def Program.tokens : List Stmt → List Token
  | [] => []
  | s :: rest => s.tokens ++ Program.tokens rest

end

namespace Grammar

/-- The tokens in what a phrase of a symbol stands for. -/
def Symbol.kept : (s : Symbol) → s.Meaning → List Token
  | .program, p => Program.tokens p
  | .declaration, d | .statement, d => Stmt.tokens d
  | .operators _, others => List.flatMap (fun other => other.1 :: Expr.tokens other.2) others
  | .expression, e | .assignment, e | .operand _, e | .primary, e => Expr.tokens e

variable {R : Token → Prop}

theorem forall_tokens_foldl {first : Expr} {others : List (Token × Expr)}
    (hfirst : ∀ u ∈ first.tokens, R u)
    (hothers : ∀ u ∈ others.flatMap fun other => other.1 :: other.2.tokens, R u) :
    ∀ u ∈ (others.foldl applyOperator first).tokens, R u := by
  induction others generalizing first with
  | nil => exact hfirst
  | cons other rest ih =>
      obtain ⟨hright, hrest⟩ := List.forall_mem_append.mp hothers
      exact ih (List.forall_mem_append.mpr ⟨hfirst, hright⟩) hrest

theorem tokens_literalExpr (t : Token) : (literalExpr t).tokens = [] := by
  rw [literalExpr]
  split
  · rfl
  · rfl
  · rfl
  · cases t.literal <;> rfl

/-- What holds of the tokens of a phrase holds of those that its meaning keeps. -/
theorem Tree.forall_kept {s : Symbol} (t : Tree s) (h : ∀ u ∈ t.tokens, R u) :
    ∀ u ∈ s.kept t.meaning, R u := by
  induction t with
  | nothing => exact List.forall_mem_nil _
  | more first others ihFirst ihOthers =>
      obtain ⟨hfirst, hothers⟩ := List.forall_mem_append.mp h
      exact List.forall_mem_append.mpr ⟨ihFirst hfirst, ihOthers hothers⟩
  | declare word target close =>
      rw [tokens, List.forall_mem_cons, List.forall_mem_cons] at h
      exact List.forall_mem_singleton.mpr h.2.1
  | define word target sign value close ih =>
      rw [tokens, List.forall_mem_cons, List.forall_mem_cons, List.forall_mem_cons,
        List.forall_mem_append] at h
      exact List.forall_mem_cons.mpr ⟨h.2.1, ih h.2.2.2.1⟩
  | statement _ ih => exact ih h
  | print word value close ih =>
      rw [tokens, List.forall_mem_cons, List.forall_mem_append] at h
      exact ih h.2.1
  | block opening body closing close ih =>
      rw [tokens, List.forall_mem_cons, List.forall_mem_append] at h
      exact ih h.2.1
  | evaluate value close ih =>
      rw [tokens, List.forall_mem_append] at h
      exact ih h.1
  | expression _ ih => exact ih h
  | assign target sign value ih =>
      rw [tokens, List.forall_mem_cons, List.forall_mem_cons] at h
      exact List.forall_mem_cons.mpr ⟨h.1, ih h.2.2⟩
  | equality _ ih => exact ih h
  | chain first others ihFirst ihOthers =>
      obtain ⟨hfirst, hothers⟩ := List.forall_mem_append.mp h
      exact forall_tokens_foldl (ihFirst hfirst) (ihOthers hothers)
  | stop => exact List.forall_mem_nil _
  | next operator right others ihRight ihOthers =>
      rw [tokens, List.forall_mem_cons, List.forall_mem_append] at h
      exact List.forall_mem_append.mpr
        ⟨List.forall_mem_cons.mpr ⟨h.1, ihRight h.2.1⟩, ihOthers h.2.2⟩
  | unary operator right ih =>
      obtain ⟨hoperator, hright⟩ := List.forall_mem_cons.mp h
      exact List.forall_mem_cons.mpr ⟨hoperator, ih hright⟩
  | primary _ ih => exact ih h
  | literal t =>
      intro u hu
      rw [Symbol.kept, meaning, tokens_literalExpr] at hu
      cases hu
  | grouping opening inner closing ih =>
      rw [tokens, List.forall_mem_cons, List.forall_mem_append] at h
      exact ih h.2.1
  | reference t => exact h

/-! ## Values of programs -/

/-- The literals in what a phrase of a symbol stands for. -/
def Symbol.literals : (s : Symbol) → s.Meaning → List Value
  | .program, p => Node.literalsAll (Stmt.nodes p)
  | .declaration, d | .statement, d => (Stmt.node d).literals
  | .operators _, others => List.flatMap (fun other => (Expr.node other.2).literals) others
  | .expression, e | .assignment, e | .operand _, e | .primary, e => (Expr.node e).literals

variable {Q : Value → Prop}

theorem forall_literals_foldl {first : Expr} {others : List (Token × Expr)}
    (hfirst : ∀ v ∈ first.node.literals, Q v)
    (hothers : ∀ v ∈ others.flatMap fun other => other.2.node.literals, Q v) :
    ∀ v ∈ (others.foldl applyOperator first).node.literals, Q v := by
  induction others generalizing first with
  | nil => exact hfirst
  | cons other rest ih =>
      obtain ⟨hright, hrest⟩ := List.forall_mem_append.mp hothers
      exact ih (List.forall_mem_append.mpr ⟨hfirst, hright⟩) hrest

/-- A property of values that the words `true`, `false` and `nil` stand for. -/
def HoldsOfWords (Q : Value → Prop) : Prop := (∀ b, Q (.boolean b)) ∧ Q .nil

theorem forall_literals_literalExpr {t : Token} (hwords : HoldsOfWords Q)
    (h : ∀ v, t.literal = some v → Q v) : ∀ v ∈ (literalExpr t).node.literals, Q v := by
  rw [literalExpr]
  split
  · exact List.forall_mem_singleton.mpr (hwords.1 true)
  · exact List.forall_mem_singleton.mpr (hwords.1 false)
  · exact List.forall_mem_singleton.mpr hwords.2
  · cases hliteral : t.literal with
    | none => exact List.forall_mem_nil _
    | some v => exact List.forall_mem_singleton.mpr (h v hliteral)

/-- What holds of the values that the tokens of a phrase carry, and of those of the words, holds
of the literals of its meaning. -/
theorem Tree.forall_literals {s : Symbol} (t : Tree s) (hwords : HoldsOfWords Q)
    (h : ∀ u ∈ t.tokens, ∀ v, u.literal = some v → Q v) : ∀ v ∈ s.literals t.meaning, Q v := by
  induction t with
  | nothing => exact List.forall_mem_nil _
  | more first others ihFirst ihOthers =>
      obtain ⟨hfirst, hothers⟩ := List.forall_mem_append.mp h
      exact List.forall_mem_append.mpr ⟨ihFirst hfirst, ihOthers hothers⟩
  | declare => exact List.forall_mem_nil _
  | define word target sign value close ih =>
      rw [tokens, List.forall_mem_cons, List.forall_mem_cons, List.forall_mem_cons,
        List.forall_mem_append] at h
      exact ih h.2.2.2.1
  | statement _ ih => exact ih h
  | print word value close ih =>
      rw [tokens, List.forall_mem_cons, List.forall_mem_append] at h
      exact ih h.2.1
  | block opening body closing close ih =>
      rw [tokens, List.forall_mem_cons, List.forall_mem_append] at h
      exact ih h.2.1
  | evaluate value close ih =>
      rw [tokens, List.forall_mem_append] at h
      exact ih h.1
  | expression _ ih => exact ih h
  | assign target sign value ih =>
      rw [tokens, List.forall_mem_cons, List.forall_mem_cons] at h
      exact ih h.2.2
  | equality _ ih => exact ih h
  | chain first others ihFirst ihOthers =>
      obtain ⟨hfirst, hothers⟩ := List.forall_mem_append.mp h
      exact forall_literals_foldl (ihFirst hfirst) (ihOthers hothers)
  | stop => exact List.forall_mem_nil _
  | next operator right others ihRight ihOthers =>
      rw [tokens, List.forall_mem_cons, List.forall_mem_append] at h
      exact List.forall_mem_append.mpr ⟨ihRight h.2.1, ihOthers h.2.2⟩
  | unary operator right ih =>
      rw [tokens, List.forall_mem_cons] at h
      exact ih h.2
  | primary _ ih => exact ih h
  | literal t => exact forall_literals_literalExpr hwords (h _ List.mem_cons_self)
  | grouping opening inner closing ih =>
      rw [tokens, List.forall_mem_cons, List.forall_mem_append] at h
      exact ih h.2.1
  | reference t => exact List.forall_mem_nil _

end Grammar

end MiniLox
