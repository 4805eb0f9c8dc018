import MiniLox.Proofs.Lexing.LongestMatch
import MiniLox.Proofs.Recovery.Statements
import MiniLox.Proofs.Session.Singles

/-!
# The expressions of a source

A source is read as statements, and in these stand expressions, one inside another.  A property
that each form of an expression gives to the expression alone, whatever its operands are, is
proved for all of them by one induction over the phrases of the grammar.  The property that is
proved in this way is that a lexeme stands behind every token and every literal.
-/

namespace MiniLox

/-! ## Expressions in programs -/

/-- The expressions in an expression: itself, and those in its operands. -/
def Expr.parts : Expr → List Expr
  | .literal v => [.literal v]
  | .blank => [.blank]
  | .grouping e => .grouping e :: e.parts
  | .unary op e => .unary op e :: e.parts
  | .binary l op r => .binary l op r :: (l.parts ++ r.parts)
  | .variable name => [.variable name]
  | .assign name e => .assign name e :: e.parts

mutual

/-- The expressions in a statement, at any depth. -/
def Stmt.parts : Stmt → List Expr
  | .expression e | .print e | .declare _ (some e) => e.parts
  | .declare _ none => []
  | .block statements => Program.parts statements

/-- The expressions in statements, at any depth. -/
def Program.parts : List Stmt → List Expr
  | [] => []
  | s :: rest => s.parts ++ Program.parts rest

end

namespace Expr

theorem mem_parts_self (e : Expr) : e ∈ e.parts := by
  cases e <;> exact List.mem_cons_self

/-- The expressions in a part of an expression are in the expression. -/
theorem mem_parts_trans {p e f : Expr} (hp : p ∈ e.parts) (he : e ∈ f.parts) : p ∈ f.parts := by
  induction f with
  | literal | blank | «variable» => rwa [List.mem_singleton.mp he] at hp
  | grouping f ih | unary op f ih | assign name f ih =>
      rcases List.mem_cons.mp he with rfl | he
      · exact hp
      · exact List.mem_cons_of_mem _ (ih he)
  | binary l op r ihl ihr =>
      rcases List.mem_cons.mp he with rfl | he
      · exact hp
      · apply List.mem_cons_of_mem
        exact List.mem_append.mpr ((List.mem_append.mp he).imp ihl ihr)

end Expr

mutual

theorem Stmt.mem_parts_trans {p e : Expr} (hp : p ∈ e.parts) :
    (s : Stmt) → e ∈ s.parts → p ∈ s.parts
  | .expression _, he | .print _, he | .declare _ (some _), he => Expr.mem_parts_trans hp he
  | .declare _ none, he => absurd he List.not_mem_nil
  | .block statements, he => Program.mem_parts_trans hp statements he

theorem Program.mem_parts_trans {p e : Expr} (hp : p ∈ e.parts) :
    (statements : List Stmt) → e ∈ Program.parts statements → p ∈ Program.parts statements
  | [], he => absurd he List.not_mem_nil
  | s :: rest, he =>
    List.mem_append.mpr ((List.mem_append.mp he).imp (Stmt.mem_parts_trans hp s)
      (Program.mem_parts_trans hp rest))

end

namespace Grammar

/-- A property of expressions that follows from one of the tokens of their operators, names and
literals. -/
structure HoldsOfForms (R : Token → Prop) (Q : Expr → Prop) : Prop where
  literal : ∀ t, R t → t.kind ∈ literalKinds → Q (literalExpr t)
  grouping : ∀ e, Q (.grouping e)
  unary : ∀ op e, R op → op.kind ∈ unaryOperators → Q (.unary op e)
  binary : ∀ l op r level, R op → op.kind ∈ operatorsAt level → Q (.binary l op r)
  reference : ∀ name, R name → name.kind = .identifier → Q (.variable name)
  assign : ∀ name e, R name → name.kind = .identifier → Q (.assign name e)

variable {R : Token → Prop} {Q : Expr → Prop}

/-- The property holds of the expressions in the right operands of operators, and the operators
have the property of tokens. -/
def HoldOfParts (R : Token → Prop) (Q : Expr → Prop) (below : Nat) (others : List (Token × Expr)) :
    Prop :=
  ∀ other ∈ others,
    (R other.1 ∧ other.1.kind ∈ operatorsAt (below + 1)) ∧ ∀ e ∈ other.2.parts, Q e

/-- The property holds of the expressions in what a phrase of a symbol stands for. -/
def Symbol.HoldsOfParts (R : Token → Prop) (Q : Expr → Prop) : (s : Symbol) → s.Meaning → Prop
  | .program, p => ∀ e ∈ Program.parts p, Q e
  | .declaration, d | .statement, d => ∀ e ∈ Stmt.parts d, Q e
  | .operators below, others => HoldOfParts R Q below others
  | .expression, e | .assignment, e | .operand _, e | .primary, e => ∀ p ∈ Expr.parts e, Q p

theorem forall_parts_foldl (hforms : HoldsOfForms R Q) {below : Nat} {first : Expr}
    {others : List (Token × Expr)} (hfirst : ∀ e ∈ first.parts, Q e)
    (hothers : HoldOfParts R Q below others) :
    ∀ e ∈ (others.foldl applyOperator first).parts, Q e := by
  induction others generalizing first with
  | nil => exact hfirst
  | cons other rest ih =>
      obtain ⟨⟨⟨hoperator, hkind⟩, hright⟩, hrest⟩ := List.forall_mem_cons.mp hothers
      refine ih ?_ hrest
      rw [applyOperator, Expr.parts, List.forall_mem_cons, List.forall_mem_append]
      exact ⟨hforms.binary _ _ _ _ hoperator hkind, hfirst, hright⟩

theorem parts_literalExpr (t : Token) : (literalExpr t).parts = [literalExpr t] := by
  rw [literalExpr]
  split
  · rfl
  · rfl
  · rfl
  · cases t.literal <;> rfl

/-- What the forms of expressions give to each of them holds of the expressions of a phrase. -/
theorem Tree.holdsOfParts (hforms : HoldsOfForms R Q) {s : Symbol} (t : Tree s)
    (h : ∀ u ∈ t.tokens, R u) : s.HoldsOfParts R Q t.meaning := by
  induction t with
  | nothing => exact List.forall_mem_nil _
  | more first others ihFirst ihOthers =>
      obtain ⟨hfirst, hothers⟩ := List.forall_mem_append.mp h
      exact List.forall_mem_append.mpr ⟨ihFirst hfirst, ihOthers hothers⟩
  | declare => exact List.forall_mem_nil _
  | define word target sign value close ih =>
      simp only [tokens, List.forall_mem_cons, List.forall_mem_append] at h
      exact ih h.2.2.2.1
  | statement _ ih => exact ih h
  | print word value close ih =>
      simp only [tokens, List.forall_mem_cons, List.forall_mem_append] at h
      exact ih h.2.1
  | block opening body closing close ih =>
      simp only [tokens, List.forall_mem_cons, List.forall_mem_append] at h
      exact ih h.2.1
  | evaluate value close ih =>
      simp only [tokens, List.forall_mem_append] at h
      exact ih h.1
  | expression _ ih => exact ih h
  | assign target sign value ih =>
      simp only [tokens, List.forall_mem_cons] at h
      exact List.forall_mem_cons.mpr ⟨hforms.assign _ _ h.1 target.kind_eq, ih h.2.2⟩
  | equality _ ih => exact ih h
  | chain first others ihFirst ihOthers =>
      obtain ⟨hfirst, hothers⟩ := List.forall_mem_append.mp h
      exact forall_parts_foldl hforms (ihFirst hfirst) (ihOthers hothers)
  | stop => exact List.forall_mem_nil _
  | next operator right others ihRight ihOthers =>
      simp only [tokens, List.forall_mem_cons, List.forall_mem_append] at h
      exact List.forall_mem_cons.mpr ⟨⟨⟨h.1, operator.kind_mem⟩, ihRight h.2.1⟩, ihOthers h.2.2⟩
  | unary operator right ih =>
      simp only [tokens, List.forall_mem_cons] at h
      exact List.forall_mem_cons.mpr ⟨hforms.unary _ _ h.1 operator.kind_mem, ih h.2⟩
  | primary _ ih => exact ih h
  | literal t =>
      change ∀ p ∈ (literalExpr t.token).parts, Q p
      rw [parts_literalExpr]
      exact List.forall_mem_singleton.mpr
        (hforms.literal _ (h _ List.mem_cons_self) t.kind_mem)
  | grouping opening inner closing ih =>
      simp only [tokens, List.forall_mem_cons, List.forall_mem_append] at h
      exact List.forall_mem_cons.mpr ⟨hforms.grouping _, ih h.2.1⟩
  | reference t =>
      exact List.forall_mem_singleton.mpr
        (hforms.reference _ (h _ List.mem_cons_self) t.kind_eq)

end Grammar

/-! ## Expressions of sources -/

/-- The token is that of a lexeme. -/
def Token.IsLexical (t : Token) : Prop := ∃ line text, Lexer.IsLexeme line text t

/-- The tokens of an expression are those of lexemes, and its value is that of one. -/
def Expr.IsLexical : Expr → Prop
  | .literal (.number n) => n.IsSingle ∧ n.IsUnsigned
  | .literal _ | .grouping _ => True
  | .blank => False
  | .unary op _ => op.IsLexical ∧ op.kind ∈ unaryOperators
  | .binary _ op _ => op.IsLexical ∧ ∃ level, op.kind ∈ operatorsAt level
  | .variable name | .assign name _ => name.IsLexical ∧ name.kind = .identifier

namespace Lexer

theorem isLexical_of_mem_lex {line : Nat} {t : Token} {source : List Char}
    (h : t ∈ (lex line source).1) : t.IsLexical := by
  obtain ⟨n, c, rest, -, houtcome, -, -⟩ := exists_outcome_of_mem_lex h
  rcases frontIsLexeme_or n c rest with ⟨u, houtcome', hlexeme⟩ | ⟨-, hcut⟩ | ⟨rfl, hopen⟩
  · rw [houtcome] at houtcome'
    exact ⟨n, _, Except.ok.inj houtcome' ▸ hlexeme⟩
  · rw [Piece.outcome, front, hcut] at houtcome
    cases houtcome
  · rw [Piece.outcome, front, cut_openQuotation hopen] at houtcome
    cases houtcome

end Lexer

/-- The text of a name: a letter or an underscore, letters and digits behind it, and no
keyword. -/
structure IsName (word : List Char) : Prop where
  exists_cons : ∃ first others, word = first :: others ∧ (first.isAlpha ∨ first = '_') ∧
    ∀ c ∈ others, c.isAlphanum
  keyword? : TokenKind.keyword? (String.ofList word) = none

namespace Token.IsLexical

variable {t : Token}

/-- What a token carries is told by its kind. -/
theorem by_kind (h : t.IsLexical) :
    (t.kind ∈ Lexer.signKinds ++ TokenKind.keywords ∧ t.lexeme = t.kind.spelling ∧
        t.literal = none) ∨
      (t.kind = .identifier ∧ ∃ word, IsName word ∧ t.lexeme = String.ofList word ∧
        t.literal = some (.text t.lexeme)) ∨
      (t.kind = .number ∧ ∃ n, t.literal = some (.number n) ∧ n.IsSingle ∧ n.IsUnsigned) ∨
      (t.kind = .text ∧ ∃ s, t.literal = some (.text s)) ∨
      t.kind ∈ [.comment, .blank] := by
  have hnumber : ∀ text v, Value.number (Lexer.numberValue text) = v →
      ∃ n, some v = some (Value.number n) ∧ n.IsSingle ∧ n.IsUnsigned := by
    rintro text _ rfl
    exact ⟨_, rfl, Number.isSingle_toSingle _, Lexer.isUnsigned_numberValue text⟩
  obtain ⟨line, text, hlexeme⟩ := h
  cases hlexeme with
  | sign hkind => exact .inl ⟨List.mem_append_left _ hkind, rfl, rfl⟩
  | keyword hkind => exact .inl ⟨List.mem_append_right _ hkind, rfl, rfl⟩
  | identifier hfirst hothers hkeyword =>
      exact .inr (.inl ⟨rfl, _, ⟨⟨_, _, rfl, hfirst, hothers⟩, Lexer.keyword?_eq_none hkeyword⟩,
        rfl, rfl⟩)
  | whole _ hdigits =>
      exact .inr (.inr (.inl ⟨rfl, hnumber text _ (Lexer.numberValue_of_all hdigits)⟩))
  | fraction _ hdigits =>
      exact .inr (.inr (.inl ⟨rfl, hnumber _ _ (Lexer.numberValue_append_point hdigits)⟩))
  | quotation => exact .inr (.inr (.inr (.inl ⟨rfl, _, rfl⟩)))
  | comment => exact .inr (.inr (.inr (.inr List.mem_cons_self)))
  | blank => exact .inr (.inr (.inr (.inr (List.mem_cons_of_mem _ List.mem_cons_self))))

/-- A sign or a keyword is spelled as its kind is. -/
theorem spelled (h : t.IsLexical) (hkind : t.kind ∈ Lexer.signKinds ++ TokenKind.keywords) :
    t.lexeme = t.kind.spelling ∧ t.literal = none := by
  have hnot : ∀ kind ∈ Lexer.signKinds ++ TokenKind.keywords,
      kind ∉ [.identifier, .number, .text, .comment, .blank] := by decide
  have hother := hnot _ hkind
  simp only [List.mem_cons, List.not_mem_nil, or_false, not_or] at hother
  rcases h.by_kind with ⟨-, h⟩ | ⟨h, -⟩ | ⟨h, -⟩ | ⟨h, -⟩ | h
  · exact h
  · exact absurd h hother.1
  · exact absurd h hother.2.1
  · exact absurd h hother.2.2.1
  · simp [hother] at h

theorem exists_number (h : t.IsLexical) (hkind : t.kind = .number) :
    ∃ n, t.literal = some (.number n) ∧ n.IsSingle ∧ n.IsUnsigned := by
  have hcases := h.by_kind
  rw [hkind] at hcases
  simpa [Lexer.signKinds, TokenKind.keywords] using hcases

theorem exists_text (h : t.IsLexical) (hkind : t.kind = .text) :
    ∃ s, t.literal = some (.text s) := by
  have hcases := h.by_kind
  rw [hkind] at hcases
  simpa [Lexer.signKinds, TokenKind.keywords] using hcases

theorem exists_name (h : t.IsLexical) (hkind : t.kind = .identifier) :
    ∃ word, IsName word ∧ t.lexeme = String.ofList word ∧ t.literal = some (.text t.lexeme) := by
  have hcases := h.by_kind
  rw [hkind] at hcases
  simpa [Lexer.signKinds, TokenKind.keywords] using hcases

end Token.IsLexical

theorem isLexical_literalExpr {t : Token} (h : t.IsLexical)
    (hkind : t.kind ∈ Grammar.literalKinds) :
    (Grammar.literalExpr t).IsLexical := by
  rw [Grammar.literalExpr]
  split
  · trivial
  · trivial
  · trivial
  · next htrue hfalse hnil =>
    by_cases hnumber : t.kind = .number
    · obtain ⟨n, hliteral, hsingle⟩ := h.exists_number hnumber
      rw [hliteral]
      exact hsingle
    · have htext : t.kind = .text := by
        simp only [Grammar.literalKinds, List.mem_cons, List.not_mem_nil, or_false] at hkind
        tauto
      obtain ⟨s, hliteral⟩ := h.exists_text htext
      rw [hliteral]
      trivial

theorem holdsOfForms_isLexical : Grammar.HoldsOfForms Token.IsLexical Expr.IsLexical where
  literal _ h hkind := isLexical_literalExpr h hkind
  grouping _ := trivial
  unary _ _ h hkind := ⟨h, hkind⟩
  binary _ _ _ level h hkind := ⟨h, level, hkind⟩
  reference _ h hkind := ⟨h, hkind⟩
  assign _ _ h hkind := ⟨h, hkind⟩

/-- Lexemes stand behind all expressions that are read from a source. -/
theorem Lexer.isLexical_of_scan {source : String} {e : Expr}
    (h : e ∈ Program.parts (Program.parse (scan source).tokens).1) : e.IsLexical := by
  obtain ⟨t, hmeaning, htokens⟩ := exists_tree_of_scan source
  rw [← hmeaning] at h
  exact t.holdsOfParts holdsOfForms_isLexical (fun u hu => isLexical_of_mem_lex (htokens u hu)) e h

end MiniLox
