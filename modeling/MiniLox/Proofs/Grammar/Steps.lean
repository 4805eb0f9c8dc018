import MiniLox.Program.Parser
import MiniLox.Proofs.Grammar.Tree

/-!
# What one step of reading does

For every function that reads from tokens, the exact condition under which it
succeeds, in terms of the functions that it calls.  Everything else that is proved
about reading a program follows from these conditions.
-/

namespace MiniLox

namespace Parser

open Grammar

variable {α β : Type} {last : Nat} {tokens rest : List Token}

/-! ## Results -/

/-- A result is a value and the rest of the tokens. -/
def Yields (result : Result α tokens) (value : α) (rest : List Token) : Prop :=
  ∃ shorter, result = .ok ⟨value, rest, shorter⟩

theorem Yields.shorter {result : Result α tokens} {value : α} (h : Yields result value rest) :
    rest.length < tokens.length :=
  h.1

theorem yields_ok_iff {r : Reading Token α tokens} {value : α} :
    Yields (.ok r) value rest ↔ r.value = value ∧ r.rest = rest := by
  constructor
  · rintro ⟨_, h⟩
    cases h
    exact ⟨rfl, rfl⟩
  · rintro ⟨rfl, rfl⟩
    exact ⟨r.shorter, rfl⟩

theorem not_yields_error {failure : Failure} {value : α} :
    ¬Yields (.error failure : Result α tokens) value rest := by
  rintro ⟨_, h⟩
  cases h

theorem not_yields_fail {cause : SyntaxCause} {value : α} :
    ¬Yields (fail last cause tokens : Result α tokens) value rest :=
  not_yields_error

theorem yields_bind_iff {input : List Token} {result : Result α tokens}
    {f : Reading Token α tokens → Result β input} {value : β} :
    Yields (result >>= f) value rest ↔
      ∃ a mid shorter, Yields result a mid ∧ Yields (f ⟨a, mid, shorter⟩) value rest := by
  constructor
  · intro h
    cases result with
    | error failure => exact (not_yields_error h).elim
    | ok r => exact ⟨r.value, r.rest, r.shorter, ⟨r.shorter, rfl⟩, h⟩
  · rintro ⟨a, mid, shorter, ⟨_, rfl⟩, h⟩
    exact h

theorem yields_map_iff {input : List Token} {result : Result α tokens}
    {f : Reading Token α tokens → Reading Token β input} {value : β} :
    Yields (result.map f) value rest ↔
      ∃ a mid shorter, Yields result a mid ∧
        (f ⟨a, mid, shorter⟩).value = value ∧ (f ⟨a, mid, shorter⟩).rest = rest := by
  constructor
  · intro h
    cases result with
    | error failure => exact (not_yields_error h).elim
    | ok r =>
        exact ⟨r.value, r.rest, r.shorter, ⟨r.shorter, rfl⟩, yields_ok_iff.mp h⟩
  · rintro ⟨a, mid, shorter, ⟨_, rfl⟩, h⟩
    exact yields_ok_iff.mpr h

theorem yields_expect_iff {kind : TokenKind} {cause : SyntaxCause} {t : Token} :
    Yields (expect last kind cause tokens) t rest ↔ tokens = t :: rest ∧ t.kind = kind := by
  constructor
  · intro h
    match tokens with
    | [] => exact (not_yields_fail h).elim
    | u :: after =>
        rw [expect] at h
        split at h
        · next hkind =>
          obtain ⟨rfl, rfl⟩ := yields_ok_iff.mp h
          exact ⟨rfl, hkind⟩
        · exact (not_yields_fail h).elim
  · rintro ⟨rfl, hkind⟩
    rw [expect, if_pos hkind]
    exact yields_ok_iff.mpr ⟨rfl, rfl⟩

/-! ## Expressions -/

theorem yields_assignment_iff {e : Expr} :
    Yields (assignment last tokens) e rest ↔
      ∃ left mid, Yields (operand last topLevel tokens) left mid ∧
        (Stops [.equal] mid ∧ e = left ∧ rest = mid ∨
          ∃ sign after name value, mid = sign :: after ∧ sign.kind = .equal ∧
            left = .variable name ∧ Yields (assignment last after) value rest ∧
              e = .assign name value) := by
  rw [assignment, yields_bind_iff]
  constructor
  · rintro ⟨left, mid, shorter, hleft, h⟩
    refine ⟨left, mid, hleft, ?_⟩
    split at h
    · next sign after hmid =>
      dsimp only at hmid
      subst hmid
      split at h
      · next hsign =>
        split at h
        · next name hname =>
          obtain ⟨value, _, _, hvalue, h⟩ := yields_bind_iff.mp h
          obtain ⟨rfl, rfl⟩ := yields_ok_iff.mp h
          exact Or.inr ⟨sign, after, name, value, rfl, hsign, hname, hvalue, rfl⟩
        · exact (not_yields_error h).elim
      · next hsign =>
        obtain ⟨rfl, rfl⟩ := yields_ok_iff.mp h
        refine Or.inl ⟨stops_cons_iff.mpr ?_, rfl, rfl⟩
        rw [List.mem_singleton]
        exact hsign
    · next hmid =>
      dsimp only at hmid
      subst hmid
      obtain ⟨rfl, rfl⟩ := yields_ok_iff.mp h
      exact Or.inl ⟨stops_nil _, rfl, rfl⟩
  · rintro ⟨left, mid, hleft, h⟩
    refine ⟨left, mid, hleft.shorter, hleft, ?_⟩
    rcases h with ⟨hstops, rfl, rfl⟩ | ⟨sign, after, name, value, rfl, hsign, rfl, hvalue, rfl⟩
    · split
      · next sign after hmid =>
        dsimp only at hmid
        rw [hmid, stops_cons_iff, List.mem_singleton] at hstops
        rw [if_neg hstops]
        exact yields_ok_iff.mpr ⟨rfl, rfl⟩
      · exact yields_ok_iff.mpr ⟨rfl, rfl⟩
    · split
      · next hmid =>
        cases hmid
        rw [if_pos hsign]
        exact yields_bind_iff.mpr
          ⟨value, rest, hvalue.shorter, hvalue, yields_ok_iff.mpr ⟨rfl, rfl⟩⟩
      · next hmid => cases hmid

theorem operand_zero : operand last 0 tokens = unary last tokens := by
  rw [operand]

theorem yields_operand_succ_iff {below : Nat} {e : Expr} :
    Yields (operand last (below + 1) tokens) e rest ↔
      ∃ first mid shorter, Yields (operand last below tokens) first mid ∧
        Yields (operands last below first mid tokens shorter) e rest := by
  rw [operand]
  exact yields_bind_iff

theorem yields_operands_iff {below : Nat} {left e : Expr} {input : List Token}
    {shorter : tokens.length < input.length} :
    Yields (operands last below left tokens input shorter) e rest ↔
      Stops (operatorsAt (below + 1)) tokens ∧ e = left ∧ rest = tokens ∨
        ∃ operator after right mid closer, tokens = operator :: after ∧
          operator.kind ∈ operatorsAt (below + 1) ∧
          Yields (operand last below after) right mid ∧
          Yields (operands last below (.binary left operator right) mid input closer) e rest := by
  match tokens with
  | [] =>
      rw [operands]
      constructor
      · intro h
        obtain ⟨rfl, rfl⟩ := yields_ok_iff.mp h
        exact Or.inl ⟨stops_nil _, rfl, rfl⟩
      · rintro (⟨-, rfl, rfl⟩ | ⟨_, _, _, _, _, h, -⟩)
        · exact yields_ok_iff.mpr ⟨rfl, rfl⟩
        · cases h
  | operator :: after =>
      rw [operands, stops_cons_iff]
      split
      · next hoperator =>
        rw [yields_bind_iff]
        constructor
        · rintro ⟨right, mid, closer, hright, h⟩
          exact Or.inr ⟨operator, after, right, mid, _, rfl, hoperator, hright, h⟩
        · rintro (⟨hstops, -⟩ | ⟨_, _, right, mid, _, heq, -, hright, h⟩)
          · exact (hstops hoperator).elim
          · cases heq
            exact ⟨right, mid, hright.shorter, hright, h⟩
      · next hoperator =>
        constructor
        · intro h
          obtain ⟨rfl, rfl⟩ := yields_ok_iff.mp h
          exact Or.inl ⟨hoperator, rfl, rfl⟩
        · rintro (⟨-, rfl, rfl⟩ | ⟨_, _, _, _, _, heq, hmem, -⟩)
          · exact yields_ok_iff.mpr ⟨rfl, rfl⟩
          · cases heq
            exact (hoperator hmem).elim

theorem yields_unary_iff {e : Expr} :
    Yields (unary last tokens) e rest ↔
      (∃ operator after right, tokens = operator :: after ∧ operator.kind ∈ unaryOperators ∧
        Yields (unary last after) right rest ∧ e = .unary operator right) ∨
        Stops unaryOperators tokens ∧ Yields (primary last tokens) e rest := by
  match tokens with
  | [] =>
      rw [unary]
      constructor
      · intro h
        exact Or.inr ⟨stops_nil _, h⟩
      · rintro (⟨_, _, _, h, -⟩ | ⟨-, h⟩)
        · cases h
        · exact h
  | operator :: after =>
      rw [unary, stops_cons_iff]
      split
      · next hoperator =>
        rw [yields_bind_iff]
        constructor
        · rintro ⟨right, mid, closer, hright, h⟩
          obtain ⟨rfl, rfl⟩ := yields_ok_iff.mp h
          exact Or.inl ⟨operator, after, right, rfl, hoperator, hright, rfl⟩
        · rintro (⟨_, _, right, heq, -, hright, rfl⟩ | ⟨hstops, -⟩)
          · cases heq
            exact ⟨right, rest, hright.shorter, hright, yields_ok_iff.mpr ⟨rfl, rfl⟩⟩
          · exact (hstops hoperator).elim
      · next hoperator =>
        constructor
        · intro h
          exact Or.inr ⟨hoperator, h⟩
        · rintro (⟨_, _, _, heq, hmem, -⟩ | ⟨-, h⟩)
          · cases heq
            exact (hoperator hmem).elim
          · exact h

theorem primary_literal {t : Token} {after : List Token} (h : t.kind ∈ literalKinds) :
    primary last (t :: after) = .ok ⟨literalExpr t, after, Nat.lt_succ_self _⟩ := by
  rw [primary.eq_def, literalExpr]
  simp only [literalKinds, List.mem_cons, List.not_mem_nil, or_false] at h
  rcases h with h | h | h | h | h <;> simp only [h]

theorem primary_identifier {t : Token} {after : List Token} (h : t.kind = .identifier) :
    primary last (t :: after) = .ok ⟨.variable t, after, Nat.lt_succ_self _⟩ := by
  rw [primary.eq_def]
  simp only [h]

theorem yields_primary_leftParen_iff {t : Token} {after : List Token} {e : Expr}
    (h : t.kind = .leftParen) :
    Yields (primary last (t :: after)) e rest ↔
      ∃ inner closing, Yields (assignment last after) inner (closing :: rest) ∧
        closing.kind = .rightParen ∧ e = .grouping inner := by
  rw [primary.eq_def]
  simp only [h]
  rw [yields_bind_iff]
  constructor
  · rintro ⟨inner, mid, shorter, hinner, h⟩
    split at h
    · next closing outside hmid =>
      dsimp only at hmid
      subst hmid
      split at h
      · next hclosing =>
        obtain ⟨rfl, rfl⟩ := yields_ok_iff.mp h
        exact ⟨inner, closing, hinner, hclosing, rfl⟩
      · exact (not_yields_error h).elim
    · exact (not_yields_error h).elim
  · rintro ⟨inner, closing, hinner, hclosing, rfl⟩
    refine ⟨inner, closing :: rest, hinner.shorter, hinner, ?_⟩
    dsimp only
    rw [if_pos hclosing]
    exact yields_ok_iff.mpr ⟨rfl, rfl⟩

theorem not_yields_primary {e : Expr} (h : Stops primaryStarts tokens) :
    ¬Yields (primary last tokens) e rest := by
  match tokens with
  | [] =>
      rw [primary]
      exact not_yields_fail
  | t :: after =>
      rw [stops_cons_iff] at h
      rw [primary.eq_def]
      dsimp only
      split
      case h_8 => exact not_yields_fail
      all_goals
        next hkind =>
        rw [hkind] at h
        exact (h (by decide)).elim

theorem yields_primary_iff {e : Expr} :
    Yields (primary last tokens) e rest ↔
      (∃ t, tokens = t :: rest ∧ t.kind ∈ literalKinds ∧ e = literalExpr t) ∨
        (∃ t, tokens = t :: rest ∧ t.kind = .identifier ∧ e = .variable t) ∨
        ∃ opening after inner closing, tokens = opening :: after ∧ opening.kind = .leftParen ∧
          Yields (assignment last after) inner (closing :: rest) ∧
          closing.kind = .rightParen ∧ e = .grouping inner := by
  constructor
  · intro h
    by_cases hstarts : Begins primaryStarts tokens
    · obtain ⟨t, after, rfl, hkind⟩ := hstarts
      rcases List.mem_append.mp hkind with hliteral | hother
      · rw [primary_literal hliteral] at h
        obtain ⟨rfl, rfl⟩ := yields_ok_iff.mp h
        exact Or.inl ⟨t, rfl, hliteral, rfl⟩
      · simp only [List.mem_cons, List.not_mem_nil, or_false] at hother
        rcases hother with hparen | hname
        · obtain ⟨inner, closing, hinner, hclosing, rfl⟩ :=
            (yields_primary_leftParen_iff hparen).mp h
          exact Or.inr (Or.inr ⟨t, after, inner, closing, rfl, hparen, hinner, hclosing, rfl⟩)
        · rw [primary_identifier hname] at h
          obtain ⟨rfl, rfl⟩ := yields_ok_iff.mp h
          exact Or.inr (Or.inl ⟨t, rfl, hname, rfl⟩)
    · exact (not_yields_primary hstarts h).elim
  · rintro (⟨t, rfl, hliteral, rfl⟩ | ⟨t, rfl, hname, rfl⟩ |
      ⟨opening, after, inner, closing, rfl, hparen, hinner, hclosing, rfl⟩)
    · rw [primary_literal hliteral]
      exact yields_ok_iff.mpr ⟨rfl, rfl⟩
    · rw [primary_identifier hname]
      exact yields_ok_iff.mpr ⟨rfl, rfl⟩
    · exact (yields_primary_leftParen_iff hparen).mpr ⟨inner, closing, hinner, hclosing, rfl⟩

/-! ## Statements -/

theorem yields_closedBy_iff {kind : TokenKind} {cause : SyntaxCause}
    {r : Reading Token α tokens} {value : α} :
    Yields (closedBy last kind cause r) value rest ↔
      r.value = value ∧ ∃ closing, r.rest = closing :: rest ∧ closing.kind = kind := by
  rw [closedBy, yields_map_iff]
  constructor
  · rintro ⟨closing, mid, shorter, hclosing, rfl, rfl⟩
    exact ⟨rfl, closing, yields_expect_iff.mp hclosing⟩
  · rintro ⟨rfl, closing, hclosing⟩
    have hexpect : Yields (expect last kind cause r.rest) closing rest :=
      yields_expect_iff.mpr hclosing
    exact ⟨closing, rest, hexpect.shorter, hexpect, rfl, rfl⟩

/-- Reading something that a token must close. -/
theorem yields_bind_closedBy_iff {kind : TokenKind} {cause : SyntaxCause} 
    {result : Result α tokens} {f : α → β} {value : β} {input : List Token}
    (hle : tokens.length ≤ input.length) :
    Yields (do
        let r ← result
        let done ← closedBy last kind cause r
        return (done.map f).weaken hle : Result β input) value rest ↔
      ∃ a closing, Yields result a (closing :: rest) ∧ closing.kind = kind ∧ value = f a := by
  rw [yields_bind_iff]
  constructor
  · rintro ⟨a, mid, shorter, ha, h⟩
    obtain ⟨_, _, _, hdone, h⟩ := yields_bind_iff.mp h
    obtain ⟨rfl, closing, hmid, hclosing⟩ := yields_closedBy_iff.mp hdone
    obtain ⟨rfl, rfl⟩ := yields_ok_iff.mp h
    dsimp only at hmid
    subst hmid
    exact ⟨a, closing, ha, hclosing, rfl⟩
  · rintro ⟨a, closing, ha, hclosing, rfl⟩
    refine ⟨a, closing :: rest, ha.shorter, ha, yields_bind_iff.mpr ?_⟩
    have hdone : Yields (closedBy last kind cause ⟨a, closing :: rest, ha.shorter⟩) a rest :=
      yields_closedBy_iff.mpr ⟨rfl, closing, rfl, hclosing⟩
    exact ⟨a, rest, hdone.shorter, hdone, yields_ok_iff.mpr ⟨rfl, rfl⟩⟩

theorem yields_initializer_iff {target : Token} {after : List Token}
    {shorter : after.length < tokens.length} {d : Stmt} :
    Yields (initializer last (⟨target, after, shorter⟩ : Reading Token Token tokens)) d rest ↔
      Stops [.equal] after ∧ d = .declare target none ∧ rest = after ∨
        ∃ sign others value, after = sign :: others ∧ sign.kind = .equal ∧
          Yields (assignment last others) value rest ∧ d = .declare target (some value) := by
  rw [initializer]
  split
  · next sign others hafter =>
    dsimp only at hafter
    subst hafter
    rw [stops_cons_iff, List.mem_singleton]
    split
    · next hsign =>
      rw [yields_map_iff]
      constructor
      · rintro ⟨value, _, _, hvalue, rfl, rfl⟩
        exact Or.inr ⟨sign, others, value, rfl, hsign, hvalue, rfl⟩
      · rintro (⟨hstops, -⟩ | ⟨_, _, value, heq, -, hvalue, rfl⟩)
        · exact (hstops hsign).elim
        · cases heq
          exact ⟨value, rest, hvalue.shorter, hvalue, rfl, rfl⟩
    · next hsign =>
      rw [yields_ok_iff]
      constructor
      · rintro ⟨rfl, rfl⟩
        exact Or.inl ⟨hsign, rfl, rfl⟩
      · rintro (⟨-, rfl, rfl⟩ | ⟨_, _, _, heq, hkind, -⟩)
        · exact ⟨rfl, rfl⟩
        · cases heq
          exact (hsign hkind).elim
  · next hafter =>
    dsimp only at hafter
    subst hafter
    rw [yields_ok_iff]
    constructor
    · rintro ⟨rfl, rfl⟩
      exact Or.inl ⟨stops_nil _, rfl, rfl⟩
    · rintro (⟨-, rfl, rfl⟩ | ⟨_, _, _, heq, -⟩)
      · exact ⟨rfl, rfl⟩
      · cases heq

theorem yields_binding_iff {d : Stmt} :
    Yields (binding last tokens) d rest ↔
      ∃ target after, tokens = target :: after ∧ target.kind = .identifier ∧
        ((∃ closing, after = closing :: rest ∧ closing.kind = .semicolon ∧
            d = .declare target none) ∨
          ∃ sign others value closing, after = sign :: others ∧ sign.kind = .equal ∧
            Yields (assignment last others) value (closing :: rest) ∧
            closing.kind = .semicolon ∧ d = .declare target (some value)) := by
  rw [binding, yields_bind_iff]
  constructor
  · rintro ⟨target, after, shorter, htarget, h⟩
    obtain ⟨rfl, hkind⟩ := yields_expect_iff.mp htarget
    refine ⟨target, after, rfl, hkind, ?_⟩
    obtain ⟨declared, mid, _, hdeclared, h⟩ := yields_bind_iff.mp h
    obtain ⟨rfl, closing, hmid, hclosing⟩ := yields_closedBy_iff.mp h
    dsimp only at hmid
    subst hmid
    rcases yields_initializer_iff.mp hdeclared with
      ⟨-, rfl, rfl⟩ | ⟨sign, others, value, rfl, hsign, hvalue, rfl⟩
    · exact Or.inl ⟨closing, rfl, hclosing, rfl⟩
    · exact Or.inr ⟨sign, others, value, closing, rfl, hsign, hvalue, hclosing, rfl⟩
  · rintro ⟨target, after, rfl, hkind, h⟩
    have htarget : Yields (expect last .identifier .variableName (target :: after)) target after :=
      yields_expect_iff.mpr ⟨rfl, hkind⟩
    refine ⟨target, after, htarget.shorter, htarget, yields_bind_iff.mpr ?_⟩
    rcases h with ⟨closing, rfl, hclosing, rfl⟩ |
      ⟨sign, others, value, closing, rfl, hsign, hvalue, hclosing, rfl⟩
    · refine ⟨_, closing :: rest, htarget.shorter, yields_initializer_iff.mpr
        (Or.inl ⟨?_, rfl, rfl⟩), yields_closedBy_iff.mpr ⟨rfl, closing, rfl, hclosing⟩⟩
      rw [stops_cons_iff, hclosing]
      decide
    · have hdeclared : Yields (initializer last ⟨target, sign :: others, htarget.shorter⟩)
          (.declare target (some value)) (closing :: rest) :=
        yields_initializer_iff.mpr (Or.inr ⟨sign, others, value, rfl, hsign, hvalue, rfl⟩)
      exact ⟨_, closing :: rest, hdeclared.shorter, hdeclared,
        yields_closedBy_iff.mpr ⟨rfl, closing, rfl, hclosing⟩⟩

theorem yields_declaration_var_iff {word : Token} {after : List Token} {d : Stmt}
    (h : word.kind = .varWord) :
    Yields (declaration last (word :: after)) d rest ↔ Yields (binding last after) d rest := by
  rw [declaration.eq_def]
  simp only [h]
  rw [yields_map_iff]
  constructor
  · rintro ⟨_, _, _, hd, rfl, rfl⟩
    exact hd
  · intro hd
    exact ⟨d, rest, hd.shorter, hd, rfl, rfl⟩

theorem yields_declaration_print_iff {word : Token} {after : List Token} {d : Stmt}
    (h : word.kind = .printWord) :
    Yields (declaration last (word :: after)) d rest ↔
      ∃ e closing, Yields (assignment last after) e (closing :: rest) ∧
        closing.kind = .semicolon ∧ d = .print e := by
  rw [declaration.eq_def]
  simp only [h]
  exact yields_bind_closedBy_iff (Nat.le_succ _)

theorem yields_declaration_block_iff {opening : Token} {after : List Token} {d : Stmt}
    (h : opening.kind = .leftBrace) :
    Yields (declaration last (opening :: after)) d rest ↔
      ∃ body closing, Yields (statements last after) body (closing :: rest) ∧
        closing.kind = .semicolon ∧ d = .block body := by
  rw [declaration.eq_def]
  simp only [h]
  exact yields_bind_closedBy_iff (Nat.le_succ _)

theorem yields_declaration_expression_iff {d : Stmt}
    (h : Stops [.varWord, .printWord, .leftBrace] tokens) :
    Yields (declaration last tokens) d rest ↔
      ∃ e closing, Yields (assignment last tokens) e (closing :: rest) ∧
        closing.kind = .semicolon ∧ d = .expression e := by
  match tokens with
  | [] =>
      rw [declaration]
      exact yields_bind_closedBy_iff (Nat.le_refl _)
  | t :: after =>
      rw [stops_cons_iff] at h
      rw [declaration.eq_def]
      dsimp only
      split
      case h_4 => exact yields_bind_closedBy_iff (Nat.le_refl _)
      all_goals
        next hkind =>
        rw [hkind] at h
        exact (h (by decide)).elim

theorem yields_statements_iff {body : List Stmt} :
    Yields (statements last tokens) body rest ↔
      (∃ brace, tokens = brace :: rest ∧ brace.kind = .rightBrace ∧ body = []) ∨
        ∃ t after first mid others, tokens = t :: after ∧ t.kind ≠ .rightBrace ∧
          Yields (declaration last tokens) first mid ∧ Yields (statements last mid) others rest ∧
          body = first :: others := by
  match tokens with
  | [] =>
      rw [statements]
      constructor
      · intro h
        exact (not_yields_fail h).elim
      · rintro (⟨_, h, -⟩ | ⟨_, _, _, _, _, h, -⟩)
        · cases h
        · cases h
  | t :: after =>
      rw [statements]
      split
      · next hbrace =>
        constructor
        · intro h
          obtain ⟨rfl, rfl⟩ := yields_ok_iff.mp h
          exact Or.inl ⟨t, rfl, hbrace, rfl⟩
        · rintro (⟨_, heq, -, rfl⟩ | ⟨_, _, _, _, _, heq, hne, -⟩)
          · cases heq
            exact yields_ok_iff.mpr ⟨rfl, rfl⟩
          · cases heq
            exact (hne hbrace).elim
      · next hbrace =>
        rw [yields_bind_iff]
        constructor
        · rintro ⟨first, mid, _, hfirst, h⟩
          obtain ⟨others, _, _, hothers, h⟩ := yields_bind_iff.mp h
          obtain ⟨rfl, rfl⟩ := yields_ok_iff.mp h
          exact Or.inr ⟨t, after, first, mid, others, rfl, hbrace, hfirst, hothers, rfl⟩
        · rintro (⟨_, heq, hkind, -⟩ | ⟨_, _, first, mid, others, -, -, hfirst, hothers, rfl⟩)
          · cases heq
            exact (hbrace hkind).elim
          · exact ⟨first, mid, hfirst.shorter, hfirst, yields_bind_iff.mpr
              ⟨others, rest, hothers.shorter, hothers, yields_ok_iff.mpr ⟨rfl, rfl⟩⟩⟩

theorem declarations_eq_iff {p : Program} :
    declarations last tokens = (p, []) ↔
      tokens = [] ∧ p = [] ∨
        ∃ t after d mid others, tokens = t :: after ∧ Yields (declaration last tokens) d mid ∧
          declarations last mid = (others, []) ∧ p = d :: others := by
  match tokens with
  | [] =>
      rw [declarations]
      constructor
      · intro h
        cases h
        exact Or.inl ⟨rfl, rfl⟩
      · rintro (⟨-, rfl⟩ | ⟨_, _, _, _, _, h, -⟩)
        · rfl
        · cases h
  | t :: after =>
      rw [declarations]
      split
      · next r hr =>
        constructor
        · intro h
          rw [Prod.mk.injEq] at h
          refine Or.inr ⟨t, after, r.value, r.rest, _, rfl, ⟨r.shorter, hr⟩, ?_, h.1.symm⟩
          rw [← h.2]
        · rintro (⟨h, -⟩ | ⟨_, _, d, mid, others, -, ⟨_, hd⟩, hothers, rfl⟩)
          · cases h
          · rw [hr] at hd
            cases hd
            rw [hothers]
      · next failure hfailure =>
        constructor
        · intro h
          cases h
        · rintro (⟨h, -⟩ | ⟨_, _, d, mid, others, -, ⟨_, hd⟩, -⟩)
          · cases h
          · rw [hfailure] at hd
            cases hd

end Parser

end MiniLox
