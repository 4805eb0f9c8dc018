import MiniLox.Proofs.Grammar.Soundness

/-!
# What one step of a failed reading does

For every function that reads from tokens, the exact condition under which it fails, and
the failure, in terms of the functions that it calls.  These conditions stand beside those
under which the functions succeed.  In both directions they are about the token at which
something else was expected, and no other token behind it is looked at.
-/

namespace MiniLox

namespace Parser

open Grammar

variable {α β : Type} {last : Nat} {tokens rest : List Token} {failure : Failure}

/-- The failure to find something at the next token. -/
def failureAt (last : Nat) (cause : SyntaxCause) (tokens : List Token) : Failure :=
  ⟨⟨nextLine last tokens, cause⟩, tokens.length⟩

/-! ## Results -/

theorem ok_ne_error {r : Reading Token α tokens} : (.ok r : Result α tokens) ≠ .error failure :=
  nofun

theorem fail_eq_error_iff {cause : SyntaxCause} :
    (fail last cause tokens : Result α tokens) = .error failure ↔
      failure = failureAt last cause tokens := by
  rw [fail, Except.error.injEq]
  exact eq_comm

theorem bind_eq_error_iff {input : List Token} {result : Result α tokens}
    {f : Reading Token α tokens → Result β input} :
    result >>= f = .error failure ↔
      result = .error failure ∨
        ∃ a mid shorter, Yields result a mid ∧ f ⟨a, mid, shorter⟩ = .error failure := by
  cases result with
  | error other =>
      constructor
      · intro h
        cases h
        exact Or.inl rfl
      · rintro (h | ⟨_, _, _, h, -⟩)
        · cases h
          rfl
        · exact (not_yields_error h).elim
  | ok r =>
      constructor
      · intro h
        exact Or.inr ⟨r.value, r.rest, r.shorter, ⟨r.shorter, rfl⟩, h⟩
      · rintro (h | ⟨_, _, _, ⟨_, hr⟩, h⟩)
        · cases h
        · cases hr
          exact h

theorem map_eq_error_iff {input : List Token} {result : Result α tokens}
    {f : Reading Token α tokens → Reading Token β input} :
    result.map f = .error failure ↔ result = .error failure := by
  cases result with
  | error other =>
      constructor
      · intro h
        cases h
        rfl
      · intro h
        cases h
        rfl
  | ok r =>
      constructor
      · intro h
        cases h
      · intro h
        cases h

theorem expect_eq_error_iff {kind : TokenKind} {cause : SyntaxCause} :
    expect last kind cause tokens = .error failure ↔
      Stops [kind] tokens ∧ failure = failureAt last cause tokens := by
  match tokens with
  | [] =>
      rw [expect, fail_eq_error_iff]
      exact (and_iff_right (stops_nil _)).symm
  | t :: after =>
      rw [expect, stops_cons_iff, List.mem_singleton]
      split
      · next hkind =>
        exact ⟨fun h => (ok_ne_error h).elim, fun h => (h.1 hkind).elim⟩
      · next hkind =>
        rw [fail_eq_error_iff]
        exact (and_iff_right hkind).symm

theorem closedBy_eq_error_iff {kind : TokenKind} {cause : SyntaxCause}
    {r : Reading Token α tokens} :
    closedBy last kind cause r = .error failure ↔
      Stops [kind] r.rest ∧ failure = failureAt last cause r.rest := by
  rw [closedBy, map_eq_error_iff, expect_eq_error_iff]

/-- Something is not read, or the token behind it is not the one that must close it. -/
def IsUnclosed (last : Nat) (kind : TokenKind) (cause : SyntaxCause) (result : Result α tokens)
    (failure : Failure) : Prop :=
  result = .error failure ∨
    ∃ a mid, Yields result a mid ∧ Stops [kind] mid ∧ failure = failureAt last cause mid

theorem bind_closedBy_eq_error_iff {kind : TokenKind} {cause : SyntaxCause}
    {result : Result α tokens} {f : α → β} {input : List Token}
    (hle : tokens.length ≤ input.length) :
    (do
        let r ← result
        let done ← closedBy last kind cause r
        return (done.map f).weaken hle : Result β input) = .error failure ↔
      IsUnclosed last kind cause result failure := by
  rw [bind_eq_error_iff, IsUnclosed]
  refine or_congr_right ?_
  constructor
  · rintro ⟨a, mid, shorter, ha, h⟩
    rcases bind_eq_error_iff.mp h with h | ⟨_, _, _, -, h⟩
    · exact ⟨a, mid, ha, closedBy_eq_error_iff.mp h⟩
    · exact (ok_ne_error h).elim
  · rintro ⟨a, mid, ha, h⟩
    exact ⟨a, mid, ha.shorter, ha, bind_eq_error_iff.mpr (Or.inl (closedBy_eq_error_iff.mpr h))⟩

/-! ## Expressions -/

theorem assignment_eq_error_iff :
    assignment last tokens = .error failure ↔
      operand last topLevel tokens = .error failure ∨
        ∃ left sign after, Yields (operand last topLevel tokens) left (sign :: after) ∧
          sign.kind = .equal ∧
          ((∀ name, left ≠ .variable name) ∧
              failure = ⟨⟨lineOf sign, .assignmentTarget⟩, after.length⟩ ∨
            (∃ name, left = .variable name) ∧ assignment last after = .error failure) := by
  rw [assignment, bind_eq_error_iff]
  refine or_congr_right ?_
  constructor
  · rintro ⟨left, mid, shorter, hleft, h⟩
    split at h
    · next sign after hmid =>
      dsimp only at hmid
      subst hmid
      split at h
      · next hsign =>
        refine ⟨left, sign, after, hleft, hsign, ?_⟩
        split at h
        · next name hname =>
          rcases bind_eq_error_iff.mp h with h | ⟨_, _, _, -, h⟩
          · exact Or.inr ⟨⟨name, hname⟩, h⟩
          · exact (ok_ne_error h).elim
        · next hname =>
          cases h
          exact Or.inl ⟨fun name heq => hname name heq, rfl⟩
      · exact (ok_ne_error h).elim
    · exact (ok_ne_error h).elim
  · rintro ⟨left, sign, after, hleft, hsign, h⟩
    refine ⟨left, sign :: after, hleft.shorter, hleft, ?_⟩
    split
    · next heq =>
      cases heq
      rw [if_pos hsign]
      rcases h with ⟨hname, rfl⟩ | ⟨⟨name, rfl⟩, h⟩
      · split
        · next name heq => exact (hname name heq).elim
        · rfl
      · exact bind_eq_error_iff.mpr (Or.inl h)
    · next heq => cases heq

theorem operand_succ_eq_error_iff {below : Nat} :
    operand last (below + 1) tokens = .error failure ↔
      operand last below tokens = .error failure ∨
        ∃ first mid shorter, Yields (operand last below tokens) first mid ∧
          operands last below first mid tokens shorter = .error failure := by
  rw [operand]
  exact bind_eq_error_iff

theorem operands_eq_error_iff {below : Nat} {left : Expr} {input : List Token}
    {shorter : tokens.length < input.length} :
    operands last below left tokens input shorter = .error failure ↔
      ∃ operator after, tokens = operator :: after ∧ operator.kind ∈ operatorsAt (below + 1) ∧
        (operand last below after = .error failure ∨
          ∃ right mid closer, Yields (operand last below after) right mid ∧
            operands last below (.binary left operator right) mid input closer =
              .error failure) := by
  match tokens with
  | [] =>
      rw [operands]
      constructor
      · intro h
        exact (ok_ne_error h).elim
      · rintro ⟨_, _, h, -⟩
        cases h
  | operator :: after =>
      rw [operands]
      split
      · next hoperator =>
        rw [bind_eq_error_iff]
        constructor
        · rintro (h | ⟨right, mid, _, hright, h⟩)
          · exact ⟨operator, after, rfl, hoperator, Or.inl h⟩
          · exact ⟨operator, after, rfl, hoperator, Or.inr ⟨right, mid, _, hright, h⟩⟩
        · rintro ⟨_, _, heq, -, h | ⟨right, mid, _, hright, h⟩⟩
          · cases heq
            exact Or.inl h
          · cases heq
            exact Or.inr ⟨right, mid, hright.shorter, hright, h⟩
      · next hoperator =>
        constructor
        · intro h
          exact (ok_ne_error h).elim
        · rintro ⟨_, _, heq, hkind, -⟩
          cases heq
          exact (hoperator hkind).elim

theorem unary_eq_error_iff :
    unary last tokens = .error failure ↔
      (∃ operator after, tokens = operator :: after ∧ operator.kind ∈ unaryOperators ∧
        unary last after = .error failure) ∨
        Stops unaryOperators tokens ∧ primary last tokens = .error failure := by
  match tokens with
  | [] =>
      rw [unary]
      constructor
      · intro h
        exact Or.inr ⟨stops_nil _, h⟩
      · rintro (⟨_, _, h, -⟩ | ⟨-, h⟩)
        · cases h
        · exact h
  | operator :: after =>
      rw [unary, stops_cons_iff]
      split
      · next hoperator =>
        rw [bind_eq_error_iff]
        constructor
        · rintro (h | ⟨_, _, _, -, h⟩)
          · exact Or.inl ⟨operator, after, rfl, hoperator, h⟩
          · exact (ok_ne_error h).elim
        · rintro (⟨_, _, heq, -, h⟩ | ⟨hstops, -⟩)
          · cases heq
            exact Or.inl h
          · exact (hstops hoperator).elim
      · next hoperator =>
        constructor
        · intro h
          exact Or.inr ⟨hoperator, h⟩
        · rintro (⟨_, _, heq, hkind, -⟩ | ⟨-, h⟩)
          · cases heq
            exact (hoperator hkind).elim
          · exact h

theorem primary_leftParen_eq_error_iff {opening : Token} {after : List Token}
    (h : opening.kind = .leftParen) :
    primary last (opening :: after) = .error failure ↔
      assignment last after = .error failure ∨
        ∃ inner mid, Yields (assignment last after) inner mid ∧ Stops [.rightParen] mid ∧
          failure = ⟨⟨lineOf opening, .closingParen⟩, mid.length⟩ := by
  rw [primary.eq_def]
  simp only [h]
  rw [bind_eq_error_iff]
  refine or_congr_right ?_
  constructor
  · rintro ⟨inner, mid, shorter, hinner, h⟩
    refine ⟨inner, mid, hinner, ?_⟩
    split at h
    · next closing outside hmid =>
      dsimp only at hmid
      subst hmid
      rw [stops_cons_iff, List.mem_singleton]
      split at h
      · exact (ok_ne_error h).elim
      · next hclosing =>
        cases h
        exact ⟨hclosing, rfl⟩
    · next hmid =>
      dsimp only at hmid
      subst hmid
      cases h
      exact ⟨stops_nil _, rfl⟩
  · rintro ⟨inner, mid, hinner, hstops, rfl⟩
    refine ⟨inner, mid, hinner.shorter, hinner, ?_⟩
    split
    · next closing outside hmid =>
      dsimp only at hmid
      subst hmid
      rw [stops_cons_iff, List.mem_singleton] at hstops
      rw [if_neg hstops]
      rfl
    · next hmid =>
      dsimp only at hmid
      subst hmid
      rfl

theorem primary_eq_fail (h : Stops primaryStarts tokens) :
    primary last tokens = fail last .expression tokens := by
  match tokens with
  | [] => rw [primary]
  | t :: after =>
      rw [stops_cons_iff] at h
      rw [primary.eq_def]
      dsimp only
      split
      case h_8 => rfl
      all_goals
        next hkind =>
        rw [hkind] at h
        exact (h (by decide)).elim

theorem primary_eq_error_iff :
    primary last tokens = .error failure ↔
      Stops primaryStarts tokens ∧ failure = failureAt last .expression tokens ∨
        ∃ opening after, tokens = opening :: after ∧ opening.kind = .leftParen ∧
          (assignment last after = .error failure ∨
            ∃ inner mid, Yields (assignment last after) inner mid ∧ Stops [.rightParen] mid ∧
              failure = ⟨⟨lineOf opening, .closingParen⟩, mid.length⟩) := by
  constructor
  · intro h
    by_cases hstarts : Begins primaryStarts tokens
    · obtain ⟨t, after, rfl, hkind⟩ := hstarts
      rcases List.mem_append.mp hkind with hliteral | hother
      · rw [primary_literal hliteral] at h
        exact (ok_ne_error h).elim
      · simp only [List.mem_cons, List.not_mem_nil, or_false] at hother
        rcases hother with hparen | hname
        · exact Or.inr ⟨t, after, rfl, hparen, (primary_leftParen_eq_error_iff hparen).mp h⟩
        · rw [primary_identifier hname] at h
          exact (ok_ne_error h).elim
    · rw [primary_eq_fail hstarts, fail_eq_error_iff] at h
      exact Or.inl ⟨hstarts, h⟩
  · rintro (⟨hstops, h⟩ | ⟨opening, after, rfl, hparen, h⟩)
    · rw [primary_eq_fail hstops]
      exact fail_eq_error_iff.mpr h
    · exact (primary_leftParen_eq_error_iff hparen).mpr h

/-! ## Statements -/

theorem initializer_eq_error_iff {target : Token} {after : List Token}
    {shorter : after.length < tokens.length} :
    initializer last (⟨target, after, shorter⟩ : Reading Token Token tokens) = .error failure ↔
      ∃ sign others, after = sign :: others ∧ sign.kind = .equal ∧
        assignment last others = .error failure := by
  rw [initializer]
  split
  · next sign others hafter =>
    dsimp only at hafter
    subst hafter
    split
    · next hsign =>
      rw [map_eq_error_iff]
      constructor
      · intro h
        exact ⟨sign, others, rfl, hsign, h⟩
      · rintro ⟨_, _, heq, -, h⟩
        cases heq
        exact h
    · next hsign =>
      constructor
      · intro h
        exact (ok_ne_error h).elim
      · rintro ⟨_, _, heq, hkind, -⟩
        cases heq
        exact (hsign hkind).elim
  · next hafter =>
    dsimp only at hafter
    subst hafter
    constructor
    · intro h
      exact (ok_ne_error h).elim
    · rintro ⟨_, _, heq, -⟩
      cases heq

theorem binding_eq_error_iff :
    binding last tokens = .error failure ↔
      Stops [.identifier] tokens ∧ failure = failureAt last .variableName tokens ∨
        ∃ target after, tokens = target :: after ∧ target.kind = .identifier ∧
          (Stops [.equal] after ∧ Stops [.semicolon] after ∧
              failure = failureAt last .semicolonAfterDeclaration after ∨
            ∃ sign others, after = sign :: others ∧ sign.kind = .equal ∧
              IsUnclosed last .semicolon .semicolonAfterDeclaration (assignment last others)
                failure) := by
  rw [binding, bind_eq_error_iff, expect_eq_error_iff]
  refine or_congr_right ?_
  constructor
  · rintro ⟨target, after, shorter, htarget, h⟩
    obtain ⟨rfl, hkind⟩ := yields_expect_iff.mp htarget
    refine ⟨target, after, rfl, hkind, ?_⟩
    rcases bind_eq_error_iff.mp h with h | ⟨declared, mid, _, hdeclared, h⟩
    · obtain ⟨sign, others, rfl, hsign, h⟩ := initializer_eq_error_iff.mp h
      exact Or.inr ⟨sign, others, rfl, hsign, Or.inl h⟩
    · rw [closedBy_eq_error_iff] at h
      rcases yields_initializer_iff.mp hdeclared with
        ⟨hstops, rfl, rfl⟩ | ⟨sign, others, value, rfl, hsign, hvalue, rfl⟩
      · exact Or.inl ⟨hstops, h⟩
      · exact Or.inr ⟨sign, others, rfl, hsign, Or.inr ⟨value, mid, hvalue, h⟩⟩
  · rintro ⟨target, after, rfl, hkind, h⟩
    have htarget : Yields (expect last .identifier .variableName (target :: after)) target after :=
      yields_expect_iff.mpr ⟨rfl, hkind⟩
    refine ⟨target, after, htarget.shorter, htarget, bind_eq_error_iff.mpr ?_⟩
    rcases h with ⟨hequal, hclose⟩ | ⟨sign, others, rfl, hsign, h | ⟨value, mid, hvalue, hclose⟩⟩
    · refine Or.inr ⟨.declare target none, after, htarget.shorter, ?_,
        closedBy_eq_error_iff.mpr hclose⟩
      exact yields_initializer_iff.mpr (Or.inl ⟨hequal, rfl, rfl⟩)
    · exact Or.inl (initializer_eq_error_iff.mpr ⟨sign, others, rfl, hsign, h⟩)
    · have hdeclared : Yields (initializer last ⟨target, sign :: others, htarget.shorter⟩)
          (.declare target (some value)) mid :=
        yields_initializer_iff.mpr (Or.inr ⟨sign, others, value, rfl, hsign, hvalue, rfl⟩)
      exact Or.inr ⟨_, mid, hdeclared.shorter, hdeclared, closedBy_eq_error_iff.mpr hclose⟩

theorem declaration_var_eq_error_iff {word : Token} {after : List Token}
    (h : word.kind = .varWord) :
    declaration last (word :: after) = .error failure ↔ binding last after = .error failure := by
  rw [declaration.eq_def]
  simp only [h]
  exact map_eq_error_iff

theorem declaration_print_eq_error_iff {word : Token} {after : List Token}
    (h : word.kind = .printWord) :
    declaration last (word :: after) = .error failure ↔
      IsUnclosed last .semicolon .semicolonAfterValue (assignment last after) failure := by
  rw [declaration.eq_def]
  simp only [h]
  exact bind_closedBy_eq_error_iff (Nat.le_succ _)

theorem declaration_block_eq_error_iff {opening : Token} {after : List Token}
    (h : opening.kind = .leftBrace) :
    declaration last (opening :: after) = .error failure ↔
      IsUnclosed last .semicolon .semicolonAfterBlock (statements last after) failure := by
  rw [declaration.eq_def]
  simp only [h]
  exact bind_closedBy_eq_error_iff (Nat.le_succ _)

theorem declaration_expression_eq_error_iff
    (h : Stops [.varWord, .printWord, .leftBrace] tokens) :
    declaration last tokens = .error failure ↔
      IsUnclosed last .semicolon .semicolonAfterExpression (assignment last tokens) failure := by
  match tokens with
  | [] =>
      rw [declaration]
      exact bind_closedBy_eq_error_iff (Nat.le_refl _)
  | t :: after =>
      rw [stops_cons_iff] at h
      rw [declaration.eq_def]
      dsimp only
      split
      case h_4 => exact bind_closedBy_eq_error_iff (Nat.le_refl _)
      all_goals
        next hkind =>
        rw [hkind] at h
        exact (h (by decide)).elim

theorem statements_eq_error_iff :
    statements last tokens = .error failure ↔
      tokens = [] ∧ failure = failureAt last .closingBrace [] ∨
        tokens ≠ [] ∧ Stops [.rightBrace] tokens ∧
          (declaration last tokens = .error failure ∨
            ∃ first mid, Yields (declaration last tokens) first mid ∧
              statements last mid = .error failure) := by
  match tokens with
  | [] =>
      rw [statements, fail_eq_error_iff]
      constructor
      · intro h
        exact Or.inl ⟨rfl, h⟩
      · rintro (⟨-, h⟩ | ⟨hne, -⟩)
        · exact h
        · exact (hne rfl).elim
  | t :: after =>
      rw [statements, stops_cons_iff, List.mem_singleton]
      split
      · next hbrace =>
        constructor
        · intro h
          exact (ok_ne_error h).elim
        · rintro (⟨h, -⟩ | ⟨-, hne, -⟩)
          · cases h
          · exact (hne hbrace).elim
      · next hbrace =>
        rw [bind_eq_error_iff]
        constructor
        · rintro (h | ⟨first, mid, _, hfirst, h⟩)
          · exact Or.inr ⟨List.cons_ne_nil _ _, hbrace, Or.inl h⟩
          · rcases bind_eq_error_iff.mp h with h | ⟨_, _, _, -, h⟩
            · exact Or.inr ⟨List.cons_ne_nil _ _, hbrace, Or.inr ⟨first, mid, hfirst, h⟩⟩
            · exact (ok_ne_error h).elim
        · rintro (⟨h, -⟩ | ⟨-, -, h | ⟨first, mid, hfirst, h⟩⟩)
          · cases h
          · exact Or.inl h
          · exact Or.inr ⟨first, mid, hfirst.shorter, hfirst, bind_eq_error_iff.mpr (Or.inl h)⟩

end Parser

end MiniLox
