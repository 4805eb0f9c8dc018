import MiniLox.Proofs.Recovery.Slices

/-!
# Errors stay in their statements

A clause is a run of tokens without a brace that ends at its only semicolon.  An attempt to
read a declaration in a clause breaks off before it has passed the semicolon, since without a
block a semicolon comes last in a declaration.  So a token of the clause stands behind the
gap, and what follows the clause makes no difference, neither to the attempt nor to the place
from which the pass goes on.  Programs that are read without an error, and clauses, may
therefore be read one by one or in a row.
-/

namespace MiniLox

namespace Grammar

open MiniLox.Parser

variable {s part : Symbol} {rest : List Token}

/-! ## In front of a gap -/

/-- The kinds in front of a gap where no block is open. -/
def openKinds : List TokenKind := .varWord :: .printWord :: expressionKinds

theorem expressionKinds_subset_openKinds : ∀ k ∈ expressionKinds, k ∈ openKinds := by
  decide

theorem Gap.areOf (g : Gap s) (hs : s ≠ .program) (hopen : ∀ t ∈ g.tokens, t.kind ≠ .leftBrace) :
    AreOf openKinds g.tokens := by
  cases g with
  | closingBrace => exact (hs rfl).elim
  | variableName word => exact areOf_nil.cons word (by decide)
  | declareEnd word target => exact (areOf_nil.cons target (by decide)).cons word (by decide)
  | defineEnd word target sign value =>
      have hvalue := value.areOf.weaken expressionKinds_subset_openKinds
      exact ((hvalue.cons sign (by decide)).cons target (by decide)).cons word (by decide)
  | printEnd word value =>
      exact (value.areOf.weaken expressionKinds_subset_openKinds).cons word (by decide)
  | blockEnd opening => exact (hopen _ List.mem_cons_self opening.kind_eq).elim
  | evaluateEnd value => exact value.areOf.weaken expressionKinds_subset_openKinds
  | assignmentTarget left => exact left.areOf.weaken expressionKinds_subset_openKinds
  | operand => exact areOf_nil
  | closingParen opening inner =>
      exact (inner.areOf.weaken expressionKinds_subset_openKinds).cons opening (by decide)

theorem Frame.areOf (f : Frame s part) (hs : s ≠ .program)
    (hopen : ∀ t ∈ f.tokens, t.kind ≠ .leftBrace) :
    AreOf openKinds f.tokens ∧ part ≠ .program := by
  have hoperator {below : Nat} : ∀ k ∈ operatorsAt (below + 1), k ∈ openKinds := fun _ h =>
    expressionKinds_subset_openKinds _ (operator_mem_expressionKinds h)
  cases f with
  | declaration => exact (hs rfl).elim
  | declarations => exact (hs rfl).elim
  | define word target sign =>
      exact ⟨((areOf_nil.cons sign (by decide)).cons target (by decide)).cons word (by decide),
        nofun⟩
  | print word => exact ⟨areOf_nil.cons word (by decide), nofun⟩
  | block opening => exact (hopen _ List.mem_cons_self opening.kind_eq).elim
  | assign target sign =>
      exact ⟨(areOf_nil.cons sign (by decide)).cons target (by decide), nofun⟩
  | operators first => exact ⟨first.areOf.weaken expressionKinds_subset_openKinds, nofun⟩
  | right operator => exact ⟨areOf_nil.cons operator hoperator, nofun⟩
  | next operator second =>
      exact ⟨(second.areOf.weaken expressionKinds_subset_openKinds).cons operator hoperator, nofun⟩
  | unary operator => exact ⟨areOf_nil.cons operator (by decide), nofun⟩
  | grouping opening => exact ⟨areOf_nil.cons opening (by decide), nofun⟩
  | statement | evaluate | expression | equality | operand | primary => exact ⟨areOf_nil, nofun⟩

/-- Where no block is open, no semicolon stands in front of a gap. -/
theorem Broken.areOf (b : Broken s) (hs : s ≠ .program)
    (hopen : ∀ t ∈ b.tokens, t.kind ≠ .leftBrace) : AreOf openKinds b.tokens := by
  induction b with
  | gap g => exact g.areOf hs hopen
  | inside f b ih =>
      obtain ⟨hfront, hinside⟩ := List.forall_mem_append.mp hopen
      obtain ⟨hframe, hpart⟩ := f.areOf hs hfront
      exact hframe.append (ih hpart hinside)

/-! ## Behind a gap -/

/-- Only the first token behind a gap is told. -/
theorem Broken.error_eq (b : Broken s) (last later : Nat) (t : Token) (after others : List Token) :
    (b.failure last (t :: after)).error = (b.failure later (t :: others)).error := by
  induction b with
  | gap g => cases g <;> rfl
  | inside f b ih => exact ih

/-- After a failure one token behind the gap is passed over, or two if the first is an equals
sign without a target. -/
theorem Broken.recover_eq {b : Broken .declaration} (h : b.Refuses rest) (last : Nat) :
    recover (b.tokens ++ rest) (b.failure last rest) =
      synchronize
        (if (b.failure last rest).error.cause = .assignmentTarget then rest.tail else rest) := by
  rw [recover, b.remaining_eq, List.length_append]
  split
  · next hcause =>
    obtain ⟨sign, after, rfl, -⟩ := Broken.begins_equal h hcause
    have hcursor : b.tokens.length + (sign :: after).length - ((sign :: after).length - 1) =
        b.tokens.length + 1 := by
      rw [List.length_cons]
      omega
    rw [hcursor, ← List.drop_drop, List.drop_left, List.drop_one]
  · rw [Nat.add_sub_cancel, List.drop_left]

end Grammar

namespace Parser

open Grammar

variable {last later start : Nat} {tokens : List Token}

/-! ## Clauses -/

/-- Tokens without a brace that end at their only semicolon. -/
def IsClause (tokens : List Token) : Prop :=
  ∃ front close, tokens = front ++ [close] ∧ close.kind = .semicolon ∧
    ∀ t ∈ front, t.kind ∉ [.semicolon, .leftBrace, .rightBrace]

namespace IsClause

theorem ne_leftBrace (h : IsClause tokens) : ∀ t ∈ tokens, t.kind ≠ .leftBrace := by
  obtain ⟨front, close, rfl, hclose, hfront⟩ := h
  intro t ht hkind
  rcases List.mem_append.mp ht with ht | ht
  · exact hfront t ht (by rw [hkind]; decide)
  · rw [List.mem_singleton.mp ht, hclose] at hkind
    cases hkind

theorem exists_semicolon (h : IsClause tokens) : ∃ t ∈ tokens, t.kind = .semicolon := by
  obtain ⟨front, close, rfl, hclose, -⟩ := h
  exact ⟨close, List.mem_append_right _ List.mem_cons_self, hclose⟩

/-- The end of a clause is a clause. -/
theorem of_append {front rest : List Token} (h : IsClause (front ++ rest)) (hne : rest ≠ []) :
    IsClause rest := by
  obtain ⟨before, close, heq, hclose, hbefore⟩ := h
  rw [← List.dropLast_concat_getLast hne, ← List.append_assoc] at heq
  obtain ⟨rfl, hlast⟩ := List.append_inj' heq rfl
  refine ⟨rest.dropLast, close, ?_, hclose, ?_⟩
  · rw [← hlast, List.dropLast_concat_getLast]
  · exact fun t ht => hbefore t (List.mem_append_right _ ht)

theorem of_cons {t : Token} {after : List Token} (h : IsClause (t :: after)) (hne : after ≠ []) :
    IsClause after := by
  rw [← List.singleton_append] at h
  exact h.of_append hne

/-- In a clause the last token is a semicolon, and the others are none. -/
theorem semicolon_iff {t : Token} {after : List Token} (h : IsClause (t :: after)) :
    t.kind = .semicolon ↔ after = [] := by
  obtain ⟨front, close, heq, hclose, hfront⟩ := h
  match front with
  | [] =>
      cases heq
      exact iff_of_true hclose rfl
  | first :: others =>
      rw [List.cons_append, List.cons.injEq] at heq
      obtain ⟨rfl, rfl⟩ := heq
      refine iff_of_false ?_ (List.append_ne_nil_of_right_ne_nil _ (List.cons_ne_nil _ _))
      intro hkind
      exact hfront t List.mem_cons_self (by rw [hkind]; decide)

end IsClause

/-- A pass does not go past the semicolon of a clause. -/
theorem resume_append {t : Token} {after : List Token} (h : IsClause (t :: after))
    (more : List Token) : resume t (after ++ more) = resume t after ++ more := by
  induction after generalizing t with
  | nil =>
      have hkind : t.kind = .semicolon := h.semicolon_iff.mpr rfl
      match more with
      | [] => rfl
      | _ :: _ => exact if_pos (Or.inl hkind)
  | cons u after ih =>
      rw [List.cons_append, resume, resume]
      split
      · rfl
      · exact ih (h.of_cons (List.cons_ne_nil u after))

theorem synchronize_append (h : IsClause tokens) (more : List Token) :
    synchronize (tokens ++ more) = synchronize tokens ++ more := by
  match tokens with
  | [] =>
      obtain ⟨t, ht, -⟩ := h.exists_semicolon
      cases ht
  | t :: after => exact resume_append h more

/-! ## Attempts in a clause -/

/-- An attempt that fails in a clause fails in the same way whatever follows the clause. -/
theorem exists_failure_append {failure : Failure} (h : IsClause tokens)
    (hfail : declaration last tokens = .error failure) (later : Nat) (more : List Token) :
    ∃ same, declaration later (tokens ++ more) = .error same ∧ same.error = failure.error ∧
      recover (tokens ++ more) same = recover tokens failure ++ more := by
  obtain ⟨b, rest, rfl, hrefuses, rfl⟩ := declaration_eq_error_iff.mp hfail
  match rest with
  | [] =>
      rw [List.append_nil] at h
      obtain ⟨t, ht, hkind⟩ := h.exists_semicolon
      have hkinds := b.areOf nofun h.ne_leftBrace t ht
      rw [hkind] at hkinds
      exact absurd hkinds (by decide)
  | t :: after =>
      have hrest : IsClause (t :: after) := h.of_append (List.cons_ne_nil t after)
      have hmore := hrefuses.cons (after ++ more)
      have herror := b.error_eq later last t (after ++ more) after
      refine ⟨b.failure later (t :: (after ++ more)), ?_, herror, ?_⟩
      · rw [List.append_assoc, List.cons_append]
        exact b.fails hmore
      · rw [List.append_assoc, List.cons_append, Broken.recover_eq hmore,
          Broken.recover_eq hrefuses, herror]
        split
        · next hcause =>
          obtain ⟨sign, _, heq, hkind⟩ := Broken.begins_equal hrefuses hcause
          cases heq
          have hafter : after ≠ [] := by
            intro hempty
            rw [hrest.semicolon_iff.mpr hempty] at hkind
            exact absurd hkind (by decide)
          exact synchronize_append (hrest.of_cons hafter) more
        · exact synchronize_append hrest more

/-- A slice of a clause, or one that is a declaration, is taken up whatever follows. -/
theorem Takes.append {slice : Slice} {rest : List Token} (h : Takes last start slice rest)
    (hslice : IsClause (slice.tokens ++ rest) ∨ slice.error? = none) (later : Nat)
    (more : List Token) :
    ∃ same, Takes later start same (rest ++ more) ∧ same.tokens = slice.tokens ∧
      same.statement? = slice.statement? ∧ same.error? = slice.error? := by
  cases h with
  | tree t => exact ⟨_, .tree t (rest ++ more), rfl, rfl, rfl⟩
  | @error failure skipped _ hne hfail hrest =>
      rcases hslice with hclause | hnone
      · obtain ⟨same, hsame, herror, hrecover⟩ := exists_failure_append hclause hfail later more
        rw [List.append_assoc] at hsame hrecover
        rw [hrest] at hrecover
        refine ⟨⟨start, skipped, .error same⟩, .error hne hsame hrecover, rfl, rfl, ?_⟩
        exact congrArg some herror
      · cases hnone

/-! ## Pieces in a row -/

/-- A clause, and a program that is read without an error, may be read on their own. -/
theorem declarations_append (h : IsClause tokens ∨ (declarations last tokens).2 = [])
    (later : Nat) (more : List Token) :
    declarations later (tokens ++ more) =
      ((declarations last tokens).1 ++ (declarations later more).1,
        (declarations last tokens).2 ++ (declarations later more).2) := by
  -- The slices of the piece are slices of the whole, and are read in the same way.
  induction 0, tokens using induction_on_slices last with
  | nil start =>
      rw [declarations]
      rfl
  | cons start slice rest htakes ih =>
      have hparts := htakes.declarations_eq
      have hslice : IsClause (slice.tokens ++ rest) ∨ slice.error? = none := by
        refine h.imp_right fun hnone => ?_
        rw [hparts] at hnone
        exact Option.toList_eq_nil_iff.mp (List.append_eq_nil_iff.mp hnone).1
      have hrest : IsClause rest ∨ (declarations last rest).2 = [] := by
        by_cases hempty : rest = []
        · rw [hempty, declarations]
          exact Or.inr rfl
        · refine h.imp (fun hclause => hclause.of_append hempty) fun hnone => ?_
          rw [hparts] at hnone
          exact (List.append_eq_nil_iff.mp hnone).2
      obtain ⟨same, hsame, htokens, hstatement, herror⟩ := htakes.append hslice later more
      rw [hparts, List.append_assoc, ← htokens, hsame.declarations_eq, ih hrest, hstatement,
        herror, List.append_assoc, List.append_assoc]

/-- Tokens that all matter and do not mark the end. -/
def IsPlain (tokens : List Token) : Prop := ∀ t ∈ tokens, t.isSemantic ∧ t.kind ≠ .endOfInput

theorem phrase_of_isPlain (h : IsPlain tokens) : phrase tokens = tokens := by
  have hsemantic : tokens.filter Token.isSemantic = tokens :=
    List.filter_eq_self.mpr fun t ht => (h t ht).1
  rw [phrase, hsemantic]
  exact List.takeWhile_eq_self_iff.mpr fun t ht => bne_iff_ne.mpr (h t ht).2

theorem parse_of_isPlain (h : IsPlain tokens) :
    Program.parse tokens = declarations (Input.ofTokens tokens).last tokens := by
  rw [Program.parse, tokens_ofTokens, phrase_of_isPlain h]

/-- A syntax error stays in its own statement.  Where each piece of the tokens is a program
that is read without an error, or a clause, the statements and the errors of the whole are
those of the pieces, each of them read on its own. -/
theorem parse_flatten {pieces : List (List Token)}
    (h : ∀ piece ∈ pieces, IsPlain piece ∧ ((Program.parse piece).2 = [] ∨ IsClause piece)) :
    Program.parse pieces.flatten =
      (pieces.flatMap fun piece => (Program.parse piece).1,
        pieces.flatMap fun piece => (Program.parse piece).2) := by
  have hplain : IsPlain pieces.flatten := by
    intro t ht
    obtain ⟨piece, hpiece, ht⟩ := List.mem_flatten.mp ht
    exact (h piece hpiece).1 t ht
  rw [parse_of_isPlain hplain]
  generalize (Input.ofTokens pieces.flatten).last = last
  clear hplain
  induction pieces with
  | nil =>
      rw [List.flatten_nil, declarations]
      rfl
  | cons piece pieces ih =>
      obtain ⟨⟨hplain, hpiece⟩, hpieces⟩ := List.forall_mem_cons.mp h
      rw [parse_of_isPlain hplain] at hpiece
      rw [List.flatten_cons, declarations_append hpiece.symm, ih hpieces, List.flatMap_cons,
        List.flatMap_cons, parse_of_isPlain hplain]

/-- A statement on each of three lines: the first has no name, and the last starts behind a
parenthesis that nothing opens. -/
def mixed : List (List Token) :=
  [[.simple .varWord (some 1), .simple .semicolon (some 1)],
    [.simple .printWord (some 2), .simple .nilWord (some 2), .simple .semicolon (some 2)],
    [.simple .rightParen (some 3), .simple .printWord (some 3), .simple .trueWord (some 3),
      .simple .semicolon (some 3)]]

theorem parse_flatten_mixed :
    (∀ piece ∈ mixed, IsPlain piece ∧ ((Program.parse piece).2 = [] ∨ IsClause piece)) ∧
      Program.parse mixed.flatten =
        ([.print (.literal .nil), .print (.literal (.boolean true))],
          [⟨1, .variableName⟩, ⟨3, .expression⟩]) := by
  have hpieces : ∀ piece ∈ mixed,
      IsPlain piece ∧ ((Program.parse piece).2 = [] ∨ IsClause piece) := by
    rw [mixed, List.forall_mem_cons, List.forall_mem_cons, List.forall_mem_singleton]
    refine ⟨⟨?_, Or.inr ⟨[_], _, rfl, rfl, ?_⟩⟩, ⟨?_, Or.inl ?_⟩,
      ⟨?_, Or.inr ⟨[_, _, _], _, rfl, rfl, ?_⟩⟩⟩
    · rw [IsPlain]; decide
    · decide
    · rw [IsPlain]; decide
    · decide +kernel
    · rw [IsPlain]; decide
    · decide
  refine ⟨hpieces, ?_⟩
  rw [parse_flatten hpieces, mixed]
  decide +kernel

end Parser

end MiniLox
