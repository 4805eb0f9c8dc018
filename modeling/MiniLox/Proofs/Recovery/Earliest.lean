import MiniLox.Proofs.Recovery.Places

/-!
# Failures at the earliest token

An attempt to read a declaration fails at the first token with which the tokens read so far
are no longer the beginning of a declaration.  What stands in front of that token is a
broken phrase, so it is the beginning of one.  What includes the token is not: a declaration
that begins so would be read, while the same tokens fail at the gap whatever comes behind.
-/

namespace MiniLox

namespace Grammar

open MiniLox.Parser

/-! ## The kinds in a phrase -/

/-- The kinds of the tokens of an expression. -/
def expressionKinds : List TokenKind :=
  .equal :: .rightParen :: (expressionStarts ++ operatorsUpTo topLevel)

/-- The kinds of the tokens of a symbol. -/
def Symbol.kinds : Symbol → List TokenKind
  | .program | .declaration | .statement =>
    .varWord :: .printWord :: .leftBrace :: .rightBrace :: .semicolon :: expressionKinds
  | .expression | .assignment | .operand _ | .operators _ | .primary => expressionKinds

/-- The tokens are all of some kinds. -/
def AreOf (kinds : List TokenKind) (tokens : List Token) : Prop := ∀ t ∈ tokens, t.kind ∈ kinds

section

variable {kinds : List TokenKind}

theorem areOf_nil : AreOf kinds [] := fun _ h => absurd h List.not_mem_nil

theorem AreOf.append {front rest : List Token} (hfront : AreOf kinds front)
    (hrest : AreOf kinds rest) : AreOf kinds (front ++ rest) :=
  List.forall_mem_append.mpr ⟨hfront, hrest⟩

theorem AreOf.cons {some : List TokenKind} {rest : List Token} (hrest : AreOf kinds rest)
    (t : Terminal some) (hsub : ∀ k ∈ some, k ∈ kinds) : AreOf kinds (t.token :: rest) :=
  List.forall_mem_cons.mpr ⟨hsub _ t.kind_mem, hrest⟩

theorem AreOf.weaken {fewer : List TokenKind} {tokens : List Token} (h : AreOf fewer tokens)
    (hsub : ∀ k ∈ fewer, k ∈ kinds) : AreOf kinds tokens :=
  fun t ht => hsub _ (h t ht)

end

theorem expressionKinds_subset : ∀ k ∈ expressionKinds, k ∈ Symbol.statement.kinds := by
  decide

theorem operator_mem_expressionKinds {level : Nat} {k : TokenKind} (h : k ∈ operatorsAt level) :
    k ∈ expressionKinds :=
  List.mem_cons_of_mem _ (List.mem_cons_of_mem _ (List.mem_append_right _ (mem_operatorsUpTo h)))

theorem Tree.areOf {s : Symbol} (t : Tree s) : AreOf s.kinds t.tokens := by
  induction t with
  | nothing => exact areOf_nil
  | more _ _ ihFirst ihOthers => exact ihFirst.append ihOthers
  | declare word target close =>
      exact ((areOf_nil.cons close (by decide)).cons target (by decide)).cons word (by decide)
  | define word target sign value close ih =>
      have hvalue := (ih.weaken expressionKinds_subset).append
        (areOf_nil.cons close (by decide))
      exact ((hvalue.cons sign (by decide)).cons target (by decide)).cons word (by decide)
  | statement _ ih => exact ih
  | print word value close ih =>
      have hvalue := (ih.weaken expressionKinds_subset).append
        (areOf_nil.cons close (by decide))
      exact hvalue.cons word (by decide)
  | block opening body closing close ih =>
      have hclose : AreOf Symbol.statement.kinds [closing.token, close.token] :=
        (areOf_nil.cons close (by decide)).cons closing (by decide)
      exact (ih.append hclose).cons opening (by decide)
  | evaluate value close ih =>
      exact (ih.weaken expressionKinds_subset).append (areOf_nil.cons close (by decide))
  | expression _ ih => exact ih
  | assign target sign _ ih => exact (ih.cons sign (by decide)).cons target (by decide)
  | equality _ ih => exact ih
  | chain _ _ ihFirst ihOthers => exact ihFirst.append ihOthers
  | stop => exact areOf_nil
  | next operator _ _ ihRight ihOthers =>
      exact (ihRight.append ihOthers).cons operator fun _ => operator_mem_expressionKinds
  | unary operator _ ih => exact ih.cons operator (by decide)
  | primary _ ih => exact ih
  | literal t => exact areOf_nil.cons t (by decide)
  | grouping opening _ closing ih =>
      exact (ih.append (areOf_nil.cons closing (by decide))).cons opening (by decide)
  | reference t => exact areOf_nil.cons t (by decide)

/-! ## Where a broken phrase ends -/

/-- A declaration is read whatever follows it. -/
theorem Tree.yields_declaration (t : Tree .declaration) (last : Nat) (rest : List Token) :
    Yields (declaration last (t.tokens ++ rest)) t.meaning rest :=
  reads_of_tree last t (stops_empty rest)

/-- A declaration does not begin where one breaks off. -/
theorem Tree.tokens_append_ne (t : Tree .declaration) {b : Broken .declaration}
    {rest : List Token} (h : b.Refuses rest) (x : List Token) :
    t.tokens ++ x ≠ b.tokens ++ rest := by
  intro heq
  have hreads := t.yields_declaration 0 x
  rw [heq] at hreads
  obtain ⟨_, hok⟩ := hreads
  cases hok.symm.trans (b.fails h)

theorem Broken.place_eq {s : Symbol} {last : Nat} {b : Broken s} {rest : List Token}
    (h : b.Refuses rest) (before : List Token) :
    (b.failure last rest).place (before ++ (b.tokens ++ rest)) =
      before.length + b.tokens.length := by
  rw [Failure.place, Failure.cursor, b.remaining_eq, List.length_append, List.length_append]
  split
  · next hcause =>
    obtain ⟨_, _, rfl, -⟩ := Broken.begins_equal h hcause
    rw [List.length_cons]
    omega
  · omega

/-- An attempt to read a declaration behind some tokens breaks off, and `t` is the token behind
the gap. -/
structure GapAt (all before tokens : List Token) (failure : Failure) (b : Broken .declaration)
    (rest : List Token) (t : Token) (others : List Token) : Prop where
  tokens_eq : tokens = b.tokens ++ rest
  refuses : b.Refuses rest
  failure_eq : failure = b.failure (Input.ofTokens all).last rest
  place_eq : failure.place (phrase all) = before.length + b.tokens.length
  marked_eq : marked all = before ++ (b.tokens ++ t :: others)
  next : (∃ after, rest = t :: after) ∨ rest = [] ∧ t.kind = .endOfInput
  line_eq : lineOf t = nextLine (Input.ofTokens all).last rest

variable {all before tokens : List Token} {failure : Failure}

theorem exists_gapAt (hsplit : phrase all = before ++ tokens)
    (hfail : declaration (Input.ofTokens all).last tokens = .error failure) :
    ∃ b rest t others, GapAt all before tokens failure b rest t others := by
  obtain ⟨b, rest, rfl, hrefuses, rfl⟩ := declaration_eq_error_iff.mp hfail
  obtain ⟨stop, more, hmarked, hkind, hline⟩ := exists_marked all
  have hplace : (b.failure (Input.ofTokens all).last rest).place (phrase all) =
      before.length + b.tokens.length := by
    rw [hsplit, Broken.place_eq hrefuses]
  rw [hsplit, List.append_assoc, List.append_assoc] at hmarked
  match rest with
  | [] =>
      exact ⟨b, [], stop, more, rfl, hrefuses, rfl, hplace, hmarked, Or.inr ⟨rfl, hkind⟩, hline⟩
  | t :: after =>
      exact ⟨b, t :: after, t, after ++ stop :: more, rfl, hrefuses, rfl, hplace, hmarked,
        Or.inl ⟨after, rfl⟩, rfl⟩

namespace GapAt

variable {b : Broken .declaration} {rest : List Token} {t : Token} {others : List Token}

/-- No declaration begins with the broken one and the token behind its gap, which may be the
end of input. -/
theorem not_begins (h : GapAt all before tokens failure b rest t others)
    (tree : Tree .declaration) (more : List Token) : tree.tokens ≠ b.tokens ++ t :: more := by
  intro heq
  rcases h.next with ⟨after, hrest⟩ | ⟨-, hkind⟩
  · have hrefuses := h.refuses
    rw [hrest] at hrefuses
    rw [← List.append_nil tree.tokens] at heq
    exact tree.tokens_append_ne (hrefuses.cons more) [] heq
  · have hmem : t ∈ tree.tokens := by
      rw [heq]
      exact List.mem_append_right _ List.mem_cons_self
    have hkinds := tree.areOf t hmem
    rw [hkind] at hkinds
    exact absurd hkinds (by decide)

theorem place_le (h : GapAt all before tokens failure b rest t others)
    (hsplit : phrase all = before ++ tokens) :
    failure.place (phrase all) ≤ (phrase all).length := by
  rw [h.place_eq, hsplit, h.tokens_eq, List.length_append, List.length_append]
  omega

theorem getElem?_place (h : GapAt all before tokens failure b rest t others) :
    (marked all)[failure.place (phrase all)]? = some t := by
  rw [h.place_eq, h.marked_eq, ← List.append_assoc, ← List.length_append,
    List.getElem?_append_right (Nat.le_refl _), Nat.sub_self]
  rfl

/-- The tokens of the attempt in front of the gap. -/
theorem extract_place (h : GapAt all before tokens failure b rest t others) :
    (marked all).extract before.length (failure.place (phrase all)) = b.tokens := by
  rw [h.place_eq, h.marked_eq, List.extract_eq_take_drop, List.drop_left,
    Nat.add_sub_cancel_left, List.take_left]

/-- The same tokens and the one behind them. -/
theorem extract_place_succ (h : GapAt all before tokens failure b rest t others) :
    (marked all).extract before.length (failure.place (phrase all) + 1) = b.tokens ++ [t] := by
  have hlength : before.length + b.tokens.length + 1 - before.length =
      (b.tokens ++ [t]).length := by
    rw [List.length_append, List.length_singleton]
    omega
  have hmiddle : b.tokens ++ t :: others = (b.tokens ++ [t]) ++ others := by
    rw [List.append_assoc, List.singleton_append]
  rw [h.place_eq, h.marked_eq, List.extract_eq_take_drop, List.drop_left, hlength, hmiddle,
    List.take_left]

/-- An equals sign without a target is the token behind the gap. -/
theorem kind_eq_equal (h : GapAt all before tokens failure b rest t others)
    (hcause : failure.error.cause = .assignmentTarget) : t.kind = .equal := by
  rw [h.failure_eq] at hcause
  obtain ⟨sign, after, hrest, hkind⟩ := Broken.begins_equal h.refuses hcause
  rcases h.next with ⟨_, hnext⟩ | ⟨hnext, -⟩
  · rw [hrest] at hnext
    cases hnext
    exact List.mem_singleton.mp hkind
  · rw [hrest] at hnext
    cases hnext

theorem line_eq_lineOf (h : GapAt all before tokens failure b rest t others)
    (hcause : failure.error.cause ≠ .closingParen) : failure.error.line = lineOf t := by
  rw [h.failure_eq] at hcause ⊢
  rw [b.line_eq hcause, h.line_eq]

/-- A parenthesis that is not closed stands in front of the gap, and is the innermost one that
is open there. -/
theorem exists_opening (h : GapAt all before tokens failure b rest t others)
    (hcause : failure.error.cause = .closingParen) :
    ∃ j opening, (openParens [] before.length b.tokens).head? = some j ∧
      (before.length ≤ j ∧ j < failure.place (phrase all)) ∧
      (marked all)[j]? = some opening ∧ opening.kind = .leftParen ∧
      failure.error.line = lineOf opening := by
  rw [h.failure_eq] at hcause
  obtain ⟨j, opening, hhead, hopening, hkind, hline⟩ :=
    b.exists_opening hcause [] before.length
  have hlt : j < b.tokens.length := (List.getElem?_eq_some_iff.mp hopening).1
  refine ⟨before.length + j, opening, hhead, ⟨Nat.le_add_right _ _, ?_⟩, ?_, hkind, ?_⟩
  · rw [h.place_eq]
    omega
  · rw [h.marked_eq, List.getElem?_append_right (Nat.le_add_right _ _), Nat.add_sub_cancel_left,
      List.getElem?_append_left hlt, hopening]
  · rw [h.failure_eq, hline]

end GapAt

/-! ## The earliest token -/

/-- An attempt to read a declaration that starts at position `i` fails at a position `k`, that
of the equals sign where its target is none.  The tokens up to `k`, without it, are the
beginning of a declaration and not all of it, and with the token at `k` they are the
beginning of none.  The line of the error is that of the token at `k`, or of the innermost
parenthesis that is open there if this is not closed. -/
theorem fails_at_earliest_token (hsplit : phrase all = before ++ tokens)
    (hfail : declaration (Input.ofTokens all).last tokens = .error failure) :
    let i := before.length
    let k := failure.place (phrase all)
    (i ≤ k ∧ k ≤ (phrase all).length) ∧
      (∃ (tree : Tree .declaration) (more : List Token),
        more ≠ [] ∧ tree.tokens = (marked all).extract i k ++ more) ∧
      (∀ (tree : Tree .declaration) (more : List Token),
        tree.tokens ≠ (marked all).extract i (k + 1) ++ more) ∧
      ∃ t, (marked all)[k]? = some t ∧
        (failure.error.cause = .assignmentTarget → t.kind = .equal) ∧
        (failure.error.cause ≠ .closingParen → failure.error.line = lineOf t) ∧
        (failure.error.cause = .closingParen →
          ∃ j opening, (openParens [] i ((marked all).extract i k)).head? = some j ∧
            (marked all)[j]? = some opening ∧ opening.kind = .leftParen ∧
            failure.error.line = lineOf opening) := by
  obtain ⟨b, rest, t, others, h⟩ := exists_gapAt hsplit hfail
  dsimp only
  rw [h.extract_place, h.extract_place_succ]
  refine ⟨⟨?_, h.place_le hsplit⟩, ?_, ?_, t, h.getElem?_place, h.kind_eq_equal,
    h.line_eq_lineOf, ?_⟩
  · rw [h.place_eq]
    exact Nat.le_add_right _ _
  · obtain ⟨tree, more, htree⟩ := b.exists_tree
    refine ⟨tree, more, ?_, htree⟩
    -- Without more tokens the phrase would be read, whatever follows it.
    rintro rfl
    rw [List.append_nil] at htree
    apply tree.tokens_append_ne h.refuses rest
    rw [htree]
  · intro tree more
    rw [List.append_assoc]
    exact h.not_begins tree more
  · intro hcause
    obtain ⟨j, opening, hhead, -, hopening⟩ := h.exists_opening hcause
    exact ⟨j, opening, hhead, hopening⟩

/-- A declaration on the first line. -/
def declared : List Token :=
  [.simple .varWord (some 1), ⟨.identifier, "a", some (.text "a"), some 1⟩,
    .simple .semicolon (some 1)]

/-- A parenthesis on the second line that the semicolon on the third should not follow. -/
def unclosed : List Token :=
  [.simple .printWord (some 2), .simple .leftParen (some 2), .simple .nilWord (some 2),
    .simple .semicolon (some 3)]

theorem fails_at_earliest_token_unclosed :
    phrase (declared ++ unclosed) = declared ++ unclosed ∧
      declaration (Input.ofTokens (declared ++ unclosed)).last unclosed =
        .error ⟨⟨2, .closingParen⟩, 1⟩ ∧
      (∃ (tree : Tree .declaration) (more : List Token),
        more ≠ [] ∧ tree.tokens = unclosed.take 3 ++ more) ∧
      (∀ (tree : Tree .declaration) (more : List Token), tree.tokens ≠ unclosed ++ more) ∧
      openParens [] 3 (unclosed.take 3) = [4] := by
  have hsplit : phrase (declared ++ unclosed) = declared ++ unclosed := by decide
  have hfail : declaration (Input.ofTokens (declared ++ unclosed)).last unclosed =
      .error ⟨⟨2, .closingParen⟩, 1⟩ := by
    change declaration 3 unclosed = _
    rw [unclosed]
    cbv
  obtain ⟨-, hbegins, hnot, -⟩ := fails_at_earliest_token hsplit hfail
  exact ⟨hsplit, hfail, hbegins, hnot, by decide⟩

end Grammar

end MiniLox
