import MiniLox.Proofs.Grammar.Completeness
import MiniLox.Proofs.Recovery.Broken

/-!
# Every failure is a gap

A declaration cannot be read from the front of some tokens if and only if they begin with a
broken declaration that refuses the rest, and then the failure is the gap of it.

One direction follows the reading functions, each of which works on shorter tokens than
those it was given or hands them to a function further down the list of rules.  The other
follows the frames of the broken phrase: what has been read in front of a part is read
again, because it is a phrase and could not go on with the part.
-/

namespace MiniLox

namespace Grammar

open MiniLox.Parser

variable {last : Nat} {tokens rest : List Token} {failure : Failure}

/-- The tokens begin with a phrase of a symbol that breaks off, and the failure is its gap. -/
def Breaks (last : Nat) (s : Symbol) (tokens : List Token) (failure : Failure) : Prop :=
  ∃ (b : Broken s) (rest : List Token),
    tokens = b.tokens ++ rest ∧ b.Refuses rest ∧ failure = b.failure last rest

theorem Breaks.gap {s : Symbol} (g : Gap s) (h : g.Refuses rest) :
    Breaks last s (g.tokens ++ rest) (g.failure last rest) :=
  ⟨.gap g, rest, rfl, h, rfl⟩

theorem Breaks.inside {s part : Symbol} (f : Frame s part) (hadmits : f.Admits tokens)
    (h : Breaks last part tokens failure) : Breaks last s (f.tokens ++ tokens) failure := by
  obtain ⟨b, rest, rfl, hrefuses, rfl⟩ := h
  refine ⟨.inside f b, rest, ?_, ⟨hadmits, hrefuses⟩, rfl⟩
  rw [Broken.tokens, List.append_assoc]

/-! ## What has been read does not go on -/

theorem stops_append_iff {kinds others : List TokenKind} :
    Stops (kinds ++ others) rest ↔ Stops kinds rest ∧ Stops others rest := by
  match rest with
  | [] =>
      exact ⟨fun _ => ⟨stops_nil _, stops_nil _⟩, fun _ => stops_nil _⟩
  | t :: after =>
      rw [stops_cons_iff, stops_cons_iff, stops_cons_iff, List.mem_append, not_or]

theorem stops_of_operands {below : Nat} {left e : Expr} {input : List Token}
    {shorter : tokens.length < input.length}
    (hoperand : ∀ {tokens rest : List Token} {e : Expr},
      Yields (operand last below tokens) e rest → Stops (operatorsUpTo below) rest)
    (htokens : Stops (operatorsUpTo below) tokens)
    (h : Yields (operands last below left tokens input shorter) e rest) :
    Stops (operatorsUpTo (below + 1)) rest := by
  induction hlength : tokens.length using Nat.strongRecOn generalizing tokens left with
  | ind length ih =>
      rcases yields_operands_iff.mp h with ⟨hstops, -, rfl⟩ |
        ⟨operator, after, right, mid, closer, rfl, -, hright, hothers⟩
      · exact stops_append_iff.mpr ⟨htokens, hstops⟩
      · have hmid := hright.shorter
        rw [List.length_cons] at hlength
        exact ih _ (by omega) (hoperand hright) hothers rfl

theorem stops_of_operand {level : Nat} {e : Expr}
    (h : Yields (operand last level tokens) e rest) : Stops (operatorsUpTo level) rest := by
  induction level generalizing tokens e rest with
  | zero => exact stops_empty rest
  | succ below ih =>
      obtain ⟨first, mid, shorter, hfirst, hothers⟩ := yields_operand_succ_iff.mp h
      exact stops_of_operands ih (ih hfirst) hothers

theorem stops_of_assignment {e : Expr} (h : Yields (assignment last tokens) e rest) :
    Stops Symbol.expression.continuations rest := by
  induction hlength : tokens.length using Nat.strongRecOn generalizing tokens e with
  | ind length ih =>
      obtain ⟨left, mid, hleft, hcases⟩ := yields_assignment_iff.mp h
      rcases hcases with ⟨hstops, -, rfl⟩ | ⟨sign, after, name, value, rfl, -, -, hvalue, -⟩
      · exact stops_append_iff.mpr ⟨hstops, stops_of_operand hleft⟩
      · have hafter := hleft.shorter
        rw [List.length_cons] at hafter
        exact ih _ (by omega) hvalue rfl

/-! ## From a failure to its gap -/

/-- What cannot be read from fewer than `n` tokens breaks off. -/
structure BreaksBelow (last n : Nat) : Prop where
  assignment : ∀ {tokens : List Token} {failure : Failure}, tokens.length < n →
    assignment last tokens = .error failure → Breaks last .assignment tokens failure
  operand : ∀ {level : Nat} {tokens : List Token} {failure : Failure}, tokens.length < n →
    operand last level tokens = .error failure → Breaks last (.operand level) tokens failure

theorem breaks_of_primary (below : BreaksBelow last tokens.length)
    (hstops : Stops unaryOperators tokens) (h : primary last tokens = .error failure) :
    Breaks last (.operand 0) tokens failure := by
  rcases primary_eq_error_iff.mp h with ⟨hstarts, rfl⟩ |
    ⟨opening, after, rfl, hopening, h | ⟨inner, mid, hinner, hmid, rfl⟩⟩
  · exact .gap .operand (stops_append_iff.mpr ⟨hstops, hstarts⟩)
  · exact .inside .primary trivial (.inside (.grouping ⟨opening, List.mem_singleton.mpr hopening⟩)
      trivial (.inside .expression trivial (below.assignment (Nat.lt_succ_self _) h)))
  · obtain ⟨tree, -, rfl⟩ := Derives.of_assignment hinner
    exact .inside .primary trivial (.gap (.closingParen
      ⟨opening, List.mem_singleton.mpr hopening⟩ tree) ⟨stops_of_assignment hinner, hmid⟩)

theorem breaks_of_unary (below : BreaksBelow last tokens.length)
    (h : unary last tokens = .error failure) : Breaks last (.operand 0) tokens failure := by
  rcases unary_eq_error_iff.mp h with ⟨operator, after, rfl, hkind, h⟩ | ⟨hstops, h⟩
  · rw [← operand_zero] at h
    exact .inside (.unary ⟨operator, hkind⟩) trivial (below.operand (Nat.lt_succ_self _) h)
  · exact breaks_of_primary below hstops h

theorem breaks_of_operands {n below : Nat} {left : Expr} {input : List Token}
    {shorter : tokens.length < input.length} (hn : tokens.length ≤ n)
    (hbelow : BreaksBelow last n)
    (h : operands last below left tokens input shorter = .error failure) :
    Breaks last (.operators below) tokens failure := by
  induction hlength : tokens.length using Nat.strongRecOn generalizing tokens left with
  | ind length ih =>
      obtain ⟨operator, after, rfl, hkind, hfail | ⟨right, mid, closer, hright, hfail⟩⟩ :=
        operands_eq_error_iff.mp h
      · exact .inside (.right ⟨operator, hkind⟩) trivial (hbelow.operand hn hfail)
      · have hmid := hright.shorter
        rw [List.length_cons] at hn hlength
        obtain ⟨tree, -, rfl⟩ := derives_of_operand (soundBelow last _) hright
        exact .inside (.next ⟨operator, hkind⟩ tree) trivial
          (ih _ (by omega) (by omega) hfail rfl)

theorem breaks_of_operand {level : Nat} (below : BreaksBelow last tokens.length)
    (h : operand last level tokens = .error failure) :
    Breaks last (.operand level) tokens failure := by
  induction level generalizing failure with
  | zero =>
      rw [operand_zero] at h
      exact breaks_of_unary below h
  | succ level ih =>
      rcases operand_succ_eq_error_iff.mp h with h | ⟨first, mid, shorter, hfirst, h⟩
      · exact .inside .operand trivial (ih h)
      · have hothers := breaks_of_operands (Nat.le_of_lt shorter) below h
        obtain ⟨tree, -, rfl⟩ := derives_of_operand (soundBelow last _) hfirst
        exact .inside (.operators tree) trivial hothers

theorem breaks_of_assignment (below : BreaksBelow last tokens.length)
    (h : assignment last tokens = .error failure) : Breaks last .assignment tokens failure := by
  rcases assignment_eq_error_iff.mp h with hfail | ⟨left, sign, after, hleft, hsign, hcases⟩
  · exact .inside .equality trivial (breaks_of_operand below hfail)
  · obtain ⟨tree, htree, htokens⟩ := derives_of_operand (soundBelow last _) hleft
    have hequal : Begins [.equal] (sign :: after) :=
      ⟨sign, after, rfl, List.mem_singleton.mpr hsign⟩
    rcases hcases with ⟨hname, rfl⟩ | ⟨⟨name, rfl⟩, hfail⟩
    · subst htokens
      rw [← htree] at hname
      exact .gap (.assignmentTarget tree hname) hequal
    · obtain ⟨hname, hkind⟩ := tree.tokens_of_variable htree
      rw [hname] at htokens
      subst htokens
      exact .inside (.assign ⟨name, List.mem_singleton.mpr hkind⟩
        ⟨sign, List.mem_singleton.mpr hsign⟩) trivial
        (below.assignment (by simp only [List.length_append, List.length_cons]; omega) hfail)

theorem breaksBelow (last n : Nat) : BreaksBelow last n := by
  induction n with
  | zero => exact ⟨fun h => absurd h (Nat.not_lt_zero _), fun h => absurd h (Nat.not_lt_zero _)⟩
  | succ n ih =>
      have weaken {tokens : List Token} (h : tokens.length < n + 1) :
          BreaksBelow last tokens.length :=
        ⟨fun h' => ih.assignment (by omega), fun h' => ih.operand (by omega)⟩
      exact ⟨fun h => breaks_of_assignment (weaken h), fun h => breaks_of_operand (weaken h)⟩

/-- An expression breaks off, or it is complete and not closed. -/
theorem breaks_or_of_isUnclosed {kind : TokenKind} {cause : SyntaxCause}
    (h : IsUnclosed last kind cause (assignment last tokens) failure) :
    Breaks last .expression tokens failure ∨
      ∃ (value : Tree .expression) (rest : List Token), tokens = value.tokens ++ rest ∧
        (Stops Symbol.expression.continuations rest ∧ Stops [kind] rest) ∧
        failure = failureAt last cause rest := by
  rcases h with h | ⟨e, rest, he, hkind, rfl⟩
  · exact Or.inl (.inside .expression trivial (breaks_of_assignment (breaksBelow last _) h))
  · obtain ⟨value, -, rfl⟩ := Derives.of_assignment he
    exact Or.inr ⟨value, rest, rfl, ⟨stops_of_assignment he, hkind⟩, rfl⟩

theorem breaks_of_binding {word : Token} (hword : word.kind = .varWord)
    (h : binding last tokens = .error failure) :
    Breaks last .declaration (word :: tokens) failure := by
  have hvar : word.kind ∈ [TokenKind.varWord] := List.mem_singleton.mpr hword
  rcases binding_eq_error_iff.mp h with ⟨hstops, rfl⟩ | ⟨target, after, rfl, htarget, h⟩
  · exact .gap (.variableName ⟨word, hvar⟩) hstops
  · have hname : target.kind ∈ [TokenKind.identifier] := List.mem_singleton.mpr htarget
    rcases h with ⟨hequal, hclose, rfl⟩ | ⟨sign, others, rfl, hsign, h⟩
    · exact .gap (.declareEnd ⟨word, hvar⟩ ⟨target, hname⟩) ⟨hequal, hclose⟩
    · have hequal : sign.kind ∈ [TokenKind.equal] := List.mem_singleton.mpr hsign
      rcases breaks_or_of_isUnclosed h with h | ⟨value, rest, rfl, hrefuses, rfl⟩
      · exact .inside (.define ⟨word, hvar⟩ ⟨target, hname⟩ ⟨sign, hequal⟩) trivial h
      · exact .gap (.defineEnd ⟨word, hvar⟩ ⟨target, hname⟩ ⟨sign, hequal⟩ value) hrefuses

/-- A declaration that cannot be read breaks off, and so does a block in which a declaration
or the closing brace is missing. -/
theorem breaks_of_declaration (last : Nat) (tokens : List Token) :
    (∀ failure, declaration last tokens = .error failure →
        Breaks last .declaration tokens failure) ∧
      ∀ failure, statements last tokens = .error failure →
        Breaks last .program tokens failure := by
  induction hlength : tokens.length using Nat.strongRecOn generalizing tokens with
  | ind length ih =>
      have hdeclaration : ∀ failure, declaration last tokens = .error failure →
          Breaks last .declaration tokens failure := by
        intro failure h
        by_cases hstarts : Begins [.varWord, .printWord, .leftBrace] tokens
        · obtain ⟨word, after, rfl, hkind⟩ := hstarts
          simp only [List.mem_cons, List.not_mem_nil, or_false] at hkind
          rcases hkind with hvar | hprint | hbrace
          · exact breaks_of_binding hvar ((declaration_var_eq_error_iff hvar).mp h)
          · have hword : word.kind ∈ [TokenKind.printWord] := List.mem_singleton.mpr hprint
            rcases breaks_or_of_isUnclosed ((declaration_print_eq_error_iff hprint).mp h) with
              h | ⟨value, rest, rfl, hrefuses, rfl⟩
            · exact .inside .statement trivial (.inside (.print ⟨word, hword⟩) trivial h)
            · exact .inside .statement trivial (.gap (.printEnd ⟨word, hword⟩ value) hrefuses)
          · have hopening : word.kind ∈ [TokenKind.leftBrace] := List.mem_singleton.mpr hbrace
            rw [List.length_cons] at hlength
            rcases (declaration_block_eq_error_iff hbrace).mp h with
              h | ⟨body, rest, hbody, hsemicolon, rfl⟩
            · exact .inside .statement trivial (.inside (.block ⟨word, hopening⟩) trivial
                ((ih _ (by omega) after rfl).2 failure h))
            · obtain ⟨brace, hkind, tree, -, rfl⟩ := (derives_of_declaration last after).2 _ _ hbody
              have hgap : Breaks last .statement _ _ := .gap (.blockEnd ⟨word, hopening⟩ tree
                ⟨brace, List.mem_singleton.mpr hkind⟩) hsemicolon
              rw [Gap.tokens, List.cons_append, List.append_assoc, List.singleton_append] at hgap
              exact .inside .statement trivial hgap
        · rcases breaks_or_of_isUnclosed ((declaration_expression_eq_error_iff hstarts).mp h) with
            h | ⟨value, rest, rfl, hrefuses, rfl⟩
          · exact .inside .statement trivial (.inside .evaluate hstarts h)
          · exact .inside .statement trivial (.gap (.evaluateEnd value) hrefuses)
      refine ⟨hdeclaration, ?_⟩
      intro failure h
      rcases statements_eq_error_iff.mp h with ⟨rfl, rfl⟩ |
        ⟨hne, hbrace, hfail | ⟨first, mid, hfirst, hfail⟩⟩
      · exact .gap .closingBrace rfl
      · exact .inside .declaration ⟨hne, hbrace⟩ (hdeclaration failure hfail)
      · have hmid := hfirst.shorter
        obtain ⟨tree, -, rfl⟩ := (derives_of_declaration last tokens).1 _ _ hfirst
        exact .inside (.declarations tree) trivial ((ih _ (by omega) mid rfl).2 failure hfail)

/-! ## From a gap to its failure -/

/-- The function that reads phrases of a symbol fails. -/
def Fails (last : Nat) : Symbol → List Token → Failure → Prop
  | .program, tokens, failure => statements last tokens = .error failure
  | .declaration, tokens, failure | .statement, tokens, failure =>
    declaration last tokens = .error failure
  | .expression, tokens, failure | .assignment, tokens, failure =>
    assignment last tokens = .error failure
  | .operand level, tokens, failure => operand last level tokens = .error failure
  | .operators below, tokens, failure =>
    ∀ left input shorter, operands last below left tokens input shorter = .error failure
  | .primary, tokens, failure => primary last tokens = .error failure

theorem Broken.begins_operator {below : Nat} (b : Broken (.operators below)) :
    Begins (operatorsAt (below + 1)) b.tokens := by
  cases b with
  | gap g => cases g
  | inside f b =>
      cases f with
      | right operator => exact operator.begins (fun _ => id) _
      | next operator => exact operator.begins (fun _ => id) _

theorem Broken.begins_paren (b : Broken .primary) : Begins [.leftParen] b.tokens := by
  cases b with
  | gap g =>
      cases g with
      | closingParen opening => exact opening.begins (fun _ => id) _
  | inside f b =>
      cases f with
      | grouping opening => exact opening.begins (fun _ => id) _

theorem Gap.fails {s : Symbol} (g : Gap s) (h : g.Refuses rest) :
    Fails last s (g.tokens ++ rest) (g.failure last rest) := by
  cases g with
  | closingBrace =>
      cases h
      exact statements_eq_error_iff.mpr (Or.inl ⟨rfl, rfl⟩)
  | variableName word =>
      exact (declaration_var_eq_error_iff word.kind_eq).mpr
        (binding_eq_error_iff.mpr (Or.inl ⟨h, rfl⟩))
  | declareEnd word target =>
      exact (declaration_var_eq_error_iff word.kind_eq).mpr (binding_eq_error_iff.mpr
        (Or.inr ⟨target.token, rest, rfl, target.kind_eq, Or.inl ⟨h.1, h.2, rfl⟩⟩))
  | defineEnd word target sign value =>
      exact (declaration_var_eq_error_iff word.kind_eq).mpr (binding_eq_error_iff.mpr
        (Or.inr ⟨target.token, _, rfl, target.kind_eq, Or.inr ⟨sign.token, _, rfl, sign.kind_eq,
          Or.inr ⟨value.meaning, rest, reads_of_tree last value h.1, h.2, rfl⟩⟩⟩))
  | printEnd word value =>
      exact (declaration_print_eq_error_iff word.kind_eq).mpr
        (Or.inr ⟨value.meaning, rest, reads_of_tree last value h.1, h.2, rfl⟩)
  | blockEnd opening body closing =>
      have hbody := (reads_of_tree last body (closing.stops (by decide) rest)).1
        closing.token rest rfl closing.kind_eq
      rw [tokens, List.cons_append, List.append_assoc, List.singleton_append]
      exact (declaration_block_eq_error_iff opening.kind_eq).mpr
        (Or.inr ⟨body.meaning, rest, hbody, h, rfl⟩)
  | evaluateEnd value =>
      have hstarts := (value.begins trivial).append rest
      exact (declaration_expression_eq_error_iff (hstarts.stops (by decide))).mpr
        (Or.inr ⟨value.meaning, rest, reads_of_tree last value h.1, h.2, rfl⟩)
  | assignmentTarget left hleft =>
      obtain ⟨sign, after, rfl, hkind⟩ := h
      have hrest : Stops (operatorsUpTo topLevel) (sign :: after) := by
        rw [stops_cons_iff, List.mem_singleton.mp hkind]
        decide
      exact assignment_eq_error_iff.mpr (Or.inr ⟨left.meaning, sign, after,
        reads_of_tree last left hrest, List.mem_singleton.mp hkind, Or.inl ⟨hleft, rfl⟩⟩)
  | operand =>
      obtain ⟨hunary, hprimary⟩ := stops_append_iff.mp h
      rw [Fails, operand_zero]
      exact unary_eq_error_iff.mpr
        (Or.inr ⟨hunary, primary_eq_error_iff.mpr (Or.inl ⟨hprimary, rfl⟩)⟩)
  | closingParen opening inner =>
      exact (primary_leftParen_eq_error_iff opening.kind_eq).mpr
        (Or.inr ⟨inner.meaning, rest, reads_of_tree last inner h.1, h.2, rfl⟩)

/-- A rule under way fails with the part that it looks for. -/
theorem Frame.fails {s part : Symbol} (f : Frame s part) (b : Broken part)
    (hadmits : f.Admits (b.tokens ++ rest)) (h : Fails last part (b.tokens ++ rest) failure) :
    Fails last s (f.tokens ++ (b.tokens ++ rest)) failure := by
  cases f with
  | declaration =>
      exact statements_eq_error_iff.mpr (Or.inr ⟨hadmits.1, hadmits.2, Or.inl h⟩)
  | declarations first =>
      obtain ⟨head, tail, hhead, -⟩ := first.begins trivial
      have hbegins := (first.begins trivial).append (b.tokens ++ rest)
      have hfirst := reads_of_tree last first (stops_empty (b.tokens ++ rest))
      refine statements_eq_error_iff.mpr (Or.inr ⟨?_, hbegins.stops (by decide),
        Or.inr ⟨first.meaning, _, hfirst, h⟩⟩)
      rw [tokens, hhead]
      exact List.cons_ne_nil _ _
  | define word target sign =>
      exact (declaration_var_eq_error_iff word.kind_eq).mpr (binding_eq_error_iff.mpr
        (Or.inr ⟨target.token, _, rfl, target.kind_eq,
          Or.inr ⟨sign.token, _, rfl, sign.kind_eq, Or.inl h⟩⟩))
  | statement => exact h
  | print word => exact (declaration_print_eq_error_iff word.kind_eq).mpr (Or.inl h)
  | block opening => exact (declaration_block_eq_error_iff opening.kind_eq).mpr (Or.inl h)
  | evaluate => exact (declaration_expression_eq_error_iff hadmits).mpr (Or.inl h)
  | expression => exact h
  | assign target sign =>
      have htarget : Yields (Parser.operand last topLevel
          (target.token :: sign.token :: (b.tokens ++ rest))) (.variable target.token)
          (sign.token :: (b.tokens ++ rest)) :=
        yields_operand_identifier target.kind_eq (sign.stops (by decide) _)
      exact assignment_eq_error_iff.mpr (Or.inr ⟨_, sign.token, _, htarget, sign.kind_eq,
        Or.inr ⟨⟨target.token, rfl⟩, h⟩⟩)
  | equality => exact assignment_eq_error_iff.mpr (Or.inl h)
  | operand => exact operand_succ_eq_error_iff.mpr (Or.inl h)
  | operators first =>
      have hoperator := b.begins_operator.append rest
      have hfirst := reads_of_tree last first
        (hoperator.stops fun _ hk => not_mem_operatorsUpTo hk)
      exact operand_succ_eq_error_iff.mpr
        (Or.inr ⟨first.meaning, _, hfirst.shorter, hfirst, h _ _ hfirst.shorter⟩)
  | right operator =>
      intro left input shorter
      exact operands_eq_error_iff.mpr ⟨operator.token, _, rfl, operator.kind_mem, Or.inl h⟩
  | next operator second =>
      have hoperator := b.begins_operator.append rest
      have hsecond := reads_of_tree last second
        (hoperator.stops fun _ hk => not_mem_operatorsUpTo hk)
      intro left input shorter
      have hclose := Nat.lt_trans hsecond.shorter (Nat.lt_of_succ_lt shorter)
      exact operands_eq_error_iff.mpr ⟨operator.token, _, rfl, operator.kind_mem,
        Or.inr ⟨second.meaning, _, hclose, hsecond, h _ _ hclose⟩⟩
  | unary operator =>
      rw [Fails, operand_zero] at h ⊢
      exact unary_eq_error_iff.mpr (Or.inl ⟨operator.token, _, rfl, operator.kind_mem, h⟩)
  | primary =>
      have hparen := b.begins_paren.append rest
      rw [Fails, operand_zero]
      exact unary_eq_error_iff.mpr (Or.inr ⟨hparen.stops (by decide), h⟩)
  | grouping opening =>
      exact (primary_leftParen_eq_error_iff opening.kind_eq).mpr (Or.inl h)

theorem Broken.fails {s : Symbol} (b : Broken s) (h : b.Refuses rest) :
    Fails last s (b.tokens ++ rest) (b.failure last rest) := by
  induction b with
  | gap g => exact g.fails h
  | inside f b ih =>
      rw [tokens, List.append_assoc]
      exact f.fails b h.1 (ih h.2)

/-- A declaration cannot be read if and only if it breaks off, and the failure is its gap. -/
theorem declaration_eq_error_iff :
    declaration last tokens = .error failure ↔ Breaks last .declaration tokens failure := by
  constructor
  · exact (breaks_of_declaration last tokens).1 failure
  · rintro ⟨b, rest, rfl, hrefuses, rfl⟩
    exact b.fails hrefuses

end Grammar

end MiniLox
