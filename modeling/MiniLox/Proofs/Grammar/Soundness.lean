import MiniLox.Proofs.Grammar.Steps

/-!
# What is read is a phrase

Whatever is read from the front of some tokens is a phrase of the grammar, and the
value is its meaning.  Every reader works on shorter tokens than those it was given,
or hands them to a reader further down the list of rules, and this is the order of
the proof: first primaries, then the levels of operators upwards, then assignments.
-/

namespace MiniLox

namespace Grammar

open MiniLox.Parser

variable {last : Nat} {tokens rest : List Token}

/-- The tokens start with a phrase of a symbol that has a meaning. -/
def Derives (s : Symbol) (value : s.Meaning) (tokens rest : List Token) : Prop :=
  ∃ t : Tree s, t.meaning = value ∧ tokens = t.tokens ++ rest

/-! ## Expressions -/

/-- What is read from fewer than `n` tokens is a phrase. -/
structure SoundBelow (last n : Nat) : Prop where
  assignment : ∀ {tokens rest : List Token} {e : Expr}, tokens.length < n →
    Yields (assignment last tokens) e rest → Derives .assignment e tokens rest
  operand : ∀ {level : Nat} {tokens rest : List Token} {e : Expr}, tokens.length < n →
    Yields (operand last level tokens) e rest → Derives (.operand level) e tokens rest

theorem derives_of_primary {e : Expr} (below : SoundBelow last tokens.length)
    (h : Yields (primary last tokens) e rest) : Derives .primary e tokens rest := by
  rcases yields_primary_iff.mp h with ⟨t, rfl, hkind, rfl⟩ | ⟨t, rfl, hkind, rfl⟩ |
    ⟨opening, after, inner, closing, rfl, hopening, hinner, hclosing, rfl⟩
  · exact ⟨.literal ⟨t, hkind⟩, rfl, rfl⟩
  · exact ⟨.reference ⟨t, List.mem_singleton.mpr hkind⟩, rfl, rfl⟩
  · obtain ⟨tree, rfl, rfl⟩ := below.assignment (Nat.lt_succ_self _) hinner
    refine ⟨.grouping ⟨opening, List.mem_singleton.mpr hopening⟩ (.expression tree)
      ⟨closing, List.mem_singleton.mpr hclosing⟩, rfl, ?_⟩
    simp only [Tree.tokens, List.cons_append, List.append_assoc, List.nil_append]

theorem derives_of_unary {e : Expr} (below : SoundBelow last tokens.length)
    (h : Yields (unary last tokens) e rest) : Derives (.operand 0) e tokens rest := by
  rcases yields_unary_iff.mp h with ⟨operator, after, right, rfl, hkind, hright, rfl⟩ | ⟨-, h⟩
  · rw [← operand_zero] at hright
    obtain ⟨tree, rfl, rfl⟩ := below.operand (Nat.lt_succ_self _) hright
    exact ⟨.unary ⟨operator, hkind⟩ tree, rfl, rfl⟩
  · obtain ⟨tree, rfl, rfl⟩ := derives_of_primary below h
    exact ⟨.primary tree, rfl, rfl⟩

theorem derives_of_operands {n below : Nat} {left e : Expr} {input : List Token}
    {shorter : tokens.length < input.length} (hn : tokens.length ≤ n) (hbelow : SoundBelow last n)
    (h : Yields (operands last below left tokens input shorter) e rest) :
    ∃ t : Tree (.operators below),
      List.foldl applyOperator left t.meaning = e ∧ tokens = t.tokens ++ rest := by
  induction hlength : tokens.length using Nat.strongRecOn generalizing tokens left with
  | ind length ih =>
      rcases yields_operands_iff.mp h with ⟨-, rfl, rfl⟩ |
        ⟨operator, after, right, mid, closer, rfl, hkind, hright, hothers⟩
      · exact ⟨.stop, rfl, rfl⟩
      · rw [List.length_cons] at hn hlength
        have hmid := hright.shorter
        obtain ⟨rightTree, rfl, rfl⟩ := hbelow.operand (by omega) hright
        obtain ⟨others, hmeaning, rfl⟩ := ih _ (by omega) (by omega) hothers rfl
        refine ⟨.next ⟨operator, hkind⟩ rightTree others, hmeaning, ?_⟩
        simp only [Tree.tokens, List.cons_append, List.append_assoc]

theorem derives_of_operand {level : Nat} {e : Expr} (below : SoundBelow last tokens.length)
    (h : Yields (operand last level tokens) e rest) : Derives (.operand level) e tokens rest := by
  induction level generalizing e rest with
  | zero =>
      rw [operand_zero] at h
      exact derives_of_unary below h
  | succ level ih =>
      obtain ⟨first, mid, shorter, hfirst, hothers⟩ := yields_operand_succ_iff.mp h
      obtain ⟨others, rfl, rfl⟩ := derives_of_operands (Nat.le_of_lt shorter) below hothers
      obtain ⟨tree, rfl, rfl⟩ := ih hfirst
      refine ⟨.chain tree others, rfl, ?_⟩
      rw [Tree.tokens, List.append_assoc]

theorem derives_of_assignment {e : Expr} (below : SoundBelow last tokens.length)
    (h : Yields (assignment last tokens) e rest) : Derives .assignment e tokens rest := by
  obtain ⟨left, mid, hleft, hcases⟩ := yields_assignment_iff.mp h
  obtain ⟨tree, htree, htokens⟩ := derives_of_operand below hleft
  rcases hcases with ⟨-, rfl, rfl⟩ | ⟨sign, after, name, value, rfl, hsign, rfl, hvalue, rfl⟩
  · exact ⟨.equality tree, htree, htokens⟩
  · obtain ⟨hname, hkind⟩ := tree.tokens_of_variable htree
    rw [hname] at htokens
    have hlength := congrArg List.length htokens
    simp only [List.length_append, List.length_cons] at hlength
    obtain ⟨valueTree, rfl, rfl⟩ := below.assignment (by omega) hvalue
    exact ⟨.assign ⟨name, List.mem_singleton.mpr hkind⟩ ⟨sign, List.mem_singleton.mpr hsign⟩
      valueTree, rfl, htokens⟩

theorem soundBelow (last n : Nat) : SoundBelow last n := by
  induction n with
  | zero => exact ⟨fun h => absurd h (Nat.not_lt_zero _), fun h => absurd h (Nat.not_lt_zero _)⟩
  | succ n ih =>
      have weaken {tokens : List Token} (h : tokens.length < n + 1) :
          SoundBelow last tokens.length :=
        ⟨fun h' => ih.assignment (by omega), fun h' => ih.operand (by omega)⟩
      exact ⟨fun h => derives_of_assignment (weaken h), fun h => derives_of_operand (weaken h)⟩

/-- What is read as an expression is one. -/
theorem Derives.of_assignment {e : Expr} (h : Yields (assignment last tokens) e rest) :
    Derives .expression e tokens rest := by
  obtain ⟨tree, hmeaning, htokens⟩ := derives_of_assignment (soundBelow last _) h
  exact ⟨.expression tree, hmeaning, htokens⟩

/-! ## Statements -/

theorem Derives.of_binding {d : Stmt} {word : Token} (hword : word.kind = .varWord)
    (h : Yields (binding last tokens) d rest) : Derives .declaration d (word :: tokens) rest := by
  obtain ⟨target, after, rfl, htarget, hcases⟩ := yields_binding_iff.mp h
  rcases hcases with ⟨closing, rfl, hclosing, rfl⟩ |
    ⟨sign, others, value, closing, rfl, hsign, hvalue, hclosing, rfl⟩
  · exact ⟨.declare ⟨word, List.mem_singleton.mpr hword⟩ ⟨target, List.mem_singleton.mpr htarget⟩
      ⟨closing, List.mem_singleton.mpr hclosing⟩, rfl, rfl⟩
  · obtain ⟨tree, rfl, rfl⟩ := Derives.of_assignment hvalue
    refine ⟨.define ⟨word, List.mem_singleton.mpr hword⟩ ⟨target, List.mem_singleton.mpr htarget⟩
      ⟨sign, List.mem_singleton.mpr hsign⟩ tree ⟨closing, List.mem_singleton.mpr hclosing⟩,
      rfl, ?_⟩
    simp only [Tree.tokens, List.cons_append, List.append_assoc, List.nil_append]

/-- What is read as a declaration is one, and what is read up to a closing brace is
a list of declarations. -/
theorem derives_of_declaration (last : Nat) (tokens : List Token) :
    (∀ d rest, Yields (declaration last tokens) d rest → Derives .declaration d tokens rest) ∧
      ∀ body rest, Yields (statements last tokens) body rest →
        ∃ brace, brace.kind = .rightBrace ∧ Derives .program body tokens (brace :: rest) := by
  induction hlength : tokens.length using Nat.strongRecOn generalizing tokens with
  | ind length ih =>
      have hdeclaration : ∀ d rest, Yields (declaration last tokens) d rest →
          Derives .declaration d tokens rest := by
        intro d rest h
        by_cases hstarts : Begins [.varWord, .printWord, .leftBrace] tokens
        · obtain ⟨word, after, rfl, hkind⟩ := hstarts
          simp only [List.mem_cons, List.not_mem_nil, or_false] at hkind
          rcases hkind with hvar | hprint | hbrace
          · exact Derives.of_binding hvar ((yields_declaration_var_iff hvar).mp h)
          · obtain ⟨e, closing, he, hclosing, rfl⟩ := (yields_declaration_print_iff hprint).mp h
            obtain ⟨tree, rfl, rfl⟩ := Derives.of_assignment he
            refine ⟨.statement (.print ⟨word, List.mem_singleton.mpr hprint⟩ tree
              ⟨closing, List.mem_singleton.mpr hclosing⟩), rfl, ?_⟩
            simp only [Tree.tokens, List.cons_append, List.append_assoc, List.nil_append]
          · obtain ⟨body, closing, hbody, hclosing, rfl⟩ :=
              (yields_declaration_block_iff hbrace).mp h
            rw [List.length_cons] at hlength
            obtain ⟨brace, hkind, tree, rfl, rfl⟩ := (ih _ (by omega) _ rfl).2 _ _ hbody
            refine ⟨.statement (.block ⟨word, List.mem_singleton.mpr hbrace⟩ tree
              ⟨brace, List.mem_singleton.mpr hkind⟩ ⟨closing, List.mem_singleton.mpr hclosing⟩),
              rfl, ?_⟩
            simp only [Tree.tokens, List.cons_append, List.append_assoc, List.nil_append]
        · obtain ⟨e, closing, he, hclosing, rfl⟩ := (yields_declaration_expression_iff hstarts).mp h
          obtain ⟨tree, rfl, rfl⟩ := Derives.of_assignment he
          refine ⟨.statement (.evaluate tree ⟨closing, List.mem_singleton.mpr hclosing⟩), rfl, ?_⟩
          simp only [Tree.tokens, List.append_assoc, List.singleton_append]
      refine ⟨hdeclaration, ?_⟩
      intro body rest h
      rcases yields_statements_iff.mp h with ⟨brace, rfl, hbrace, rfl⟩ |
        ⟨_, _, first, mid, others, -, -, hfirst, hothers, rfl⟩
      · exact ⟨brace, hbrace, .nothing, rfl, rfl⟩
      · have hmid := hfirst.shorter
        obtain ⟨tree, rfl, rfl⟩ := hdeclaration _ _ hfirst
        obtain ⟨brace, hbrace, othersTree, rfl, rfl⟩ := (ih _ (by omega) _ rfl).2 _ _ hothers
        refine ⟨brace, hbrace, .more tree othersTree, rfl, ?_⟩
        rw [Tree.tokens, List.append_assoc]

/-- Tokens that are read without an error are a program. -/
theorem Derives.of_declarations {p : Program} (h : declarations last tokens = (p, [])) :
    Derives .program p tokens [] := by
  induction hlength : tokens.length using Nat.strongRecOn generalizing tokens p with
  | ind length ih =>
      rcases declarations_eq_iff.mp h with ⟨rfl, rfl⟩ |
        ⟨_, _, d, mid, others, -, hd, hothers, rfl⟩
      · exact ⟨.nothing, rfl, rfl⟩
      · have hmid := hd.shorter
        obtain ⟨tree, rfl, rfl⟩ := (derives_of_declaration last tokens).1 _ _ hd
        obtain ⟨othersTree, rfl, rfl⟩ := ih _ (by omega) hothers rfl
        refine ⟨.more tree othersTree, rfl, ?_⟩
        rw [Tree.tokens, List.append_assoc]

end Grammar

end MiniLox
