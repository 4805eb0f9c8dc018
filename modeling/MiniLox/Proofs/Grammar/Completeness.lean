import MiniLox.Proofs.Grammar.Soundness

/-!
# Every phrase is read

A phrase of the grammar in front of other tokens is read as its meaning, provided
that a longer phrase could not go on with those tokens.  With the other direction it
follows that a list of tokens is read without an error if and only if the tokens
before the end of input are a program, and that the result is what the only
derivation of this program means.
-/

namespace MiniLox

namespace Grammar

open MiniLox.Parser

/-- The function that reads phrases of a symbol takes a phrase with a meaning off the
front of some tokens.  The declarations of a program end with a closing brace or with
the tokens, and the operators of a level are applied to an expression on their left. -/
def Reads (last : Nat) : (s : Symbol) → s.Meaning → List Token → List Token → Prop
  | .program, p, tokens, rest =>
    (∀ brace after, rest = brace :: after → brace.kind = .rightBrace →
      Yields (statements last tokens) p after) ∧
      (rest = [] → declarations last tokens = (p, []))
  | .declaration, d, tokens, rest | .statement, d, tokens, rest =>
    Yields (Parser.declaration last tokens) d rest
  | .expression, e, tokens, rest | .assignment, e, tokens, rest =>
    Yields (Parser.assignment last tokens) e rest
  | .operand level, e, tokens, rest => Yields (Parser.operand last level tokens) e rest
  | .operators below, others, tokens, rest =>
    ∀ left input shorter, Yields (operands last below left tokens input shorter)
      (List.foldl applyOperator left others) rest
  | .primary, e, tokens, rest => Yields (Parser.primary last tokens) e rest

variable {last : Nat}

/-- A name is read as a variable by every level of operators. -/
theorem yields_operand_identifier {level : Nat} {name : Token} {rest : List Token}
    (hname : name.kind = .identifier) (hrest : Stops (operatorsUpTo level) rest) :
    Yields (operand last level (name :: rest)) (.variable name) rest := by
  induction level with
  | zero =>
      rw [operand_zero, yields_unary_iff, yields_primary_iff]
      refine Or.inr ⟨?_, Or.inr (Or.inl ⟨name, rfl, hname, rfl⟩)⟩
      rw [stops_cons_iff, hname]
      decide
  | succ below ih =>
      have hfirst := ih (hrest.anti fun _ => List.mem_append_left _)
      refine yields_operand_succ_iff.mpr ⟨.variable name, rest, hfirst.shorter, hfirst, ?_⟩
      exact yields_operands_iff.mpr
        (Or.inl ⟨hrest.anti fun _ => List.mem_append_right _, rfl, rfl⟩)

/-- A phrase is read as its meaning unless it could go on. -/
theorem reads_of_tree (last : Nat) {s : Symbol} (t : Tree s) {rest : List Token}
    (hrest : Stops s.continuations rest) : Reads last s t.meaning (t.tokens ++ rest) rest := by
  induction t generalizing rest with
  | nothing =>
      constructor
      · rintro brace after rfl hbrace
        exact yields_statements_iff.mpr (Or.inl ⟨brace, rfl, hbrace, rfl⟩)
      · rintro rfl
        exact declarations_eq_iff.mpr (Or.inl ⟨rfl, rfl⟩)
  | more first others ihFirst ihOthers =>
      obtain ⟨head, tail, hhead, hkind⟩ := first.begins trivial
      have hfirst := ihFirst (stops_empty (others.tokens ++ rest))
      obtain ⟨hclosed, hopen⟩ := ihOthers hrest
      rw [Tree.tokens, List.append_assoc]
      constructor
      · intro brace after hbrace hbraceKind
        refine yields_statements_iff.mpr (Or.inr ⟨head, tail ++ (others.tokens ++ rest), _, _, _,
          ?_, ?_, hfirst, hclosed brace after hbrace hbraceKind, rfl⟩)
        · rw [hhead, List.cons_append]
        · rintro hbrace
          rw [hbrace] at hkind
          exact absurd hkind (by decide)
      · intro hnil
        refine declarations_eq_iff.mpr (Or.inr ⟨head, tail ++ (others.tokens ++ rest), _, _, _,
          ?_, hfirst, hopen hnil, rfl⟩)
        rw [hhead, List.cons_append]
  | declare word target close =>
      exact (yields_declaration_var_iff word.kind_eq).mpr (yields_binding_iff.mpr
        ⟨target.token, _, rfl, target.kind_eq, Or.inl ⟨close.token, rfl, close.kind_eq, rfl⟩⟩)
  | define word target sign value close ih =>
      have hvalue := ih (close.stops (by decide) rest)
      rw [← List.singleton_append, ← List.append_assoc] at hvalue
      exact (yields_declaration_var_iff word.kind_eq).mpr (yields_binding_iff.mpr
        ⟨target.token, _, rfl, target.kind_eq, Or.inr ⟨sign.token, _, value.meaning, close.token,
          rfl, sign.kind_eq, hvalue, close.kind_eq, rfl⟩⟩)
  | statement inner ih => exact ih hrest
  | print word value close ih =>
      have hvalue := ih (close.stops (by decide) rest)
      rw [← List.singleton_append, ← List.append_assoc] at hvalue
      exact (yields_declaration_print_iff word.kind_eq).mpr
        ⟨value.meaning, close.token, hvalue, close.kind_eq, rfl⟩
  | block opening body closing close ih =>
      have hbody := (ih (closing.stops (by decide) (close.token :: rest))).1
        closing.token (close.token :: rest) rfl closing.kind_eq
      rw [Tree.tokens, List.cons_append, List.append_assoc]
      exact (yields_declaration_block_iff opening.kind_eq).mpr
        ⟨body.meaning, close.token, hbody, close.kind_eq, rfl⟩
  | evaluate value close ih =>
      have hvalue := ih (close.stops (by decide) rest)
      have hstarts := (value.begins trivial).append (close.token :: rest)
      rw [Tree.tokens, List.append_assoc, List.singleton_append]
      refine (yields_declaration_expression_iff ?_).mpr
        ⟨value.meaning, close.token, hvalue, close.kind_eq, rfl⟩
      exact hstarts.stops (by decide)
  | expression inner ih => exact ih hrest
  | assign target sign value ih =>
      have htarget : Yields (Parser.operand last topLevel
          (target.token :: sign.token :: (value.tokens ++ rest))) (.variable target.token)
          (sign.token :: (value.tokens ++ rest)) :=
        yields_operand_identifier target.kind_eq (sign.stops (by decide) _)
      exact yields_assignment_iff.mpr ⟨_, _, htarget, Or.inr
        ⟨sign.token, _, target.token, value.meaning, rfl, sign.kind_eq, rfl, ih hrest, rfl⟩⟩
  | equality inner ih =>
      have hinner := ih (hrest.anti fun _ => List.mem_cons_of_mem _)
      refine yields_assignment_iff.mpr ⟨_, rest, hinner, Or.inl ⟨hrest.anti ?_, rfl, rfl⟩⟩
      intro k hk
      rw [List.mem_singleton.mp hk]
      exact List.mem_cons_self
  | chain first others ihFirst ihOthers =>
      have hfirst := ihFirst (others.stops_operators hrest)
      rw [Tree.tokens, List.append_assoc]
      exact yields_operand_succ_iff.mpr
        ⟨_, _, hfirst.shorter, hfirst, ihOthers hrest _ _ hfirst.shorter⟩
  | stop =>
      intro left input shorter
      exact yields_operands_iff.mpr
        (Or.inl ⟨hrest.anti fun _ => List.mem_append_right _, rfl, rfl⟩)
  | next operator right others ihRight ihOthers =>
      have hright := ihRight (others.stops_operators hrest)
      rw [Tree.tokens, List.cons_append, List.append_assoc]
      intro left input shorter
      have hclose := Nat.lt_trans hright.shorter (Nat.lt_of_succ_lt shorter)
      exact yields_operands_iff.mpr (Or.inr ⟨operator.token, _, right.meaning, _, hclose, rfl,
        operator.kind_mem, hright, ihOthers hrest _ _ hclose⟩)
  | unary operator right ih =>
      have hright := ih hrest
      rw [Reads, operand_zero] at hright
      rw [Reads, operand_zero]
      exact yields_unary_iff.mpr
        (Or.inl ⟨operator.token, _, right.meaning, rfl, operator.kind_mem, hright, rfl⟩)
  | primary inner ih =>
      rw [Reads, operand_zero]
      exact yields_unary_iff.mpr
        (Or.inr ⟨((inner.begins trivial).append rest).stops (by decide), ih hrest⟩)
  | literal t =>
      exact yields_primary_iff.mpr (Or.inl ⟨t.token, rfl, t.kind_mem, rfl⟩)
  | grouping opening inner closing ih =>
      have hinner := ih (closing.stops (by decide) rest)
      rw [Tree.tokens, List.cons_append, List.append_assoc]
      exact yields_primary_iff.mpr (Or.inr (Or.inr ⟨opening.token, _, inner.meaning,
        closing.token, rfl, opening.kind_eq, hinner, closing.kind_eq, rfl⟩))
  | reference t =>
      exact yields_primary_iff.mpr (Or.inr (Or.inl ⟨t.token, rfl, t.kind_eq, rfl⟩))

/-! ## Whole programs -/

/-- The tokens that matter, before the first end of input. -/
def phrase (all : List Token) : List Token :=
  (all.filter Token.isSemantic).takeWhile (·.kind != .endOfInput)

theorem tokens_ofTokens (all : List Token) : (Input.ofTokens all).tokens = phrase all := by
  rw [Input.ofTokens]
  split <;> rfl

/-- The derivation of the tokens before the end of input determines what is read. -/
theorem parse_of_tree {all : List Token} (t : Tree .program) (h : t.tokens = phrase all) :
    Program.parse all = (t.meaning, []) := by
  have hreads := (reads_of_tree (Input.ofTokens all).last t (stops_nil _)).2 rfl
  rw [List.append_nil, h, ← tokens_ofTokens] at hreads
  exact hreads

/-- What is read without an error is derived. -/
theorem exists_tree_of_parse {all : List Token} {p : Program} (h : Program.parse all = (p, [])) :
    ∃ t : Tree .program, t.meaning = p ∧ t.tokens = phrase all := by
  obtain ⟨t, hmeaning, htokens⟩ := Derives.of_declarations h
  rw [List.append_nil, tokens_ofTokens] at htokens
  exact ⟨t, hmeaning, htokens.symm⟩

/-- A list of tokens is read without an error if and only if the tokens that matter
before the first end of input are a program.  The program then has one derivation,
and what is read is its abstract syntax. -/
theorem parse_iff_derivable (all : List Token) :
    ((Program.parse all).2 = [] ↔ ∃ t : Tree .program, t.tokens = phrase all) ∧
      ∀ t : Tree .program, t.tokens = phrase all →
        Program.parse all = (t.meaning, []) ∧
          ∀ u : Tree .program, u.tokens = phrase all → u = t := by
  constructor
  · constructor
    · intro h
      obtain ⟨t, -, htokens⟩ := exists_tree_of_parse (Prod.ext rfl h)
      exact ⟨t, htokens⟩
    · rintro ⟨t, htokens⟩
      rw [parse_of_tree t htokens]
  · intro t htokens
    refine ⟨parse_of_tree t htokens, ?_⟩
    intro u hu
    have hsame : u.tokens ++ [] = t.tokens ++ [] := by rw [hu, htokens]
    exact (u.unique t hsame (stops_nil _) (stops_nil _)).1

end Grammar

end MiniLox
