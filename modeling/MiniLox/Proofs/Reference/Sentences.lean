import MiniLox.Proofs.Names
import MiniLox.Proofs.Reference.Trees

/-!
# Trees are derivations

The rules of the grammar derive the phrases of its trees: a list of terminals whose kinds are
those of the tokens of a tree.  In such a list, no equals sign stands behind an operator that
it could belong to, and every identifier is a name of the program.
-/

namespace MiniLox

open Grammar

namespace Reference

variable {kind : TokenKind} {kinds : List TokenKind} {t : Lexeme} {ts : List Lexeme}
  {xs : List ParseTree} {p q : Phrase}

theorem derives_quoted (h : t.kind = kind) : Derives (.quoted kind) [t] [] := h ▸ .quoted t

theorem derives_named (h : t.kind = kind) : Derives (.named kind) [t] [.leaf t] := h ▸ .named t

theorem Derives.cons_quoted (ht : t.kind = kind) (h : Derives q ts xs) :
    Derives (.seq (.quoted kind) q) (t :: ts) xs := .seq (derives_quoted ht) h

theorem Derives.cons_named (ht : t.kind = kind) (h : Derives q ts xs) :
    Derives (.seq (.named kind) q) (t :: ts) (.leaf t :: xs) := .seq (derives_named ht) h

theorem Derives.either_named {first second : TokenKind} (h : t.kind ∈ [first, second]) :
    Derives (.either (.named first) (.named second)) [t] [.leaf t] := by
  simp only [List.mem_cons, List.not_mem_nil, or_false] at h
  rcases h with h | h
  · exact .left (derives_named h)
  · exact .right (derives_named h)

/-- A rule is applied by the number of the alternative. -/
theorem Derives.alternative {r : Rule} {a : Alternative} (i : Nat)
    (ha : r.alternatives[i]? = some a) (h : Derives a.phrase ts xs) :
    Derives (.rule r) ts [.build r a xs] := .rule (List.mem_of_getElem? ha) h

/-- The rule of a level of operators. -/
def levelRule : Nat → Rule
  | 0 => .unary
  | 1 => .factor
  | 2 => .term
  | 3 => .comparison
  | _ => .equality

/-- The phrase of a symbol. -/
def phraseOf : Symbol → Phrase
  | .program => .star (.rule .declaration)
  | .declaration => .rule .declaration
  | .statement => .rule .statement
  | .expression => .rule .expression
  | .assignment => .rule .assignment
  | .operand level => .rule (levelRule level)
  | .operators below => .star (.seq (operatorPhrase below) (.rule (levelRule below)))
  | .primary => .rule .primary

theorem derives_operator {below : Nat} (h : t.kind ∈ operatorsAt (below + 1)) :
    Derives (operatorPhrase below) [t] [.leaf t] := by
  match below with
  | 0 => exact .either_named h
  | 1 => exact .either_named h
  | 2 =>
      rcases List.mem_append.mp (show t.kind ∈ [.greater, .greaterEqual] ++ [.less, .lessEqual]
        from h) with h | h
      · exact .left (.either_named h)
      · exact .right (.either_named h)
  | 3 => exact .either_named h
  | _ + 4 => cases h

/-- The tokens of a tree are derived by its symbol, in whatever way they become terminals. -/
theorem exists_derives_of_tree {f : Token → Lexeme} (hf : ∀ t, (f t).kind = t.kind) {s : Symbol}
    (t : Tree s) : ∃ xs, Derives (phraseOf s) (t.tokens.map f) xs := by
  have hkind {k : TokenKind} (t : Terminal [k]) : (f t.token).kind = k :=
    (hf t.token).trans t.kind_eq
  induction t with
  | nothing => exact ⟨_, .stop⟩
  | more first others ihFirst ihOthers =>
      obtain ⟨xs, hfirst⟩ := ihFirst
      obtain ⟨ys, hothers⟩ := ihOthers
      rw [Tree.tokens, List.map_append]
      exact ⟨xs ++ ys, .more hfirst hothers⟩
  | declare word target close =>
      exact ⟨_, .alternative 0 rfl (.alternative 0 rfl (.cons_quoted (hkind word)
        (.cons_named (hkind target) (.seq .absent (derives_quoted (hkind close))))))⟩
  | define word target sign value close ih =>
      obtain ⟨xs, hvalue⟩ := ih
      rw [Tree.tokens, List.map_cons, List.map_cons, List.map_cons, List.map_append]
      exact ⟨_, .alternative 0 rfl (.alternative 0 rfl (.cons_quoted (hkind word)
        (.cons_named (hkind target) (.seq (.present (.cons_quoted (hkind sign) hvalue))
          (derives_quoted (hkind close))))))⟩
  | statement inner ih =>
      obtain ⟨xs, h⟩ := ih
      exact ⟨_, .alternative 1 rfl h⟩
  | print word value close ih =>
      obtain ⟨xs, hvalue⟩ := ih
      rw [Tree.tokens, List.map_cons, List.map_append]
      exact ⟨_, .alternative 0 rfl (.alternative 0 rfl
        (.cons_quoted (hkind word) (.seq hvalue (derives_quoted (hkind close)))))⟩
  | block opening body closing close ih =>
      obtain ⟨xs, hbody⟩ := ih
      rw [Tree.tokens, List.map_cons, List.map_append]
      exact ⟨_, .alternative 1 rfl (.alternative 0 rfl (.cons_quoted (hkind opening)
        (.seq hbody (.cons_quoted (hkind closing) (derives_quoted (hkind close))))))⟩
  | evaluate value close ih =>
      obtain ⟨xs, hvalue⟩ := ih
      rw [Tree.tokens, List.map_append]
      exact ⟨_, .alternative 2 rfl (.alternative 0 rfl
        (.seq hvalue (derives_quoted (hkind close))))⟩
  | expression inner ih =>
      obtain ⟨xs, h⟩ := ih
      exact ⟨_, .alternative 0 rfl h⟩
  | assign target sign value ih =>
      obtain ⟨xs, hvalue⟩ := ih
      exact ⟨_, .alternative 0 rfl (.cons_named (hkind target) (.cons_quoted (hkind sign) hvalue))⟩
  | equality inner ih =>
      obtain ⟨xs, h⟩ := ih
      exact ⟨_, .alternative 1 rfl h⟩
  | @chain below first others ihFirst ihOthers =>
      obtain ⟨xs, hfirst⟩ := ihFirst
      obtain ⟨ys, hothers⟩ := ihOthers
      match below, first, others, hfirst, hothers with
      | 0, _, _, hfirst, hothers | 1, _, _, hfirst, hothers | 2, _, _, hfirst, hothers
      | 3, _, _, hfirst, hothers =>
          rw [Tree.tokens, List.map_append]
          exact ⟨_, .alternative 0 rfl (.seq hfirst hothers)⟩
      | _ + 4, _, .stop, hfirst, _ =>
          rw [Tree.tokens, Tree.tokens, List.append_nil]
          exact ⟨_, hfirst⟩
      | _ + 4, _, .next operator _ _, _, _ => cases operator.kind_mem
  | stop => exact ⟨_, .stop⟩
  | next operator right others ihRight ihOthers =>
      obtain ⟨xs, hright⟩ := ihRight
      obtain ⟨ys, hothers⟩ := ihOthers
      have hoperator := derives_operator ((hf operator.token).symm ▸ operator.kind_mem)
      rw [Tree.tokens, List.map_cons, List.map_append]
      exact ⟨_, .more (.seq hoperator hright) hothers⟩
  | unary operator right ih =>
      obtain ⟨xs, hright⟩ := ih
      exact ⟨_, .alternative 0 rfl (.seq
        (.either_named ((hf operator.token).symm ▸ operator.kind_mem)) hright)⟩
  | primary inner ih =>
      obtain ⟨xs, h⟩ := ih
      exact ⟨_, .alternative 1 rfl h⟩
  | literal t =>
      have hmem : (f t.token).kind ∈ literalKinds := (hf t.token).symm ▸ t.kind_mem
      simp only [literalKinds, List.mem_cons, List.not_mem_nil, or_false] at hmem
      rcases hmem with h | h | h | h | h
      · exact ⟨_, .alternative 0 rfl (derives_named h)⟩
      · exact ⟨_, .alternative 1 rfl (derives_named h)⟩
      · exact ⟨_, .alternative 2 rfl (derives_quoted h)⟩
      · exact ⟨_, .alternative 3 rfl (derives_quoted h)⟩
      · exact ⟨_, .alternative 4 rfl (derives_quoted h)⟩
  | grouping opening inner closing ih =>
      obtain ⟨xs, hinner⟩ := ih
      rw [Tree.tokens, List.map_cons, List.map_append]
      exact ⟨_, .alternative 5 rfl
        (.cons_quoted (hkind opening) (.seq hinner (derives_quoted (hkind closing))))⟩
  | reference t =>
      exact ⟨_, .alternative 6 rfl
        (derives_named (hkind t))⟩

/-- The tokens of a program are derived as a program. -/
theorem exists_derives_start {f : Token → Lexeme} (hf : ∀ t, (f t).kind = t.kind)
    (t : Tree .program) : ∃ x, Derives (.rule .start) (t.tokens.map f) [x] := by
  obtain ⟨xs, h⟩ := exists_derives_of_tree hf t
  exact ⟨_, .alternative 0 rfl h⟩

/-! ## Operators and equals signs -/

/-- The operators that an equals sign may follow. -/
def extensible : List TokenKind := [.bang, .equal, .greater, .less]

/-- The operators that start with an equals sign. -/
def equalSigns : List TokenKind := [.equal, .equalEqual]

/-- No operator that an equals sign may follow is the last token, or is followed by one. -/
def IsFitting : List Token → Prop
  | [] => True
  | [t] => t.kind ∉ extensible
  | t :: u :: rest => (t.kind ∈ extensible → u.kind ∉ equalSigns) ∧ IsFitting (u :: rest)

namespace IsFitting

theorem append {a b : List Token} (ha : IsFitting a) (hb : IsFitting b) : IsFitting (a ++ b) := by
  match a, ha with
  | [], _ => exact hb
  | [t], ht =>
      match b, hb with
      | [], _ => exact ht
      | u :: rest, hb => exact ⟨fun h => (ht h).elim, hb⟩
  | t :: u :: rest, ⟨htu, hrest⟩ => exact ⟨htu, hrest.append hb⟩

theorem cons {t : Token} {rest : List Token} (ht : t.kind ∉ extensible) (h : IsFitting rest) :
    IsFitting (t :: rest) := append (a := [t]) ht h

theorem cons_begins {t : Token} {rest : List Token} {kinds : List TokenKind}
    (hbegins : Begins kinds rest) (hkinds : ∀ k ∈ kinds, k ∉ equalSigns) (h : IsFitting rest) :
    IsFitting (t :: rest) := by
  obtain ⟨u, others, rfl, hu⟩ := hbegins
  exact ⟨fun _ => hkinds _ hu, h⟩

theorem terminal {kinds : List TokenKind} (t : Terminal kinds) (h : ∀ k ∈ kinds, k ∉ extensible) :
    IsFitting [t.token] := h _ t.kind_mem

end IsFitting

theorem isFitting_tokens {s : Symbol} (t : Tree s) : IsFitting t.tokens := by
  have hstarts : ∀ k ∈ expressionStarts, k ∉ equalSigns := by decide
  induction t with
  | nothing => trivial
  | more _ _ ihFirst ihOthers => exact ihFirst.append ihOthers
  | declare word target close =>
      exact .cons (by rw [word.kind_eq]; decide) (.cons (by rw [target.kind_eq]; decide)
        (.terminal close (by decide)))
  | define word target sign value close ih =>
      have hvalue := (value.begins trivial).append [close.token]
      exact .cons (by rw [word.kind_eq]; decide) (.cons (by rw [target.kind_eq]; decide)
        (.cons_begins hvalue hstarts (ih.append (.terminal close (by decide)))))
  | statement _ ih => exact ih
  | print word value close ih =>
      exact .cons (by rw [word.kind_eq]; decide) (ih.append (.terminal close (by decide)))
  | block opening body closing close ih =>
      exact .cons (by rw [opening.kind_eq]; decide) (ih.append
        (.cons (by rw [closing.kind_eq]; decide) (.terminal close (by decide))))
  | evaluate value close ih => exact ih.append (.terminal close (by decide))
  | expression _ ih => exact ih
  | assign target sign value ih =>
      exact .cons (by rw [target.kind_eq]; decide)
        (.cons_begins (value.begins trivial) hstarts ih)
  | equality _ ih => exact ih
  | chain _ _ ihFirst ihOthers => exact ihFirst.append ihOthers
  | stop => trivial
  | next operator right others ihRight ihOthers =>
      exact .cons_begins ((right.begins trivial).append others.tokens) hstarts
        (ihRight.append ihOthers)
  | unary operator right ih => exact .cons_begins (right.begins trivial) hstarts ih
  | primary _ ih => exact ih
  | literal t => exact .terminal t (by decide)
  | grouping opening inner closing ih =>
      exact .cons (by rw [opening.kind_eq]; decide) (ih.append (.terminal closing (by decide)))
  | reference t => exact .terminal t (by decide)

/-! ## Names -/

/-- The names in what a phrase of a symbol stands for. -/
def symbolNames : (s : Symbol) → s.Meaning → List String
  | .program, p => Program.names p
  | .declaration, d | .statement, d => Stmt.names d
  | .operators _, others => List.flatMap (fun other => Expr.names other.2) others
  | .expression, e | .assignment, e | .operand _, e | .primary, e => Expr.names e

theorem names_foldl (first : Expr) (others : List (Token × Expr)) :
    (others.foldl applyOperator first).names =
      first.names ++ others.flatMap fun other => other.2.names := by
  induction others generalizing first with
  | nil => simp
  | cons other rest ih =>
      rw [List.foldl_cons, ih, List.flatMap_cons, ← List.append_assoc]
      rfl

theorem names_literalExpr (t : Token) : (literalExpr t).names = [] := by
  rw [literalExpr]
  split
  · rfl
  · rfl
  · rfl
  · cases t.literal <;> rfl

/-- The identifiers among some tokens. -/
def identifiers (tokens : List Token) : List String :=
  (tokens.filter (·.kind = .identifier)).map Token.lexeme

theorem identifiers_append (a b : List Token) :
    identifiers (a ++ b) = identifiers a ++ identifiers b := by
  rw [identifiers, List.filter_append, List.map_append]
  rfl

theorem identifiers_cons_name (t : Terminal [.identifier]) (rest : List Token) :
    identifiers (t.token :: rest) = t.token.lexeme :: identifiers rest := by
  rw [identifiers, List.filter_cons_of_pos (by simp [t.kind_eq])]
  rfl

theorem identifiers_cons {kinds : List TokenKind} (t : Terminal kinds) (h : .identifier ∉ kinds)
    (rest : List Token) : identifiers (t.token :: rest) = identifiers rest := by
  have hkind : t.token.kind ≠ .identifier := fun heq => h (heq ▸ t.kind_mem)
  rw [identifiers, List.filter_cons_of_neg (by simp [hkind])]
  rfl

/-- The names in what a phrase stands for are its identifiers, in their order. -/
theorem names_meaning {s : Symbol} (t : Tree s) :
    symbolNames s t.meaning = identifiers t.tokens := by
  have hoperator {level : Nat} : .identifier ∉ operatorsAt level := by
    match level with
    | 0 | 1 | 2 | 3 | 4 => decide
    | _ + 5 => exact List.not_mem_nil
  induction t with
  | nothing => rfl
  | more first others ihFirst ihOthers =>
      rw [Tree.tokens, identifiers_append, ← ihFirst, ← ihOthers]
      rfl
  | declare word target close =>
      rw [Tree.tokens, identifiers_cons word (by decide), identifiers_cons_name,
        identifiers_cons close (by decide)]
      rfl
  | define word target sign value close ih =>
      rw [Tree.tokens, identifiers_cons word (by decide), identifiers_cons_name,
        identifiers_cons sign (by decide), identifiers_append, ← ih,
        identifiers_cons close (by decide)]
      exact congrArg _ (List.append_nil _).symm
  | statement _ ih => exact ih
  | print word value close ih =>
      rw [Tree.tokens, identifiers_cons word (by decide), identifiers_append, ← ih,
        identifiers_cons close (by decide)]
      exact (List.append_nil _).symm
  | block opening body closing close ih =>
      rw [Tree.tokens, identifiers_cons opening (by decide), identifiers_append, ← ih,
        identifiers_cons closing (by decide), identifiers_cons close (by decide)]
      exact (List.append_nil _).symm
  | evaluate value close ih =>
      rw [Tree.tokens, identifiers_append, ← ih, identifiers_cons close (by decide)]
      exact (List.append_nil _).symm
  | expression _ ih => exact ih
  | assign target sign value ih =>
      rw [Tree.tokens, identifiers_cons_name, identifiers_cons sign (by decide), ← ih]
      rfl
  | equality _ ih => exact ih
  | chain first others ihFirst ihOthers =>
      rw [Tree.tokens, identifiers_append, ← ihFirst, ← ihOthers]
      exact names_foldl _ _
  | stop => rfl
  | next operator right others ihRight ihOthers =>
      rw [Tree.tokens, identifiers_cons operator hoperator, identifiers_append, ← ihRight,
        ← ihOthers]
      rfl
  | unary operator right ih =>
      rw [Tree.tokens, identifiers_cons operator (by decide), ← ih]
      rfl
  | primary _ ih => exact ih
  | literal t =>
      rw [Tree.tokens, identifiers_cons t (by decide)]
      exact names_literalExpr t.token
  | grouping opening inner closing ih =>
      rw [Tree.tokens, identifiers_cons opening (by decide), identifiers_append, ← ih,
        identifiers_cons closing (by decide)]
      exact (List.append_nil _).symm
  | reference t =>
      rw [Tree.tokens, identifiers_cons_name]
      rfl

end Reference

end MiniLox
