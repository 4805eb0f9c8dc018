import MiniLox.Proofs.Grammar.Tree
import MiniLox.Proofs.Reference.Language

/-!
# Derivations are trees

The terminals of a derivation, as the scanner would give them, are the tokens of a phrase, and
the parse tree becomes what this phrase means.

`Phrase.Holds` says what a right-hand side is like if it is known what the rules are like, and
`Derives.holds` is the induction on derivations: what the alternatives of every rule keep holds
of the rule.  The alternatives are then taken one by one.  In a level of operators the operands
and operators that follow the first one are folded to the left, as they are in the phrase.
-/

namespace MiniLox

open Grammar

namespace Reference

variable {r : Rule} {ts : List Lexeme} {xs : List ParseTree} {x : ParseTree}

/-! ## Derivations by rules -/

/-- A phrase holds of terminals and parse trees, where it is known what a rule holds of. -/
def Phrase.Holds (P : Rule → List Lexeme → ParseTree → Prop) :
    Phrase → List Lexeme → List ParseTree → Prop
  | .quoted kind, ts, xs => ∃ t, t.kind = kind ∧ ts = [t] ∧ xs = []
  | .named kind, ts, xs => ∃ t, t.kind = kind ∧ ts = [t] ∧ xs = [.leaf t]
  | .rule r, ts, xs => ∃ x, P r ts x ∧ xs = [x]
  | .seq p q, ts, xs =>
    ∃ us vs ys zs, p.Holds P us ys ∧ q.Holds P vs zs ∧ ts = us ++ vs ∧ xs = ys ++ zs
  | .either p q, ts, xs => p.Holds P ts xs ∨ q.Holds P ts xs
  | .optional p, ts, xs => ts = [] ∧ xs = [] ∨ p.Holds P ts xs
  | .star p, ts, xs =>
    ∃ parts : List (List Lexeme × List ParseTree), (∀ part ∈ parts, p.Holds P part.1 part.2) ∧
      ts = (parts.map Prod.fst).flatten ∧ xs = (parts.map Prod.snd).flatten

/-- What every alternative of every rule keeps holds of all derivations. -/
theorem Derives.holds {P : Rule → List Lexeme → ParseTree → Prop} {p : Phrase}
    (hP : ∀ r : Rule, ∀ a ∈ r.alternatives, ∀ ts xs, a.phrase.Holds P ts xs →
      P r ts (.build r a xs))
    (h : Derives p ts xs) : p.Holds P ts xs := by
  induction h with
  | quoted t => exact ⟨t, rfl, rfl, rfl⟩
  | named t => exact ⟨t, rfl, rfl, rfl⟩
  | rule ha _ ih => exact ⟨_, hP _ _ ha _ _ ih, rfl⟩
  | seq _ _ ihp ihq => exact ⟨_, _, _, _, ihp, ihq, rfl, rfl⟩
  | left _ ih => exact Or.inl ih
  | right _ ih => exact Or.inr ih
  | absent => exact Or.inl ⟨rfl, rfl⟩
  | present _ ih => exact Or.inr ih
  | stop => exact ⟨[], nofun, rfl, rfl⟩
  | more _ _ ih ihmore =>
      obtain ⟨parts, hparts, rfl, rfl⟩ := ihmore
      exact ⟨(_, _) :: parts, List.forall_mem_cons.mpr ⟨ih, hparts⟩, rfl, rfl⟩

/-! ## Trees of terminals -/

/-- The token of a terminal, with the value of a literal. -/
def Lexeme.scanned (t : Lexeme) : Token :=
  match t.kind with
  | .number =>
    ⟨.number, String.ofList t.text, some (.number (Lexer.numberValue t.text)), some t.line⟩
  | .text =>
    let inside := String.ofList (t.text.drop 1).dropLast
    ⟨.text, inside, some (.text inside), some t.line⟩
  | _ => t.token

theorem Lexeme.kind_token (t : Lexeme) : t.token.kind = t.kind := by
  rw [token]
  split
  · next h => exact h.symm
  · rfl

theorem Lexeme.kind_scanned (t : Lexeme) : t.scanned.kind = t.kind := by
  rw [scanned]
  split
  · next h => exact h.symm
  · next h => exact h.symm
  · exact t.kind_token

theorem Lexeme.scanned_eq_token {t : Lexeme} (h : t.kind ∉ [.number, .text]) :
    t.scanned = t.token := by
  rw [scanned]
  split
  · next hkind => exact absurd (by rw [hkind]; decide) h
  · next hkind => exact absurd (by rw [hkind]; decide) h
  · rfl

theorem not_literal_of_operator {level : Nat} {kind : TokenKind} (h : kind ∈ operatorsAt level) :
    kind ∉ [.number, .text] := by
  rintro hliteral
  simp only [List.mem_cons, List.not_mem_nil, or_false] at hliteral
  rcases hliteral with rfl | rfl <;> match level with
    | 0 | 1 | 2 | 3 | 4 => exact absurd h (by decide)
    | _ + 5 => cases h

/-- A terminal of one of some kinds, as a part of a tree. -/
def Lexeme.terminal (t : Lexeme) {kinds : List TokenKind} (h : t.kind ∈ kinds) : Terminal kinds :=
  ⟨t.scanned, t.kind_scanned ▸ h⟩

/-- The symbol of the phrases of a rule. -/
def Rule.symbol : Rule → Symbol
  | .start => .program
  | .declaration | .varDecl => .declaration
  | .statement | .printStmt | .block | .exprStmt => .statement
  | .expression => .expression
  | .assignment => .assignment
  | .equality => .operand 4
  | .comparison => .operand 3
  | .term => .operand 2
  | .factor => .operand 1
  | .unary => .operand 0
  | .primary => .primary

/-- What the phrases of a rule mean, as an item. -/
def Rule.item : (r : Rule) → r.symbol.Meaning → Item
  | .start => .program
  | .declaration | .varDecl | .statement | .printStmt | .block | .exprStmt => .stmt
  | .expression | .assignment | .equality | .comparison | .term | .factor | .unary | .primary =>
    .expr

/-- A parse tree becomes what its terminals mean as a phrase of a rule. -/
def IsRead (r : Rule) (ts : List Lexeme) (x : ParseTree) : Prop :=
  ∃ t : Tree r.symbol, t.tokens = ts.map Lexeme.scanned ∧ transform x = some (r.item t.meaning)

/-- A phrase holds of a single terminal of one of some kinds, which is a leaf. -/
def Phrase.IsOneOf (p : Phrase) (kinds : List TokenKind) : Prop :=
  ∀ ts xs, p.Holds IsRead ts xs → ∃ t : Lexeme, t.kind ∈ kinds ∧ ts = [t] ∧ xs = [.leaf t]

theorem Phrase.isOneOf_named {kind : TokenKind} {kinds : List TokenKind} (h : kind ∈ kinds) :
    (Phrase.named kind).IsOneOf kinds := by
  rintro _ _ ⟨t, rfl, hts, hxs⟩
  exact ⟨t, h, hts, hxs⟩

theorem Phrase.IsOneOf.either {p q : Phrase} {kinds : List TokenKind} (hp : p.IsOneOf kinds)
    (hq : q.IsOneOf kinds) : (Phrase.either p q).IsOneOf kinds := by
  rintro ts xs (h | h)
  · exact hp ts xs h
  · exact hq ts xs h

/-- The operators of the level above one, as a phrase. -/
def operatorPhrase : Nat → Phrase
  | 0 => .either (.named .slash) (.named .star)
  | 1 => .either (.named .minus) (.named .plus)
  | 2 => .either (.either (.named .greater) (.named .greaterEqual))
      (.either (.named .less) (.named .lessEqual))
  | _ => .either (.named .bangEqual) (.named .equalEqual)

theorem isOneOf_operatorPhrase {below : Nat} (h : below < 4) :
    (operatorPhrase below).IsOneOf (operatorsAt (below + 1)) := by
  have hnamed {kind : TokenKind} {level : Nat} (hkind : kind ∈ operatorsAt level) :
      (Phrase.named kind).IsOneOf (operatorsAt level) := Phrase.isOneOf_named hkind
  match below with
  | 0 | 1 | 3 => exact (hnamed (by decide)).either (hnamed (by decide))
  | 2 =>
      exact ((hnamed (by decide)).either (hnamed (by decide))).either
        ((hnamed (by decide)).either (hnamed (by decide)))

/-! ## Repetitions -/

theorem transformAll_append {ys : List ParseTree} {items others : List Item}
    (hxs : transformAll xs = some items) (hys : transformAll ys = some others) :
    transformAll (xs ++ ys) = some (items ++ others) := by
  induction xs generalizing items with
  | nil =>
      cases hxs
      exact hys
  | cons x xs ih =>
      rw [transformAll] at hxs
      obtain ⟨item, hitem, hxs⟩ := Option.bind_eq_some_iff.mp hxs
      obtain ⟨more, hmore, heq⟩ := Option.bind_eq_some_iff.mp hxs
      cases heq
      rw [List.cons_append, transformAll, hitem, ih hmore]
      rfl

theorem transform_leaf (t : Lexeme) : transform (.leaf t) = some (.lexeme t) := by rw [transform]

theorem transform_node {label : Label} {items : List Item} (h : transformAll xs = some items) :
    transform (.node label xs) = label.apply items := by
  rw [transform, h]
  rfl

theorem transformAll_singleton {item : Item} (h : transform x = some item) :
    transformAll [x] = some [item] := by
  rw [transformAll, h]
  rfl

theorem mapM_stmt? (p : Program) : (p.map Item.stmt).mapM Item.stmt? = some p := by
  induction p with
  | nil => rfl
  | cons s p ih =>
      rw [List.map_cons, List.mapM_cons, ih]
      rfl

theorem filter_isNode_stmt (p : Program) :
    (p.map Item.stmt).filter Item.isNode = p.map Item.stmt := by
  refine List.filter_eq_self.mpr ?_
  intro item hitem
  obtain ⟨s, -, rfl⟩ := List.mem_map.mp hitem
  rfl

/-- Declarations one after the other are a program. -/
theorem exists_program (h : (Phrase.star (.rule .declaration)).Holds IsRead ts xs) :
    ∃ (t : Tree .program) (p : Program), t.tokens = ts.map Lexeme.scanned ∧ t.meaning = p ∧
      transformAll xs = some (p.map Item.stmt) := by
  obtain ⟨parts, hparts, rfl, rfl⟩ := h
  induction parts with
  | nil => exact ⟨.nothing, [], rfl, rfl, rfl⟩
  | cons part parts ih =>
      obtain ⟨⟨x, ⟨first, hfirst, hx⟩, hpart⟩, hparts⟩ := List.forall_mem_cons.mp hparts
      obtain ⟨others, p, hothers, rfl, htransform⟩ := ih hparts
      refine ⟨.more first others, _, ?_, rfl, ?_⟩
      · rw [List.map_cons, List.flatten_cons, List.map_append, ← hfirst, ← hothers]
        rfl
      · rw [List.map_cons, List.flatten_cons, hpart]
        exact transformAll_append (transformAll_singleton hx) htransform

/-- Operators and operands one after the other are folded to the left. -/
theorem exists_operators {below : Nat} {operand : Rule} {operators : Phrase}
    (hoperand : ∀ ts x, IsRead operand ts x → ∃ t : Tree (.operand below),
      t.tokens = ts.map Lexeme.scanned ∧ transform x = some (.expr t.meaning))
    (hoperators : operators.IsOneOf (operatorsAt (below + 1)))
    (h : (Phrase.star (.seq operators (.rule operand))).Holds IsRead ts xs) :
    ∃ t : Tree (.operators below), t.tokens = ts.map Lexeme.scanned ∧
      ∃ items, transformAll xs = some items ∧
        ∀ e, fold e items = some (List.foldl applyOperator e t.meaning) := by
  obtain ⟨parts, hparts, rfl, rfl⟩ := h
  induction parts with
  | nil => exact ⟨.stop, rfl, [], rfl, fun _ => rfl⟩
  | cons part parts ih =>
      obtain ⟨⟨us, vs, ys, zs, hoperator, ⟨x, hx, rfl⟩, hts, hxs⟩, hparts⟩ :=
        List.forall_mem_cons.mp hparts
      obtain ⟨t, hkind, rfl, rfl⟩ := hoperators _ _ hoperator
      obtain ⟨right, hright, htransform⟩ := hoperand _ _ hx
      obtain ⟨others, hothers, items, hitems, hfold⟩ := ih hparts
      have htoken : t.scanned = t.token :=
        Lexeme.scanned_eq_token (not_literal_of_operator hkind)
      refine ⟨.next (t.terminal hkind) right others, ?_, .lexeme t :: .expr right.meaning :: items,
        ?_, ?_⟩
      · rw [List.map_cons, List.flatten_cons, List.map_append, hts, List.map_append, ← hright,
          ← hothers]
        simp [Lexeme.terminal]
      · rw [List.map_cons, List.flatten_cons, hxs]
        exact transformAll_append (transformAll_append (transformAll_singleton (transform_leaf t))
          (transformAll_singleton htransform)) hitems
      · intro e
        calc fold e (.lexeme t :: .expr right.meaning :: items)
            = fold (.binary e t.token right.meaning) items := rfl
          _ = some (List.foldl applyOperator (.binary e t.token right.meaning) others.meaning) :=
              hfold _
          _ = some (List.foldl applyOperator e
                (Tree.next (t.terminal hkind) right others).meaning) := by
              rw [← htoken]
              rfl

/-! ## The rules -/

theorem build_single (h : r.isInlined) (p : Phrase) (x : ParseTree) :
    ParseTree.build r ⟨p, none⟩ [x] = x := by
  simp [ParseTree.build, h]

theorem build_more (p : Phrase) (x y : ParseTree) (zs : List ParseTree) :
    ParseTree.build r ⟨p, none⟩ (x :: y :: zs) = .node (.rule r) (x :: y :: zs) := by
  simp [ParseTree.build]

/-- The levels of operators: operands with the operators of a level between them. -/
theorem exists_chain {operand : Rule} (below : Nat) (hbelow : below < 4)
    (hr : r ∈ [.equality, .comparison, .term, .factor])
    (hoperand : ∀ ts x, IsRead operand ts x → ∃ t : Tree (.operand below),
      t.tokens = ts.map Lexeme.scanned ∧ transform x = some (.expr t.meaning))
    (h : (Phrase.chain operand (operatorPhrase below)).Holds IsRead ts xs) :
    ∃ t : Tree (.operand (below + 1)), t.tokens = ts.map Lexeme.scanned ∧
      transform (.build r ⟨.chain operand (operatorPhrase below), none⟩ xs) =
        some (.expr t.meaning) := by
  obtain ⟨us, vs, ys, zs, ⟨x, hx, rfl⟩, hstar, rfl, rfl⟩ := h
  obtain ⟨first, hfirst, htransform⟩ := hoperand us x hx
  obtain ⟨others, hothers, items, hitems, hfold⟩ :=
    exists_operators hoperand (isOneOf_operatorPhrase hbelow) hstar
  obtain ⟨e, he⟩ : ∃ e : Expr, first.meaning = e := ⟨_, rfl⟩
  have hmeaning : (Tree.chain first others).meaning =
      List.foldl applyOperator e others.meaning := he ▸ rfl
  have hx : transform x = some (.expr e) := he ▸ htransform
  have hrule : r.isInlined = true ∧
      (Label.rule r).apply (.expr e :: items) = (fold e items).map .expr := by
    simp only [List.mem_cons, List.not_mem_nil, or_false] at hr
    rcases hr with rfl | rfl | rfl | rfl <;> exact ⟨rfl, rfl⟩
  refine ⟨.chain first others, ?_, ?_⟩
  · rw [Tree.tokens, hfirst, hothers, List.map_append]
  · rw [hmeaning]
    cases zs with
    | nil =>
        -- An operand without an operator stands for the whole.
        cases hitems
        have hsame : some e = some (List.foldl applyOperator e others.meaning) := hfold e
        rw [← Option.some.inj hsame, List.append_nil, build_single hrule.1]
        exact hx
    | cons z zs =>
        have hall := transformAll_append (transformAll_singleton hx) hitems
        rw [List.singleton_append] at hall ⊢
        rw [build_more, transform_node hall, List.singleton_append, hrule.2, hfold]
        rfl

/-- An expression is read as an expression. -/
theorem IsRead.exists_expr (h : IsRead .expression ts x) :
    ∃ (t : Tree .expression) (e : Expr), t.tokens = ts.map Lexeme.scanned ∧ t.meaning = e ∧
      transform x = some (.expr e) := by
  obtain ⟨t, htokens, hx⟩ := h
  exact ⟨t, _, htokens, rfl, hx⟩

/-- The terminal of a name is a name. -/
theorem name?_of_kind {t : Lexeme} (h : t.kind = .identifier) :
    (Item.lexeme t).name? = some t.scanned := by
  rw [Lexeme.scanned_eq_token (by rw [h]; decide)]
  exact if_pos h

theorem isRead_start (h : (Phrase.star (.rule .declaration)).Holds IsRead ts xs) :
    IsRead .start ts (.node (.rule .start) xs) := by
  obtain ⟨t, p, htokens, rfl, htransform⟩ := exists_program h
  refine ⟨t, htokens, ?_⟩
  rw [transform_node htransform]
  exact congrArg (Option.map Item.program) (mapM_stmt? t.meaning)

theorem isRead_varDecl
    (h : (Phrase.seq (.quoted .varWord) (.seq (.named .identifier)
      (.seq (.optional (.seq (.quoted .equal) (.rule .expression)))
        (.quoted .semicolon)))).Holds IsRead ts xs) :
    IsRead .varDecl ts (.node (.rule .varDecl) xs) := by
  obtain ⟨_, _, _, _, ⟨word, hword, rfl, rfl⟩, ⟨_, _, _, _, ⟨name, hname, rfl, rfl⟩,
    ⟨_, _, _, _, hvalue, ⟨close, hclose, rfl, rfl⟩, rfl, rfl⟩, rfl, rfl⟩, rfl, rfl⟩ := h
  have hall := transformAll_singleton (transform_leaf name)
  rcases hvalue with
    ⟨rfl, rfl⟩ | ⟨_, _, _, _, ⟨sign, hsign, rfl, rfl⟩, ⟨x, hx, rfl⟩, rfl, rfl⟩
  · refine ⟨.declare (word.terminal (by simp [hword])) (name.terminal (by simp [hname]))
      (close.terminal (by simp [hclose])), rfl, ?_⟩
    change transform (.node (.rule .varDecl) [.leaf name]) = _
    rw [transform_node hall, Label.apply, List.findSome?_cons, name?_of_kind hname]
    rfl
  · obtain ⟨value, e, hvalue, rfl, hx⟩ := hx.exists_expr
    refine ⟨.define (word.terminal (by simp [hword])) (name.terminal (by simp [hname]))
      (sign.terminal (by simp [hsign])) value (close.terminal (by simp [hclose])), ?_, ?_⟩
    · simp [Lexeme.terminal, hvalue]
    · change transform (.node (.rule .varDecl) ([.leaf name] ++ [x])) = _
      rw [transform_node (transformAll_append hall (transformAll_singleton hx)), Label.apply,
        List.singleton_append, List.findSome?_cons, name?_of_kind hname]
      rfl

theorem isRead_printStmt
    (h : (Phrase.seq (.quoted .printWord) (.seq (.rule .expression)
      (.quoted .semicolon))).Holds IsRead ts xs) :
    IsRead .printStmt ts (.node (.rule .printStmt) xs) := by
  obtain ⟨_, _, _, _, ⟨word, hword, rfl, rfl⟩, ⟨_, _, _, _, ⟨x, hx, rfl⟩,
    ⟨close, hclose, rfl, rfl⟩, rfl, rfl⟩, rfl, rfl⟩ := h
  obtain ⟨value, e, hvalue, rfl, hx⟩ := hx.exists_expr
  refine ⟨.print (word.terminal (by simp [hword])) value (close.terminal (by simp [hclose])),
    ?_, transform_node (transformAll_singleton hx)⟩
  simp [Lexeme.terminal, hvalue]

theorem isRead_block
    (h : (Phrase.seq (.quoted .leftBrace) (.seq (.star (.rule .declaration))
      (.seq (.quoted .rightBrace) (.quoted .semicolon)))).Holds IsRead ts xs) :
    IsRead .block ts (.node (.rule .block) xs) := by
  obtain ⟨_, _, _, _, ⟨opening, hopening, rfl, rfl⟩, ⟨_, _, _, zs, hbody,
    ⟨_, _, _, _, ⟨closing, hclosing, rfl, rfl⟩, ⟨close, hclose, rfl, rfl⟩, rfl, rfl⟩,
    rfl, rfl⟩, rfl, rfl⟩ := h
  obtain ⟨body, p, htokens, hp, htransform⟩ := exists_program hbody
  refine ⟨.block (opening.terminal (by simp [hopening])) body
    (closing.terminal (by simp [hclosing])) (close.terminal (by simp [hclose])), ?_, ?_⟩
  · simp [Lexeme.terminal, htokens]
  · change transform (.node (.rule .block) (_ ++ [])) = _
    rw [List.append_nil, transform_node htransform, Label.apply, filter_isNode_stmt, mapM_stmt?,
      ← hp]
    rfl

theorem isRead_exprStmt
    (h : (Phrase.seq (.rule .expression) (.quoted .semicolon)).Holds IsRead ts xs) :
    IsRead .exprStmt ts (.node (.rule .exprStmt) xs) := by
  obtain ⟨_, _, _, _, ⟨x, hx, rfl⟩, ⟨close, hclose, rfl, rfl⟩, rfl, rfl⟩ := h
  obtain ⟨value, e, hvalue, rfl, hx⟩ := hx.exists_expr
  refine ⟨.evaluate value (close.terminal (by simp [hclose])),
    ?_, transform_node (transformAll_singleton hx)⟩
  simp [Lexeme.terminal, hvalue]

theorem isRead_assign
    (h : (Phrase.seq (.named .identifier) (.seq (.quoted .equal)
      (.rule .assignment))).Holds IsRead ts xs) :
    IsRead .assignment ts (.node .assign xs) := by
  obtain ⟨_, _, _, _, ⟨name, hname, rfl, rfl⟩, ⟨_, _, _, _, ⟨sign, hsign, rfl, rfl⟩,
    ⟨x, ⟨value, hvalue, hx⟩, rfl⟩, rfl, rfl⟩, rfl, rfl⟩ := h
  refine ⟨.assign (name.terminal (by simp [hname])) (sign.terminal (by simp [hsign])) value,
    ?_, ?_⟩
  · simp [Lexeme.terminal]
    exact hvalue
  · have hall := transformAll_append (transformAll_singleton (transform_leaf name))
      (transformAll_singleton hx)
    change transform (.node .assign ([.leaf name] ++ [x])) = _
    rw [transform_node hall, Label.apply, List.singleton_append, List.findSome?_cons,
      name?_of_kind hname]
    rfl

theorem isRead_unary
    (h : (Phrase.seq (.either (.named .bang) (.named .minus)) (.rule .unary)).Holds IsRead ts xs) :
    IsRead .unary ts (.node .signed xs) := by
  obtain ⟨_, _, _, _, hoperator, ⟨x, ⟨right, hright, hx⟩, rfl⟩, rfl, rfl⟩ := h
  have hone : (Phrase.either (.named .bang) (.named .minus)).IsOneOf unaryOperators :=
    (Phrase.isOneOf_named (by decide)).either (Phrase.isOneOf_named (by decide))
  obtain ⟨t, hkind, rfl, rfl⟩ := hone _ _ hoperator
  have htoken : t.scanned = t.token := by
    apply Lexeme.scanned_eq_token
    intro hliteral
    have hall : ∀ kind ∈ unaryOperators, kind ∉ [.number, .text] := by decide
    exact hall _ hkind hliteral
  refine ⟨.unary (t.terminal hkind) right, ?_, ?_⟩
  · simp [Lexeme.terminal]
    exact hright
  · have hall := transformAll_append (transformAll_singleton (transform_leaf t))
      (transformAll_singleton hx)
    change transform (.node .signed ([.leaf t] ++ [x])) = _
    rw [transform_node hall]
    change some (Item.expr (.unary t.token right.meaning)) = _
    rw [← htoken]
    rfl

theorem isRead_literal {t : Lexeme} {e : Expr} (hkind : t.kind ∈ literalKinds)
    (he : literalExpr t.scanned = e) (hx : transform x = some (.expr e)) :
    IsRead .primary [t] x := by
  refine ⟨.literal (t.terminal hkind), rfl, ?_⟩
  rw [hx, ← he]
  rfl

/-- A terminal with a value of its own. -/
theorem isRead_leaf {t : Lexeme} {label : Label} (hkind : t.kind ∈ literalKinds)
    (happly : label.apply [.lexeme t] = some (.expr (literalExpr t.scanned))) :
    IsRead .primary [t] (.node label [.leaf t]) := by
  apply isRead_literal hkind rfl
  rw [transform_node (transformAll_singleton (transform_leaf t)), happly]

/-- A word with a value of its own. -/
theorem isRead_word {t : Lexeme} {label : Label} (hkind : t.kind ∈ literalKinds)
    (happly : label.apply [] = some (.expr (literalExpr t.scanned))) :
    IsRead .primary [t] (.node label []) := by
  have hnil : transformAll [] = some [] := by rw [transformAll]
  apply isRead_literal hkind rfl
  rw [transform_node hnil, happly]

theorem isRead_grouping
    (h : (Phrase.seq (.quoted .leftParen) (.seq (.rule .expression)
      (.quoted .rightParen))).Holds IsRead ts xs) :
    IsRead .primary ts (.node .grouping xs) := by
  obtain ⟨_, _, _, _, ⟨opening, hopening, rfl, rfl⟩, ⟨_, _, _, _, ⟨x, hx, rfl⟩,
    ⟨closing, hclosing, rfl, rfl⟩, rfl, rfl⟩, rfl, rfl⟩ := h
  obtain ⟨inner, e, hinner, rfl, hx⟩ := hx.exists_expr
  refine ⟨.grouping (opening.terminal (by simp [hopening])) inner
    (closing.terminal (by simp [hclosing])), ?_, transform_node (transformAll_singleton hx)⟩
  simp [Lexeme.terminal, hinner]

theorem isRead_primary {a : Alternative} (ha : a ∈ Rule.primary.alternatives)
    (h : a.phrase.Holds IsRead ts xs) : IsRead .primary ts (.build .primary a xs) := by
  simp only [Rule.alternatives, List.mem_cons, List.not_mem_nil, or_false] at ha
  rcases ha with rfl | rfl | rfl | rfl | rfl | rfl | rfl
  · obtain ⟨⟨kind, text, line⟩, rfl, rfl, rfl⟩ := h
    exact isRead_leaf (by simp [literalKinds]) rfl
  · obtain ⟨⟨kind, text, line⟩, rfl, rfl, rfl⟩ := h
    exact isRead_leaf (by simp [literalKinds]) rfl
  · obtain ⟨⟨kind, text, line⟩, rfl, rfl, rfl⟩ := h
    exact isRead_word (by simp [literalKinds]) rfl
  · obtain ⟨⟨kind, text, line⟩, rfl, rfl, rfl⟩ := h
    exact isRead_word (by simp [literalKinds]) rfl
  · obtain ⟨⟨kind, text, line⟩, rfl, rfl, rfl⟩ := h
    exact isRead_word (by simp [literalKinds]) rfl
  · exact isRead_grouping h
  · obtain ⟨t, hkind, rfl, rfl⟩ := h
    refine ⟨.reference (t.terminal (by simp [hkind])), rfl, ?_⟩
    change transform (.node .variable [.leaf t]) = _
    rw [transform_node (transformAll_singleton (transform_leaf t)), Label.apply,
      ← Lexeme.scanned_eq_token (by rw [hkind]; decide)]
    rfl

/-- Every alternative of every rule is read as a phrase of the rule. -/
theorem isRead_build (r : Rule) : ∀ a ∈ r.alternatives, ∀ ts xs, a.phrase.Holds IsRead ts xs →
    IsRead r ts (.build r a xs) := by
  intro a ha ts xs h
  cases r with
  | start =>
      obtain rfl := List.mem_singleton.mp ha
      exact isRead_start h
  | declaration =>
      simp only [Rule.alternatives, List.mem_cons, List.not_mem_nil, or_false] at ha
      rcases ha with rfl | rfl
      · obtain ⟨x, ⟨t, htokens, hx⟩, rfl⟩ := h
        exact ⟨t, htokens, hx⟩
      · obtain ⟨x, ⟨t, htokens, hx⟩, rfl⟩ := h
        exact ⟨.statement t, htokens, hx⟩
  | varDecl =>
      obtain rfl := List.mem_singleton.mp ha
      exact isRead_varDecl h
  | statement =>
      simp only [Rule.alternatives, List.mem_cons, List.not_mem_nil, or_false] at ha
      rcases ha with rfl | rfl | rfl <;> obtain ⟨x, ⟨t, htokens, hx⟩, rfl⟩ := h <;>
        exact ⟨t, htokens, hx⟩
  | printStmt =>
      obtain rfl := List.mem_singleton.mp ha
      exact isRead_printStmt h
  | block =>
      obtain rfl := List.mem_singleton.mp ha
      exact isRead_block h
  | exprStmt =>
      obtain rfl := List.mem_singleton.mp ha
      exact isRead_exprStmt h
  | expression =>
      obtain rfl := List.mem_singleton.mp ha
      obtain ⟨x, ⟨t, htokens, hx⟩, rfl⟩ := h
      exact ⟨.expression t, htokens, hx⟩
  | assignment =>
      simp only [Rule.alternatives, List.mem_cons, List.not_mem_nil, or_false] at ha
      rcases ha with rfl | rfl
      · exact isRead_assign h
      · obtain ⟨x, ⟨t, htokens, hx⟩, rfl⟩ := h
        exact ⟨.equality t, htokens, hx⟩
  | equality =>
      obtain rfl := List.mem_singleton.mp ha
      exact exists_chain 3 (by decide) (by decide) (fun _ _ h => h) h
  | comparison =>
      obtain rfl := List.mem_singleton.mp ha
      exact exists_chain 2 (by decide) (by decide) (fun _ _ h => h) h
  | term =>
      obtain rfl := List.mem_singleton.mp ha
      exact exists_chain 1 (by decide) (by decide) (fun _ _ h => h) h
  | factor =>
      obtain rfl := List.mem_singleton.mp ha
      exact exists_chain 0 (by decide) (by decide) (fun _ _ h => h) h
  | unary =>
      simp only [Rule.alternatives, List.mem_cons, List.not_mem_nil, or_false] at ha
      rcases ha with rfl | rfl
      · exact isRead_unary h
      · obtain ⟨x, ⟨t, htokens, hx⟩, rfl⟩ := h
        exact ⟨.primary t, htokens, hx⟩
  | primary => exact isRead_primary ha h

/-- A parse tree of a program becomes what its terminals mean. -/
theorem Derives.exists_tree_of_start (h : Derives (.rule .start) ts [x]) :
    ∃ t : Tree .program, t.tokens = ts.map Lexeme.scanned ∧
      transform x = some (.program t.meaning) := by
  obtain ⟨y, hread, heq⟩ := h.holds isRead_build
  cases heq
  exact hread

end Reference

end MiniLox
