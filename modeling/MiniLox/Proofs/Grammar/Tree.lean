import MiniLox.Program.Basic

/-!
# The grammar and its derivations

    program     := declaration*
    declaration := "var" IDENTIFIER ("=" expression)? ";" | statement
    statement   := "print" expression ";" | "{" declaration* "}" ";" | expression ";"
    expression  := assignment
    assignment  := IDENTIFIER "=" assignment | equality
    equality    := comparison (("!=" | "==") comparison)*
    comparison  := term ((">" | ">=" | "<" | "<=") term)*
    term        := factor (("-" | "+") factor)*
    factor      := unary (("/" | "*") unary)*
    unary       := ("!" | "-") unary | primary
    primary     := NUMBER | STRING | "true" | "false" | "nil"
                 | "(" expression ")" | IDENTIFIER

A `Tree` is a derivation in this grammar, with a constructor for every way to
apply a rule.  The rules from `factor` to `equality` have one form: they are the
levels one to four of `operatorsAt`, and `unary` is level zero.

The tokens of a tree, in order, are the phrase that it derives; its meaning is the
abstract syntax of the phrase.  The grammar is unambiguous, even for phrases that
are followed by something, provided that the phrase could not go on with it.
-/

namespace MiniLox

namespace Grammar

/-- A token of one of some kinds. -/
structure Terminal (kinds : List TokenKind) where
  token : Token
  kind_mem : token.kind ∈ kinds

@[ext]
theorem Terminal.ext {kinds : List TokenKind} {a b : Terminal kinds} (h : a.token = b.token) :
    a = b := by
  cases a
  cases b
  cases h
  rfl

theorem Terminal.kind_eq {k : TokenKind} (t : Terminal [k]) : t.token.kind = k :=
  List.mem_singleton.mp t.kind_mem

/-- Terminals without a common kind are different tokens. -/
theorem Terminal.ne {kinds others : List TokenKind} (a : Terminal kinds) (b : Terminal others)
    (h : ∀ k ∈ kinds, k ∉ others) : a.token ≠ b.token := by
  intro heq
  apply h _ a.kind_mem
  rw [heq]
  exact b.kind_mem

/-- The symbols that the rules define.  `operators` is the starred part of the
rule of the level above `below`. -/
inductive Symbol where
  | program
  | declaration
  | statement
  | expression
  | assignment
  | operand (level : Nat)
  | operators (below : Nat)
  | primary

/-- What a phrase of a symbol stands for. -/
def Symbol.Meaning : Symbol → Type
  | .program => Program
  | .declaration | .statement => Stmt
  | .operators _ => List (Token × Expr)
  | .expression | .assignment | .operand _ | .primary => Expr

/-- The tokens that are a literal. -/
def literalKinds : List TokenKind := [.number, .text, .trueWord, .falseWord, .nilWord]

/-- A derivation of a phrase from a symbol. -/
inductive Tree : Symbol → Type where
  | nothing : Tree .program
  | more (first : Tree .declaration) (others : Tree .program) : Tree .program
  | declare (word : Terminal [.varWord]) (target : Terminal [.identifier])
      (close : Terminal [.semicolon]) : Tree .declaration
  | define (word : Terminal [.varWord]) (target : Terminal [.identifier])
      (sign : Terminal [.equal]) (value : Tree .expression) (close : Terminal [.semicolon]) :
      Tree .declaration
  | statement (inner : Tree .statement) : Tree .declaration
  | print (word : Terminal [.printWord]) (value : Tree .expression)
      (close : Terminal [.semicolon]) : Tree .statement
  | block (opening : Terminal [.leftBrace]) (body : Tree .program)
      (closing : Terminal [.rightBrace]) (close : Terminal [.semicolon]) : Tree .statement
  | evaluate (value : Tree .expression) (close : Terminal [.semicolon]) : Tree .statement
  | expression (inner : Tree .assignment) : Tree .expression
  | assign (target : Terminal [.identifier]) (sign : Terminal [.equal])
      (value : Tree .assignment) : Tree .assignment
  | equality (inner : Tree (.operand topLevel)) : Tree .assignment
  | chain {below : Nat} (first : Tree (.operand below)) (others : Tree (.operators below)) :
      Tree (.operand (below + 1))
  | stop {below : Nat} : Tree (.operators below)
  | next {below : Nat} (operator : Terminal (operatorsAt (below + 1)))
      (right : Tree (.operand below)) (others : Tree (.operators below)) :
      Tree (.operators below)
  | unary (operator : Terminal unaryOperators) (right : Tree (.operand 0)) : Tree (.operand 0)
  | primary (inner : Tree .primary) : Tree (.operand 0)
  | literal (t : Terminal literalKinds) : Tree .primary
  | grouping (opening : Terminal [.leftParen]) (inner : Tree .expression)
      (closing : Terminal [.rightParen]) : Tree .primary
  | reference (t : Terminal [.identifier]) : Tree .primary

/-- The expression that the token of a literal stands for. -/
def literalExpr (t : Token) : Expr :=
  match t.kind with
  | .trueWord => .literal (.boolean true)
  | .falseWord => .literal (.boolean false)
  | .nilWord => .literal .nil
  | _ => .ofLiteral t.literal

/-- The application of an operator to an expression on its left and a right operand. -/
def applyOperator (left : Expr) (other : Token × Expr) : Expr := .binary left other.1 other.2

namespace Tree

/-- The phrase that a tree derives. -/
@[simp] def tokens {s : Symbol} : Tree s → List Token
  | .nothing => []
  | .more first others => first.tokens ++ others.tokens
  | .declare word target close => [word.token, target.token, close.token]
  | .define word target sign value close =>
    word.token :: target.token :: sign.token :: (value.tokens ++ [close.token])
  | .statement inner => inner.tokens
  | .print word value close => word.token :: (value.tokens ++ [close.token])
  | .block opening body closing close =>
    opening.token :: (body.tokens ++ [closing.token, close.token])
  | .evaluate value close => value.tokens ++ [close.token]
  | .expression inner => inner.tokens
  | .assign target sign value => target.token :: sign.token :: value.tokens
  | .equality inner => inner.tokens
  | .chain first others => first.tokens ++ others.tokens
  | .stop => []
  | .next operator right others => operator.token :: (right.tokens ++ others.tokens)
  | .unary operator right => operator.token :: right.tokens
  | .primary inner => inner.tokens
  | .literal t => [t.token]
  | .grouping opening inner closing => opening.token :: (inner.tokens ++ [closing.token])
  | .reference t => [t.token]

/-- The abstract syntax of the phrase: operators of one level associate to the
left, assignments to the right, and every pair of parentheses is a grouping. -/
def meaning {s : Symbol} : Tree s → s.Meaning
  | .nothing => ([] : Program)
  | .more first others => (first.meaning :: others.meaning : Program)
  | .declare _ target _ => Stmt.declare target.token none
  | .define _ target _ value _ => Stmt.declare target.token (some value.meaning)
  | .statement inner => inner.meaning
  | .print _ value _ => Stmt.print value.meaning
  | .block _ body _ _ => Stmt.block body.meaning
  | .evaluate value _ => Stmt.expression value.meaning
  | .expression inner => inner.meaning
  | .assign target _ value => Expr.assign target.token value.meaning
  | .equality inner => inner.meaning
  | .chain first others => List.foldl applyOperator first.meaning others.meaning
  | .stop => ([] : List (Token × Expr))
  | .next operator right others =>
    ((operator.token, right.meaning) :: others.meaning : List (Token × Expr))
  | .unary operator right => Expr.unary operator.token right.meaning
  | .primary inner => inner.meaning
  | .literal t => literalExpr t.token
  | .grouping _ inner _ => Expr.grouping inner.meaning
  | .reference t => Expr.variable t.token

end Tree

/-! ## How phrases begin -/

/-- The kinds with which a primary begins. -/
def primaryStarts : List TokenKind := literalKinds ++ [.leftParen, .identifier]

/-- The kinds with which an expression begins. -/
def expressionStarts : List TokenKind := unaryOperators ++ primaryStarts

/-- The kinds with which a phrase of a symbol begins, if it is not empty. -/
def Symbol.starts : Symbol → List TokenKind
  | .program | .declaration => .varWord :: .printWord :: .leftBrace :: expressionStarts
  | .statement => .printWord :: .leftBrace :: expressionStarts
  | .operators below => operatorsAt (below + 1)
  | .expression | .assignment | .operand _ => expressionStarts
  | .primary => primaryStarts

/-- Whether every phrase of a symbol has a token. -/
def Symbol.IsFilled : Symbol → Prop
  | .program | .operators _ => False
  | _ => True

/-- There is a first token, and it is of one of some kinds. -/
def Begins (kinds : List TokenKind) (tokens : List Token) : Prop :=
  ∃ first rest, tokens = first :: rest ∧ first.kind ∈ kinds

theorem Begins.append {kinds : List TokenKind} {tokens : List Token}
    (h : Begins kinds tokens) (rest : List Token) : Begins kinds (tokens ++ rest) := by
  obtain ⟨first, others, rfl, hkind⟩ := h
  exact ⟨first, others ++ rest, rfl, hkind⟩

theorem Begins.mono {kinds more : List TokenKind} {tokens : List Token}
    (h : Begins kinds tokens) (hsub : ∀ k ∈ kinds, k ∈ more) : Begins more tokens := by
  obtain ⟨first, others, htokens, hkind⟩ := h
  exact ⟨first, others, htokens, hsub _ hkind⟩

theorem Terminal.begins {kinds more : List TokenKind} (t : Terminal kinds)
    (hsub : ∀ k ∈ kinds, k ∈ more) (rest : List Token) : Begins more (t.token :: rest) :=
  ⟨t.token, rest, rfl, hsub _ t.kind_mem⟩

/-- A phrase begins with a token of its symbol. -/
theorem Tree.begins {s : Symbol} (t : Tree s) (hs : s.IsFilled) : Begins s.starts t.tokens := by
  induction t with
  | nothing => exact hs.elim
  | more => exact hs.elim
  | declare word => exact word.begins (by decide) _
  | define word => exact word.begins (by decide) _
  | statement _ ih =>
      apply (ih trivial).mono
      intro k hk
      exact List.mem_cons_of_mem _ hk
  | print word => exact word.begins (by decide) _
  | block opening => exact opening.begins (by decide) _
  | evaluate _ close ih =>
      refine ((ih trivial).mono ?_).append [close.token]
      intro k hk
      exact List.mem_cons_of_mem _ (List.mem_cons_of_mem _ hk)
  | expression _ ih => exact ih trivial
  | assign target => exact target.begins (by decide) _
  | equality _ ih => exact ih trivial
  | chain _ others ih => exact (ih trivial).append others.tokens
  | stop => exact hs.elim
  | next => exact hs.elim
  | unary operator => exact operator.begins (by decide) _
  | primary _ ih =>
      apply (ih trivial).mono
      intro k hk
      exact List.mem_append_right _ hk
  | literal t => exact t.begins (by decide) _
  | grouping opening => exact opening.begins (by decide) _
  | reference t => exact t.begins (by decide) _

/-- A phrase does not begin with a token that its symbol does not allow there. -/
theorem Tree.not_begins {s : Symbol} (t : Tree s) (hs : s.IsFilled) {kinds : List TokenKind}
    (first : Terminal kinds) (hfirst : ∀ k ∈ kinds, k ∉ s.starts) {rest after : List Token} :
    first.token :: after ≠ t.tokens ++ rest := by
  intro h
  obtain ⟨head, _, htokens, hkind⟩ := t.begins hs
  rw [htokens, List.cons_append, List.cons.injEq] at h
  rw [← h.1] at hkind
  exact hfirst _ first.kind_mem hkind

/-! ## Where phrases end -/

/-- The binary operators of the levels up to one. -/
def operatorsUpTo : Nat → List TokenKind
  | 0 => []
  | level + 1 => operatorsUpTo level ++ operatorsAt (level + 1)

/-- The kinds with which a longer phrase of a symbol may go on where a shorter one ends. -/
def Symbol.continuations : Symbol → List TokenKind
  | .program => Symbol.program.starts
  | .expression | .assignment => .equal :: operatorsUpTo topLevel
  | .operand level => operatorsUpTo level
  | .operators below => operatorsUpTo (below + 1)
  | .declaration | .statement | .primary => []

/-- What follows is not a token of some kinds. -/
def Stops (kinds : List TokenKind) (rest : List Token) : Prop := ¬Begins kinds rest

theorem stops_nil (kinds : List TokenKind) : Stops kinds [] := by
  rintro ⟨_, _, h, -⟩
  cases h

theorem stops_cons_iff {kinds : List TokenKind} {t : Token} {rest : List Token} :
    Stops kinds (t :: rest) ↔ t.kind ∉ kinds := by
  constructor
  · intro h hkind
    exact h ⟨t, rest, rfl, hkind⟩
  · rintro h ⟨_, _, heq, hkind⟩
    cases heq
    exact h hkind

theorem Stops.anti {kinds fewer : List TokenKind} {rest : List Token}
    (h : Stops kinds rest) (hsub : ∀ k ∈ fewer, k ∈ kinds) : Stops fewer rest :=
  fun hb => h (hb.mono hsub)

theorem stops_empty (rest : List Token) : Stops [] rest := by
  rintro ⟨_, _, -, hkind⟩
  cases hkind

theorem Begins.stops {kinds others : List TokenKind} {tokens : List Token}
    (h : Begins kinds tokens) (hdisjoint : ∀ k ∈ kinds, k ∉ others) : Stops others tokens := by
  obtain ⟨first, rest, rfl, hkind⟩ := h
  exact stops_cons_iff.mpr (hdisjoint _ hkind)

/-- The operators of a level are not among those of the levels below. -/
theorem not_mem_operatorsUpTo {below : Nat} {k : TokenKind}
    (h : k ∈ operatorsAt (below + 1)) : k ∉ operatorsUpTo below := by
  match below with
  | 0 | 1 | 2 | 3 =>
      simp only [operatorsAt, List.mem_cons, List.not_mem_nil, or_false] at h
      rcases h with rfl | rfl | rfl | rfl <;> decide
  | _ + 4 => cases h

/-! ## Unambiguity -/

/-- A phrase with no operators to come is followed by the rest, and one with an
operator by that operator, which no phrase below the level goes on with. -/
theorem Tree.stops_operators {below : Nat} (t : Tree (.operators below)) {rest : List Token}
    (h : Stops (operatorsUpTo (below + 1)) rest) :
    Stops (operatorsUpTo below) (t.tokens ++ rest) := by
  cases t with
  | stop =>
      apply h.anti
      intro k hk
      exact List.mem_append_left _ hk
  | next operator =>
      exact stops_cons_iff.mpr (not_mem_operatorsUpTo operator.kind_mem)

/-- An operand that begins with an identifier is that identifier alone, or goes on
with a binary operator. -/
theorem Tree.operand_identifier {level : Nat} {name : Token} {rest after : List Token}
    (t : Tree (.operand level)) (hname : name.kind = .identifier)
    (h : t.tokens ++ rest = name :: after) :
    after = rest ∨ Begins (operatorsUpTo level) after := by
  match level, t with
  | _, .chain first others =>
      rw [tokens, List.append_assoc] at h
      rcases operand_identifier first hname h with hrest | hop
      · match others with
        | .stop => exact Or.inl hrest
        | .next operator _ _ =>
            subst hrest
            refine Or.inr (operator.begins ?_ _)
            intro k hk
            exact List.mem_append_right _ hk
      · refine Or.inr (hop.mono ?_)
        intro k hk
        exact List.mem_append_left _ hk
  | _, .unary operator right =>
      have hkind := operator.kind_mem
      rw [tokens, List.cons_append, List.cons.injEq] at h
      rw [h.1, hname] at hkind
      simp [unaryOperators] at hkind
  | _, .primary (.literal t) =>
      have hkind := t.kind_mem
      simp only [tokens, List.cons_append, List.cons.injEq] at h
      rw [h.1, hname] at hkind
      simp [literalKinds] at hkind
  | _, .primary (.grouping opening inner closing) =>
      have hkind := opening.kind_mem
      simp only [tokens, List.cons_append, List.cons.injEq] at h
      rw [h.1, hname] at hkind
      simp at hkind
  | _, .primary (.reference t) =>
      simp only [tokens, List.cons_append, List.nil_append, List.cons.injEq] at h
      exact Or.inl h.2.symm

/-- What follows an assignment is not where its target would be followed by `=`. -/
theorem Tree.not_assignment_of_operand (t : Tree (.operand topLevel))
    {target : Terminal [.identifier]} {sign : Terminal [.equal]} {rest after : List Token}
    (hrest : Stops (Symbol.continuations .assignment) rest) :
    t.tokens ++ rest ≠ target.token :: sign.token :: after := by
  intro h
  have htarget : target.token.kind = .identifier := List.mem_singleton.mp target.kind_mem
  have hsign : sign.token.kind = .equal := List.mem_singleton.mp sign.kind_mem
  rcases t.operand_identifier htarget h with heq | hop
  · rw [← heq, stops_cons_iff, hsign] at hrest
    exact hrest List.mem_cons_self
  · refine stops_cons_iff.mpr ?_ hop
    rw [hsign]
    decide

theorem Terminal.stops {k : TokenKind} {kinds : List TokenKind} (t : Terminal [k])
    (h : k ∉ kinds) (rest : List Token) : Stops kinds (t.token :: rest) := by
  rw [stops_cons_iff, t.kind_eq]
  exact h

/-- Another phrase of the symbol at the start of the same tokens is the same phrase, with
the same derivation, unless the shorter of them could go on. -/
def Tree.IsUnique {s : Symbol} (t : Tree s) : Prop :=
  ∀ (u : Tree s) {x y : List Token}, t.tokens ++ x = u.tokens ++ y →
    Stops s.continuations x → Stops s.continuations y → t = u ∧ x = y

namespace Tree.IsUnique

/-- A phrase that a terminal ends which it could not go on with. -/
theorem closed {s : Symbol} {k : TokenKind} {t u : Tree s} (ht : t.IsUnique)
    {close close' : Terminal [k]} {x y : List Token} (hk : k ∉ s.continuations)
    (h : t.tokens ++ close.token :: x = u.tokens ++ close'.token :: y) :
    t = u ∧ close = close' ∧ x = y := by
  obtain ⟨htree, hrest⟩ := ht u h (close.stops hk x) (close'.stops hk y)
  rw [List.cons.injEq] at hrest
  exact ⟨htree, Terminal.ext hrest.1, hrest.2⟩

/-! ### Programs -/

/-- Where a program ends, no declaration could follow. -/
theorem not_more {first : Tree .declaration} {others : Tree .program} {x y : List Token}
    (hx : Stops Symbol.program.continuations x) : x ≠ (Tree.more first others).tokens ++ y := by
  intro h
  have hbegins := (first.begins trivial).append (others.tokens ++ y)
  rw [tokens, List.append_assoc] at h
  rw [← h] at hbegins
  exact hx hbegins

theorem nothing : Tree.nothing.IsUnique := by
  intro u x y h hx _
  cases u with
  | nothing => exact ⟨rfl, h⟩
  | more first others => exact (not_more hx h).elim

theorem more {first : Tree .declaration} {others : Tree .program} (hfirst : first.IsUnique)
    (hothers : others.IsUnique) : (Tree.more first others).IsUnique := by
  intro u x y h hx hy
  cases u with
  | nothing => exact (not_more hy h.symm).elim
  | more first' others' =>
      rw [tokens, tokens, List.append_assoc, List.append_assoc] at h
      obtain ⟨rfl, hrest⟩ := hfirst first' h (stops_empty _) (stops_empty _)
      obtain ⟨rfl, hxy⟩ := hothers others' hrest hx hy
      exact ⟨rfl, hxy⟩

/-! ### Declarations -/

theorem declare {word : Terminal [.varWord]} {target : Terminal [.identifier]}
    {close : Terminal [.semicolon]} : (Tree.declare word target close).IsUnique := by
  intro u x y h _ _
  cases u with
  | declare word' target' close' =>
      simp only [tokens, List.cons_append, List.nil_append, List.cons.injEq] at h
      obtain ⟨hword, htarget, hclose, hxy⟩ := h
      rw [Terminal.ext hword, Terminal.ext htarget, Terminal.ext hclose]
      exact ⟨rfl, hxy⟩
  | define _ _ sign =>
      simp only [tokens, List.cons_append, List.nil_append, List.cons.injEq] at h
      exact (close.ne sign (by decide) h.2.2.1).elim
  | statement inner => exact (inner.not_begins trivial word (by decide) h).elim

theorem define {word : Terminal [.varWord]} {target : Terminal [.identifier]}
    {sign : Terminal [.equal]} {value : Tree .expression} {close : Terminal [.semicolon]}
    (hvalue : value.IsUnique) : (Tree.define word target sign value close).IsUnique := by
  intro u x y h _ _
  cases u with
  | declare _ _ close' =>
      simp only [tokens, List.cons_append, List.nil_append, List.cons.injEq] at h
      exact (sign.ne close' (by decide) h.2.2.1).elim
  | define word' target' sign' value' close' =>
      simp only [tokens, List.cons_append, List.append_assoc, List.nil_append,
        List.cons.injEq] at h
      obtain ⟨hword, htarget, hsign, hrest⟩ := h
      obtain ⟨rfl, rfl, hxy⟩ := hvalue.closed (by decide) hrest
      rw [Terminal.ext hword, Terminal.ext htarget, Terminal.ext hsign]
      exact ⟨rfl, hxy⟩
  | statement inner => exact (inner.not_begins trivial word (by decide) h).elim

theorem statement {inner : Tree .statement} (hinner : inner.IsUnique) :
    (Tree.statement inner).IsUnique := by
  intro u x y h hx hy
  cases u with
  | declare word => exact (inner.not_begins trivial word (by decide) h.symm).elim
  | define word => exact (inner.not_begins trivial word (by decide) h.symm).elim
  | statement inner' =>
      obtain ⟨rfl, hxy⟩ := hinner inner' h hx hy
      exact ⟨rfl, hxy⟩

/-! ### Statements -/

theorem print {word : Terminal [.printWord]} {value : Tree .expression}
    {close : Terminal [.semicolon]} (hvalue : value.IsUnique) :
    (Tree.print word value close).IsUnique := by
  intro u x y h _ _
  cases u with
  | print word' value' close' =>
      simp only [tokens, List.cons_append, List.append_assoc, List.nil_append,
        List.cons.injEq] at h
      obtain ⟨hword, hrest⟩ := h
      obtain ⟨rfl, rfl, hxy⟩ := hvalue.closed (by decide) hrest
      rw [Terminal.ext hword]
      exact ⟨rfl, hxy⟩
  | block opening =>
      rw [tokens, tokens, List.cons_append, List.cons_append, List.cons.injEq] at h
      exact (word.ne opening (by decide) h.1).elim
  | evaluate value' =>
      rw [tokens, tokens, List.append_assoc] at h
      exact (value'.not_begins trivial word (by decide) h).elim

theorem block {opening : Terminal [.leftBrace]} {body : Tree .program}
    {closing : Terminal [.rightBrace]} {close : Terminal [.semicolon]} (hbody : body.IsUnique) :
    (Tree.block opening body closing close).IsUnique := by
  intro u x y h _ _
  cases u with
  | print word =>
      rw [tokens, tokens, List.cons_append, List.cons_append, List.cons.injEq] at h
      exact (opening.ne word (by decide) h.1).elim
  | block opening' body' closing' close' =>
      simp only [tokens, List.cons_append, List.append_assoc, List.nil_append,
        List.cons.injEq] at h
      obtain ⟨hopening, hrest⟩ := h
      obtain ⟨rfl, rfl, hclose⟩ := hbody.closed (by decide) hrest
      rw [List.cons.injEq] at hclose
      rw [Terminal.ext hopening, Terminal.ext hclose.1]
      exact ⟨rfl, hclose.2⟩
  | evaluate value' =>
      rw [tokens, tokens, List.append_assoc] at h
      exact (value'.not_begins trivial opening (by decide) h).elim

theorem evaluate {value : Tree .expression} {close : Terminal [.semicolon]}
    (hvalue : value.IsUnique) : (Tree.evaluate value close).IsUnique := by
  intro u x y h _ _
  cases u with
  | print word =>
      rw [tokens, tokens, List.append_assoc] at h
      exact (value.not_begins trivial word (by decide) h.symm).elim
  | block opening =>
      rw [tokens, tokens, List.append_assoc] at h
      exact (value.not_begins trivial opening (by decide) h.symm).elim
  | evaluate value' close' =>
      rw [tokens, tokens, List.append_assoc, List.append_assoc] at h
      obtain ⟨rfl, rfl, hxy⟩ := hvalue.closed (by decide) h
      exact ⟨rfl, hxy⟩

/-! ### Assignments -/

theorem expression {inner : Tree .assignment} (hinner : inner.IsUnique) :
    (Tree.expression inner).IsUnique := by
  intro u x y h hx hy
  cases u with
  | expression inner' =>
      obtain ⟨rfl, hxy⟩ := hinner inner' h hx hy
      exact ⟨rfl, hxy⟩

theorem assign {target : Terminal [.identifier]} {sign : Terminal [.equal]}
    {value : Tree .assignment} (hvalue : value.IsUnique) :
    (Tree.assign target sign value).IsUnique := by
  intro u x y h hx hy
  cases u with
  | assign target' sign' value' =>
      simp only [tokens, List.cons_append, List.cons.injEq] at h
      obtain ⟨htarget, hsign, hrest⟩ := h
      obtain ⟨rfl, hxy⟩ := hvalue value' hrest hx hy
      rw [Terminal.ext htarget, Terminal.ext hsign]
      exact ⟨rfl, hxy⟩
  | equality inner' => exact (inner'.not_assignment_of_operand hy h.symm).elim

theorem equality {inner : Tree (.operand topLevel)} (hinner : inner.IsUnique) :
    (Tree.equality inner).IsUnique := by
  intro u x y h hx hy
  cases u with
  | assign target' sign' value' => exact (inner.not_assignment_of_operand hx h).elim
  | equality inner' =>
      obtain ⟨rfl, hxy⟩ :=
        hinner inner' h (hx.anti fun _ => List.mem_cons_of_mem _)
          (hy.anti fun _ => List.mem_cons_of_mem _)
      exact ⟨rfl, hxy⟩

/-! ### Operators -/

theorem chain {below : Nat} {first : Tree (.operand below)} {others : Tree (.operators below)}
    (hfirst : first.IsUnique) (hothers : others.IsUnique) :
    (Tree.chain first others).IsUnique := by
  intro u x y h hx hy
  cases u with
  | chain first' others' =>
      rw [tokens, tokens, List.append_assoc, List.append_assoc] at h
      obtain ⟨rfl, hrest⟩ :=
        hfirst first' h (others.stops_operators hx) (others'.stops_operators hy)
      obtain ⟨rfl, hxy⟩ := hothers others' hrest hx hy
      exact ⟨rfl, hxy⟩

/-- Where a chain of operands ends, no operator of its level could follow. -/
theorem not_next {below : Nat} {operator : Terminal (operatorsAt (below + 1))}
    {right : Tree (.operand below)} {others : Tree (.operators below)} {x y : List Token}
    (hx : Stops (Symbol.operators below).continuations x) :
    x ≠ (Tree.next operator right others).tokens ++ y := by
  intro h
  rw [tokens] at h
  rw [h] at hx
  apply hx
  apply operator.begins
  intro k hk
  exact List.mem_append_right _ hk

theorem stop {below : Nat} : (Tree.stop : Tree (.operators below)).IsUnique := by
  intro u x y h hx _
  cases u with
  | stop => exact ⟨rfl, h⟩
  | next operator right others => exact (not_next hx h).elim

theorem next {below : Nat} {operator : Terminal (operatorsAt (below + 1))}
    {right : Tree (.operand below)} {others : Tree (.operators below)}
    (hright : right.IsUnique) (hothers : others.IsUnique) :
    (Tree.next operator right others).IsUnique := by
  intro u x y h hx hy
  cases u with
  | stop => exact (not_next hy h.symm).elim
  | next operator' right' others' =>
      simp only [tokens, List.cons_append, List.append_assoc, List.cons.injEq] at h
      obtain ⟨hoperator, hrest⟩ := h
      obtain ⟨rfl, hrest'⟩ :=
        hright right' hrest (others.stops_operators hx) (others'.stops_operators hy)
      obtain ⟨rfl, hxy⟩ := hothers others' hrest' hx hy
      rw [Terminal.ext hoperator]
      exact ⟨rfl, hxy⟩

theorem unary {operator : Terminal unaryOperators} {right : Tree (.operand 0)}
    (hright : right.IsUnique) : (Tree.unary operator right).IsUnique := by
  intro u x y h hx hy
  cases u with
  | unary operator' right' =>
      rw [tokens, tokens, List.cons_append, List.cons_append, List.cons.injEq] at h
      obtain ⟨rfl, hxy⟩ := hright right' h.2 hx hy
      rw [Terminal.ext h.1]
      exact ⟨rfl, hxy⟩
  | primary inner' => exact (inner'.not_begins trivial operator (by decide) h).elim

/-! ### Primaries -/

theorem primary {inner : Tree .primary} (hinner : inner.IsUnique) :
    (Tree.primary inner).IsUnique := by
  intro u x y h hx hy
  cases u with
  | unary operator' => exact (inner.not_begins trivial operator' (by decide) h.symm).elim
  | primary inner' =>
      obtain ⟨rfl, hxy⟩ := hinner inner' h hx hy
      exact ⟨rfl, hxy⟩

theorem literal {t : Terminal literalKinds} : (Tree.literal t).IsUnique := by
  intro u x y h _ _
  cases u with
  | literal t' =>
      rw [tokens, tokens, List.singleton_append, List.singleton_append, List.cons.injEq] at h
      rw [Terminal.ext h.1]
      exact ⟨rfl, h.2⟩
  | grouping opening =>
      rw [tokens, tokens, List.singleton_append, List.cons_append, List.cons.injEq] at h
      exact (t.ne opening (by decide) h.1).elim
  | reference t' =>
      rw [tokens, tokens, List.singleton_append, List.singleton_append, List.cons.injEq] at h
      exact (t.ne t' (by decide) h.1).elim

theorem grouping {opening : Terminal [.leftParen]} {inner : Tree .expression}
    {closing : Terminal [.rightParen]} (hinner : inner.IsUnique) :
    (Tree.grouping opening inner closing).IsUnique := by
  intro u x y h _ _
  cases u with
  | literal t' =>
      rw [tokens, tokens, List.singleton_append, List.cons_append, List.cons.injEq] at h
      exact (opening.ne t' (by decide) h.1).elim
  | grouping opening' inner' closing' =>
      simp only [tokens, List.cons_append, List.append_assoc, List.nil_append,
        List.cons.injEq] at h
      obtain ⟨hopening, hrest⟩ := h
      obtain ⟨rfl, rfl, hxy⟩ := hinner.closed (by decide) hrest
      rw [Terminal.ext hopening]
      exact ⟨rfl, hxy⟩
  | reference t' =>
      rw [tokens, tokens, List.singleton_append, List.cons_append, List.cons.injEq] at h
      exact (opening.ne t' (by decide) h.1).elim

theorem reference {t : Terminal [.identifier]} : (Tree.reference t).IsUnique := by
  intro u x y h _ _
  cases u with
  | literal t' =>
      rw [tokens, tokens, List.singleton_append, List.singleton_append, List.cons.injEq] at h
      exact (t.ne t' (by decide) h.1).elim
  | grouping opening =>
      rw [tokens, tokens, List.singleton_append, List.cons_append, List.cons.injEq] at h
      exact (t.ne opening (by decide) h.1).elim
  | reference t' =>
      rw [tokens, tokens, List.singleton_append, List.singleton_append, List.cons.injEq] at h
      rw [Terminal.ext h.1]
      exact ⟨rfl, h.2⟩

end Tree.IsUnique

/-- The grammar is unambiguous. -/
theorem Tree.unique {s : Symbol} (t : Tree s) : t.IsUnique := by
  induction t with
  | nothing => exact .nothing
  | more _ _ ihFirst ihOthers => exact ihFirst.more ihOthers
  | declare => exact .declare
  | define _ _ _ _ _ ih => exact ih.define
  | statement _ ih => exact ih.statement
  | print _ _ _ ih => exact ih.print
  | block _ _ _ _ ih => exact ih.block
  | evaluate _ _ ih => exact ih.evaluate
  | expression _ ih => exact ih.expression
  | assign _ _ _ ih => exact ih.assign
  | equality _ ih => exact ih.equality
  | chain _ _ ihFirst ihOthers => exact ihFirst.chain ihOthers
  | stop => exact .stop
  | next _ _ _ ihRight ihOthers => exact ihRight.next ihOthers
  | unary _ _ ih => exact ih.unary
  | primary _ ih => exact ih.primary
  | literal => exact .literal
  | grouping _ _ _ ih => exact ih.grouping
  | reference => exact .reference

/-! ## Targets of assignments -/

/-- Where an operator is applied, the result is its application. -/
theorem foldl_applyOperator_cons (left : Expr) (first : Token × Expr)
    (others : List (Token × Expr)) :
    ∃ l operator r, List.foldl applyOperator left (first :: others) = .binary l operator r := by
  induction others generalizing left first with
  | nil => exact ⟨left, first.1, first.2, rfl⟩
  | cons second others ih => exact ih (applyOperator left first) second

theorem literalExpr_ne_variable (t name : Token) : literalExpr t ≠ .variable name := by
  intro h
  rw [literalExpr] at h
  split at h
  · cases h
  · cases h
  · cases h
  · cases hliteral : t.literal with
    | none =>
        rw [hliteral] at h
        cases h
    | some v =>
        rw [hliteral] at h
        cases h

/-- An operand that stands for a variable is the name of the variable. -/
theorem Tree.tokens_of_variable {level : Nat} {name : Token} (t : Tree (.operand level))
    (h : t.meaning = Expr.variable name) : t.tokens = [name] ∧ name.kind = .identifier := by
  match level, t with
  | _, .chain first .stop =>
      rw [tokens, tokens, List.append_nil]
      exact tokens_of_variable first h
  | _, .chain first (.next operator right others) =>
      obtain ⟨_, _, _, hbinary⟩ := foldl_applyOperator_cons first.meaning
        (operator.token, right.meaning) others.meaning
      cases hbinary.symm.trans h
  | _, .unary _ _ => cases h
  | _, .primary (.literal t) => exact (literalExpr_ne_variable t.token name h).elim
  | _, .primary (.grouping _ _ _) => cases h
  | _, .primary (.reference t) =>
      cases h
      exact ⟨rfl, t.kind_eq⟩

end Grammar

end MiniLox
