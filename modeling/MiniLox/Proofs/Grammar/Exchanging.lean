import MiniLox.Proofs.Grammar.Tree

/-!
# Phrases of other tokens

When every token of a phrase is exchanged for one of the same kind and with the same literal, the
phrase stays a phrase, and what it stands for holds the new tokens in the place of the old ones.
-/

namespace MiniLox

/-- The expression with other tokens. -/
def Expr.mapTokens (g : Token → Token) : Expr → Expr
  | .literal v => .literal v
  | .blank => .blank
  | .grouping e => .grouping (e.mapTokens g)
  | .unary op e => .unary (g op) (e.mapTokens g)
  | .binary l op r => .binary (l.mapTokens g) (g op) (r.mapTokens g)
  | .variable name => .variable (g name)
  | .assign name e => .assign (g name) (e.mapTokens g)

mutual

/-- The statement with other tokens. -/
def Stmt.mapTokens (g : Token → Token) : Stmt → Stmt
  | .expression e => .expression (e.mapTokens g)
  | .print e => .print (e.mapTokens g)
  | .declare name value => .declare (g name) (value.map (Expr.mapTokens g))
  | .block statements => .block (Program.mapTokens g statements)

/-- The statements with other tokens. -/
def Program.mapTokens (g : Token → Token) : List Stmt → List Stmt
  | [] => []
  | s :: rest => s.mapTokens g :: Program.mapTokens g rest

end

/-- Every token has the kind and the literal of the one that it is exchanged for. -/
structure KeepsKinds (g : Token → Token) : Prop where
  kind (t : Token) : (g t).kind = t.kind
  literal (t : Token) : (g t).literal = t.literal

namespace Grammar

variable {g : Token → Token} {s : Symbol}

/-- What a phrase of a symbol stands for, with other tokens. -/
def Symbol.mapTokens (g : Token → Token) : (s : Symbol) → s.Meaning → s.Meaning
  | .program, p => Program.mapTokens g p
  | .declaration, d | .statement, d => Stmt.mapTokens g d
  | .operators _, others =>
    List.map (fun other : Token × Expr => (g other.1, other.2.mapTokens g)) others
  | .expression, e | .assignment, e | .operand _, e | .primary, e => Expr.mapTokens g e

/-- The terminal with another token of the same kind. -/
def Terminal.exchange {kinds : List TokenKind} (hg : KeepsKinds g) (t : Terminal kinds) :
    Terminal kinds :=
  ⟨g t.token, hg.kind t.token ▸ t.kind_mem⟩

theorem mapTokens_literalExpr (hg : KeepsKinds g) (t : Token) :
    literalExpr (g t) = (literalExpr t).mapTokens g := by
  rw [literalExpr, literalExpr, hg.kind, hg.literal]
  split
  · rfl
  · rfl
  · rfl
  · cases t.literal <;> rfl

theorem mapTokens_foldl (first : Expr) (others : List (Token × Expr)) :
    (others.foldl applyOperator first).mapTokens g =
      (others.map fun other => (g other.1, other.2.mapTokens g)).foldl applyOperator
        (first.mapTokens g) := by
  induction others generalizing first with
  | nil => rfl
  | cons other others ih => exact ih (applyOperator first other)

namespace Tree

/-- The derivation of a phrase with other tokens. -/
def exchange (hg : KeepsKinds g) {s : Symbol} : Tree s → Tree s
  | .nothing => .nothing
  | .more first others => .more (first.exchange hg) (others.exchange hg)
  | .declare word target close =>
    .declare (word.exchange hg) (target.exchange hg) (close.exchange hg)
  | .define word target sign value close =>
    .define (word.exchange hg) (target.exchange hg) (sign.exchange hg) (value.exchange hg)
      (close.exchange hg)
  | .statement inner => .statement (inner.exchange hg)
  | .print word value close =>
    .print (word.exchange hg) (value.exchange hg) (close.exchange hg)
  | .block opening body closing close =>
    .block (opening.exchange hg) (body.exchange hg) (closing.exchange hg) (close.exchange hg)
  | .evaluate value close => .evaluate (value.exchange hg) (close.exchange hg)
  | .expression inner => .expression (inner.exchange hg)
  | .assign target sign value =>
    .assign (target.exchange hg) (sign.exchange hg) (value.exchange hg)
  | .equality inner => .equality (inner.exchange hg)
  | .chain first others => .chain (first.exchange hg) (others.exchange hg)
  | .stop => .stop
  | .next operator right others =>
    .next (operator.exchange hg) (right.exchange hg) (others.exchange hg)
  | .unary operator right => .unary (operator.exchange hg) (right.exchange hg)
  | .primary inner => .primary (inner.exchange hg)
  | .literal t => .literal (t.exchange hg)
  | .grouping opening inner closing =>
    .grouping (opening.exchange hg) (inner.exchange hg) (closing.exchange hg)
  | .reference t => .reference (t.exchange hg)

theorem tokens_exchange (hg : KeepsKinds g) (t : Tree s) :
    (t.exchange hg).tokens = t.tokens.map g := by
  induction t with
  | _ =>
      -- In every rule the phrases of the parts stand in a row.
      simp only [exchange, tokens, Terminal.exchange, List.map_append, List.map_cons,
        List.map_nil, *]

theorem meaning_exchange (hg : KeepsKinds g) (t : Tree s) :
    (t.exchange hg).meaning = s.mapTokens g t.meaning := by
  induction t with
  | chain first others ihFirst ihOthers =>
      rw [exchange, meaning, meaning, ihFirst, ihOthers]
      exact (mapTokens_foldl first.meaning others.meaning).symm
  | literal t => exact mapTokens_literalExpr hg t.token
  | _ =>
      simp only [exchange, meaning, *]
      rfl

end Tree

end Grammar

end MiniLox
