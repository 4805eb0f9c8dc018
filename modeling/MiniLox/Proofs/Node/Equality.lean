import MiniLox.Proofs.Json.Equality
import MiniLox.Proofs.Lexing.Layout
import MiniLox.Proofs.Recovery.Relabeling
import MiniLox.Proofs.Recovery.Statements
import MiniLox.Proofs.Session.Singles

/-!
# Trees that differ in lines alone

Equality of trees passes over the lines of tokens, and it is not reflexive: a literal that has no
value differs from itself, and so does the number that is none.  Neither is in the statements
that are read from a source.  Such statements are therefore equal as trees to all others that
differ from them in the lines of their tokens alone.
-/

namespace MiniLox

open Grammar

/-! ## Values and tokens -/

theorem Number.eq_self {n : Number} (h : n ≠ .nan) : n.eq n = true := by
  cases n with
  | nan => exact absurd rfl h
  | infinity => exact decide_eq_true rfl
  | finite => exact decide_eq_true rfl

/-- Every value but the number that is none is equal to itself. -/
theorem Value.equal_self {v : Value} (h : v ≠ .number .nan) : v.equal v = true := by
  cases v with
  | text s => exact beq_self_eq_true s
  | number n =>
      have hself : n.eq n = true := Number.eq_self fun hn => h (congrArg Value.number hn)
      rw [Value.equal, Value.numbersEqual, hself, Bool.true_or]
  | boolean b => exact beq_self_eq_true b
  | nil => rfl

theorem keepsKinds_unlined : KeepsKinds Token.unlined := ⟨fun _ => rfl, fun _ => rfl⟩

theorem Token.equal_mark {t u : Token} (h : t.unlined = u.unlined) :
    t.mark.equal u.mark = true := by
  obtain ⟨kind, lexeme, literal, line⟩ := t
  obtain ⟨kind', lexeme', literal', line'⟩ := u
  obtain ⟨rfl, rfl, rfl, -⟩ := Token.mk.inj h
  simp only [Token.mark, Mark.equal, Json.same_self, beq_self_eq_true, Bool.and_self]

/-! ## Expressions and statements -/

/-- Complete expressions without the number that is none are equal when they differ in lines
alone. -/
theorem Expr.equal_of_mapTokens_eq {e : Expr} (hcomplete : e.IsComplete)
    (hliterals : ∀ v ∈ e.node.literals, v ≠ .number .nan) :
    ∀ {f : Expr}, e.mapTokens Token.unlined = f.mapTokens Token.unlined →
      e.node.equal f.node = true := by
  induction e with
  | literal v =>
      intro f h
      cases f with
      | literal w =>
          obtain rfl := Expr.literal.inj h
          rw [Expr.node, Node.equal]
          exact Value.equal_self (hliterals v List.mem_cons_self)
      | _ => cases h
  | blank => exact hcomplete.elim
  | grouping e ih =>
      intro f h
      cases f with
      | grouping f =>
          rw [Expr.node, Expr.node, Node.equal]
          exact ih hcomplete hliterals (Expr.grouping.inj h)
      | _ => cases h
  | unary op e ih =>
      intro f h
      cases f with
      | unary op' f =>
          obtain ⟨hop, hright⟩ := Expr.unary.inj h
          rw [Expr.node, Expr.node, Node.equal, Token.equal_mark hop, Bool.true_and]
          exact ih hcomplete.2 hliterals hright
      | _ => cases h
  | binary l op r ihl ihr =>
      intro f h
      cases f with
      | binary l' op' r' =>
          obtain ⟨hleft, hop, hright⟩ := Expr.binary.inj h
          obtain ⟨hliteralsLeft, hliteralsRight⟩ := List.forall_mem_append.mp hliterals
          rw [Expr.node, Expr.node, Node.equal, Token.equal_mark hop,
            ihl hcomplete.1 hliteralsLeft hleft, ihr hcomplete.2.2 hliteralsRight hright]
          rfl
      | _ => cases h
  | «variable» name =>
      intro f h
      cases f with
      | «variable» name' =>
          rw [Expr.node, Expr.node, Node.equal]
          exact Token.equal_mark (Expr.variable.inj h)
      | _ => cases h
  | assign name e ih =>
      intro f h
      cases f with
      | assign name' f =>
          obtain ⟨hname, hvalue⟩ := Expr.assign.inj h
          rw [Expr.node, Expr.node, Node.equal, Token.equal_mark hname, Bool.true_and]
          exact ih hcomplete.2 hliterals hvalue
      | _ => cases h

mutual

theorem Stmt.equal_of_mapTokens_eq : {d : Stmt} → d.IsComplete →
    (∀ v ∈ d.node.literals, v ≠ .number .nan) → {d' : Stmt} →
    d.mapTokens Token.unlined = d'.mapTokens Token.unlined → d.node.equal d'.node = true
  | .expression e, hcomplete, hliterals, d', h => by
      cases d' with
      | expression f =>
          rw [Stmt.node, Stmt.node, Node.equal]
          exact Expr.equal_of_mapTokens_eq hcomplete hliterals (Stmt.expression.inj h)
      | _ => cases h
  | .print e, hcomplete, hliterals, d', h => by
      cases d' with
      | print f =>
          rw [Stmt.node, Stmt.node, Node.equal]
          exact Expr.equal_of_mapTokens_eq hcomplete hliterals (Stmt.print.inj h)
      | _ => cases h
  | .declare name none, _, _, d', h => by
      cases d' with
      | declare name' value =>
          obtain ⟨hname, hvalue⟩ := Stmt.declare.inj h
          obtain rfl : value = none := Option.map_eq_none_iff.mp hvalue.symm
          rw [Stmt.node, Stmt.node, Node.equal, Token.equal_mark hname, Node.equal]
          rfl
      | _ => cases h
  | .declare name (some e), hcomplete, hliterals, d', h => by
      cases d' with
      | declare name' value =>
          obtain ⟨hname, hvalue⟩ := Stmt.declare.inj h
          obtain ⟨f, rfl, hf⟩ := Option.map_eq_some_iff.mp hvalue.symm
          rw [Stmt.node, Stmt.node, Node.equal, Token.equal_mark hname, Bool.true_and]
          exact Expr.equal_of_mapTokens_eq hcomplete hliterals hf.symm
      | _ => cases h
  | .block body, hcomplete, hliterals, d', h => by
      cases d' with
      | block body' =>
          rw [Stmt.node, Stmt.node, Node.equal]
          exact Program.equal_of_mapTokens_eq hcomplete hliterals (Stmt.block.inj h)
      | _ => cases h

/-- Complete statements without the number that is none are equal when they differ in lines
alone. -/
theorem Program.equal_of_mapTokens_eq : {p : List Stmt} → Program.IsComplete p →
    (∀ v ∈ Node.literalsAll (Stmt.nodes p), v ≠ .number .nan) → {p' : List Stmt} →
    Program.mapTokens Token.unlined p = Program.mapTokens Token.unlined p' →
    Node.equalAll (Stmt.nodes p) (Stmt.nodes p') = true
  | [], _, _, p', h => by
      cases p' with
      | nil => rw [Stmt.nodes, Node.equalAll]
      | cons => cases h
  | d :: rest, hcomplete, hliterals, p', h => by
      cases p' with
      | nil => cases h
      | cons d' rest' =>
          obtain ⟨hfirst, hrest⟩ := List.cons.inj h
          obtain ⟨hliteralsFirst, hliteralsRest⟩ := List.forall_mem_append.mp hliterals
          rw [Stmt.nodes, Stmt.nodes, Node.equalAll,
            Stmt.equal_of_mapTokens_eq hcomplete.1 hliteralsFirst hfirst,
            Program.equal_of_mapTokens_eq hcomplete.2 hliteralsRest hrest]
          rfl

end

/-! ## Statements of sources -/

theorem Lexer.ne_nan_of_mem_lex {line : Nat} {t : Token} {source : List Char}
    (h : t ∈ (lex line source).1) : ∀ v, t.literal = some v → v ≠ .number .nan := by
  rintro v hv rfl
  rcases literal_of_mem_lex h with ⟨-, hnone⟩ | ⟨-, text, hliteral⟩
  · exact hnone _ hv
  · have hnan : numberValue text = .nan :=
      Value.number.inj (Option.some.inj (hliteral.symm.trans hv))
    rcases isUnsigned_numberValue text with h | ⟨m, h⟩
    · cases hnan.symm.trans h
    · cases hnan.symm.trans h

/-- Statements that are read from a source are equal to those that differ in lines alone. -/
theorem Lexer.equalAll_of_scan {source : String} {p : Program}
    (h : Program.mapTokens Token.unlined (Program.parse (scan source).tokens).1 =
      Program.mapTokens Token.unlined p) :
    Node.equalAll (Stmt.nodes (Program.parse (scan source).tokens).1) (Stmt.nodes p) = true := by
  refine Program.equal_of_mapTokens_eq (isComplete_of_scan source) ?_ h
  obtain ⟨t, hmeaning, htokens⟩ := exists_tree_of_scan source
  rw [← hmeaning]
  exact t.forall_literals ⟨nofun, nofun⟩ fun u hu => ne_nan_of_mem_lex (htokens u hu)

end MiniLox
