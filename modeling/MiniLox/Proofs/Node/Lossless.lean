import MiniLox.Proofs.Grammar.Contents
import MiniLox.Proofs.Node.Codec
import MiniLox.Proofs.Recovery.Statements

/-!
# Nothing is lost in data

Two kinds of trees come with data that gives them back: those of the statements that are read
from a source, also from one with errors, and those that were themselves read from data, however
odd.  A node has data unless it holds a literal without a value; a source has no such literal,
and reading never makes one.

Nothing is lost on the way from statements to nodes either.  A node shows no difference between
a token that carries nil and one that carries nothing, but no token of a source carries nil, so
sources with the same data have the same statements.
-/

namespace MiniLox

/-! ## From statements to nodes -/

theorem Value.toJson_injective {v w : Value} (h : v.toJson = w.toJson) : v = w := by
  cases v <;> cases w <;> cases h <;> rfl

namespace Token

variable {t u : Token}

theorem lineJson_injective (h : t.lineJson = u.lineJson) : t.line = u.line := by
  rw [lineJson, lineJson] at h
  split at h <;> split at h <;> cases h <;> simp only [*]

/-- The token carries a value that a node can tell from none. -/
def CarriesNoNil (t : Token) : Prop := t.literal ≠ some .nil

theorem literal_eq (ht : t.CarriesNoNil) (hu : u.CarriesNoNil)
    (h : (t.literal.map Value.toJson).getD .null = (u.literal.map Value.toJson).getD .null) :
    t.literal = u.literal := by
  have hnull : ∀ v : Value, v.toJson = .null → v = .nil := fun v h => Value.toJson_injective h
  cases hleft : t.literal with
  | none =>
      cases hright : u.literal with
      | none => rfl
      | some w =>
          rw [hleft, hright] at h
          exact absurd (hright.trans (congrArg some (hnull w h.symm))) hu
  | some v =>
      cases hright : u.literal with
      | none =>
          rw [hleft, hright] at h
          exact absurd (hleft.trans (congrArg some (hnull v h))) ht
      | some w =>
          rw [hleft, hright] at h
          exact congrArg some (Value.toJson_injective h)

theorem eq_of_mark_eq (h : t.mark = u.mark) (ht : t.CarriesNoNil) (hu : u.CarriesNoNil) :
    t = u := by
  have hkind : t.kind = u.kind := congrArg Mark.kind h
  have hlexeme : t.lexeme = u.lexeme :=
    Text.ofString_injective (Json.text.inj (congrArg Mark.lexeme h))
  have hliteral : t.literal = u.literal := literal_eq ht hu (congrArg Mark.literal h)
  have hline : t.line = u.line := lineJson_injective (congrArg Mark.line h)
  calc
    t = ⟨t.kind, t.lexeme, t.literal, t.line⟩ := rfl
    _ = ⟨u.kind, u.lexeme, u.literal, u.line⟩ := by rw [hkind, hlexeme, hliteral, hline]

end Token

theorem Expr.eq_of_node_eq {e f : Expr} (h : e.node = f.node)
    (he : ∀ u ∈ e.tokens, u.CarriesNoNil) (hf : ∀ u ∈ f.tokens, u.CarriesNoNil) : e = f := by
  induction e generalizing f with
  | literal v =>
      cases f with
      | literal w => exact congrArg literal (Node.literal.inj h)
      | _ => cases h
  | blank =>
      cases f with
      | blank => rfl
      | _ => cases h
  | grouping e ih =>
      cases f with
      | grouping f => rw [ih (Node.grouping.inj h) he hf]
      | _ => cases h
  | unary op e ih =>
      cases f with
      | unary op' f =>
          obtain ⟨hop, hright⟩ := Node.unary.inj h
          obtain ⟨ho, he⟩ := List.forall_mem_cons.mp he
          obtain ⟨ho', hf⟩ := List.forall_mem_cons.mp hf
          rw [Token.eq_of_mark_eq hop ho ho', ih hright he hf]
      | _ => cases h
  | binary l op r ihLeft ihRight =>
      cases f with
      | binary l' op' r' =>
          obtain ⟨hleft, hop, hright⟩ := Node.binary.inj h
          obtain ⟨hl, hrest⟩ := List.forall_mem_append.mp he
          obtain ⟨hl', hrest'⟩ := List.forall_mem_append.mp hf
          obtain ⟨ho, hr⟩ := List.forall_mem_cons.mp hrest
          obtain ⟨ho', hr'⟩ := List.forall_mem_cons.mp hrest'
          rw [ihLeft hleft hl hl', Token.eq_of_mark_eq hop ho ho', ihRight hright hr hr']
      | _ => cases h
  | «variable» name =>
      cases f with
      | «variable» name' =>
          rw [Token.eq_of_mark_eq (Node.variable.inj h) (he _ List.mem_cons_self)
            (hf _ List.mem_cons_self)]
      | _ => cases h
  | assign name e ih =>
      cases f with
      | assign name' f =>
          obtain ⟨hname, hvalue⟩ := Node.assign.inj h
          obtain ⟨hn, he⟩ := List.forall_mem_cons.mp he
          obtain ⟨hn', hf⟩ := List.forall_mem_cons.mp hf
          rw [Token.eq_of_mark_eq hname hn hn', ih hvalue he hf]
      | _ => cases h

theorem Expr.node_ne_null (e : Expr) : e.node ≠ .null := by
  cases e <;> exact nofun

mutual

theorem Stmt.eq_of_node_eq : {s r : Stmt} → s.node = r.node →
    (∀ u ∈ s.tokens, u.CarriesNoNil) → (∀ u ∈ r.tokens, u.CarriesNoNil) → s = r
  | .expression e, r, h, hs, hr => by
      cases r with
      | expression f => rw [Expr.eq_of_node_eq (Node.expression.inj h) hs hr]
      | declare _ i => cases i <;> cases h
      | _ => cases h
  | .print e, r, h, hs, hr => by
      cases r with
      | print f => rw [Expr.eq_of_node_eq (Node.print.inj h) hs hr]
      | declare _ i => cases i <;> cases h
      | _ => cases h
  | .declare name none, r, h, hs, hr => by
      cases r with
      | declare name' i =>
          cases i with
          | none =>
              rw [Token.eq_of_mark_eq (Node.declare.inj h).1 (hs _ List.mem_cons_self)
                (hr _ List.mem_cons_self)]
          | some f => exact absurd (Node.declare.inj h).2.symm f.node_ne_null
      | _ => cases h
  | .declare name (some e), r, h, hs, hr => by
      cases r with
      | declare name' i =>
          cases i with
          | none => exact absurd (Node.declare.inj h).2 e.node_ne_null
          | some f =>
              obtain ⟨hname, hvalue⟩ := Node.declare.inj h
              obtain ⟨hn, he⟩ := List.forall_mem_cons.mp hs
              obtain ⟨hn', hf⟩ := List.forall_mem_cons.mp hr
              rw [Token.eq_of_mark_eq hname hn hn', Expr.eq_of_node_eq hvalue he hf]
      | _ => cases h
  | .block statements, r, h, hs, hr => by
      cases r with
      | block others => rw [Program.eq_of_nodes_eq (Node.block.inj h) hs hr]
      | declare _ i => cases i <;> cases h
      | _ => cases h

/-- Statements that no token with nil occurs in are determined by their nodes. -/
theorem Program.eq_of_nodes_eq : {p q : List Stmt} → Stmt.nodes p = Stmt.nodes q →
    (∀ u ∈ Program.tokens p, u.CarriesNoNil) → (∀ u ∈ Program.tokens q, u.CarriesNoNil) → p = q
  | [], [], _, _, _ => rfl
  | [], _ :: _, h, _, _ => nomatch h
  | _ :: _, [], h, _, _ => nomatch h
  | s :: p, r :: q, h, hp, hq => by
      obtain ⟨hhead, htail⟩ := List.cons.inj h
      obtain ⟨hs, hp⟩ := List.forall_mem_append.mp hp
      obtain ⟨hr, hq⟩ := List.forall_mem_append.mp hq
      rw [Stmt.eq_of_node_eq hhead hs hr, Program.eq_of_nodes_eq htail hp hq]

end

theorem Lexer.carriesNoNil_of_mem_lex {line : Nat} {t : Token} {source : List Char}
    (h : t ∈ (Lexer.lex line source).1) : t.CarriesNoNil := by
  obtain ⟨_, _, _, -, houtcome, hblank, hcomment⟩ := Lexer.exists_outcome_of_mem_lex h
  rcases Lexer.outcome_cases houtcome with
    ⟨_, -, rfl⟩ | rfl | rfl | rfl | ⟨-, hshape | hshape⟩
  · exact nofun
  · exact nofun
  · exact nofun
  · exact nofun
  · exact (hcomment hshape).elim
  · exact (hblank hshape).elim

theorem Lexer.carriesNoNil_of_scan (source : String) :
    ∀ u ∈ Program.tokens (Program.parse (scan source).tokens).1, u.CarriesNoNil := by
  obtain ⟨t, hmeaning, htokens⟩ := exists_tree_of_scan source
  rw [← hmeaning]
  exact t.forall_kept fun u hu => carriesNoNil_of_mem_lex (htokens u hu)

/-! ## From data to nodes -/

namespace Node

theorem child_eq_ok {name : String} {members : List (Text × Json)} {n : Node}
    (h : child name members = .ok n) :
    ∃ j, Json.find? name members = some j ∧ decode j = .ok n := by
  rw [child, part] at h
  split at h
  · next j hj => exact ⟨j, hj, h⟩
  · cases h

mutual

theorem exists_encode_of_decode {j : Json} {n : Node} (h : decode j = .ok n) :
    ∃ k, encode n = some k := by
  match j with
  | .null =>
    rw [decode] at h
    cases h
    exact ⟨_, rfl⟩
  | .array items =>
    rw [decode] at h
    obtain ⟨ns, hns, h⟩ := ok_of_bind h
    cases h
    obtain ⟨ks, hks⟩ := exists_encodeAll_of_decodeAll hns
    exact ⟨_, Option.bind_eq_some_iff.mpr ⟨ks, hks, rfl⟩⟩
  | .object members =>
    rw [decode] at h
    split at h
    · obtain ⟨j, -, h⟩ := ok_of_bind h
      obtain ⟨v, -, h⟩ := ok_of_bind h
      cases h
      exact ⟨_, rfl⟩
    · obtain ⟨e, he, h⟩ := ok_of_bind h
      cases h
      obtain ⟨k, hk⟩ := exists_encode_of_child he
      exact ⟨_, Option.bind_eq_some_iff.mpr ⟨k, hk, rfl⟩⟩
    · obtain ⟨op, -, h⟩ := ok_of_bind h
      obtain ⟨e, he, h⟩ := ok_of_bind h
      cases h
      obtain ⟨k, hk⟩ := exists_encode_of_child he
      exact ⟨_, Option.bind_eq_some_iff.mpr ⟨k, hk, rfl⟩⟩
    · obtain ⟨l, hl, h⟩ := ok_of_bind h
      obtain ⟨op, -, h⟩ := ok_of_bind h
      obtain ⟨r, hr, h⟩ := ok_of_bind h
      cases h
      obtain ⟨k, hk⟩ := exists_encode_of_child hl
      obtain ⟨k', hk'⟩ := exists_encode_of_child hr
      exact ⟨_, Option.bind_eq_some_iff.mpr ⟨k, hk, Option.bind_eq_some_iff.mpr ⟨k', hk', rfl⟩⟩⟩
    · obtain ⟨name, -, h⟩ := ok_of_bind h
      cases h
      exact ⟨_, rfl⟩
    · obtain ⟨name, -, h⟩ := ok_of_bind h
      obtain ⟨e, he, h⟩ := ok_of_bind h
      cases h
      obtain ⟨k, hk⟩ := exists_encode_of_child he
      exact ⟨_, Option.bind_eq_some_iff.mpr ⟨k, hk, rfl⟩⟩
    · obtain ⟨e, he, h⟩ := ok_of_bind h
      cases h
      obtain ⟨k, hk⟩ := exists_encode_of_child he
      exact ⟨_, Option.bind_eq_some_iff.mpr ⟨k, hk, rfl⟩⟩
    · obtain ⟨e, he, h⟩ := ok_of_bind h
      cases h
      obtain ⟨k, hk⟩ := exists_encode_of_child he
      exact ⟨_, Option.bind_eq_some_iff.mpr ⟨k, hk, rfl⟩⟩
    · obtain ⟨name, -, h⟩ := ok_of_bind h
      split at h
      · cases h
        exact ⟨_, rfl⟩
      · next j hj =>
        have := Json.sizeOf_lt_of_find? hj
        obtain ⟨e, he, h⟩ := ok_of_bind h
        cases h
        obtain ⟨k, hk⟩ := exists_encode_of_decode he
        exact ⟨_, Option.bind_eq_some_iff.mpr ⟨k, hk, rfl⟩⟩
    · obtain ⟨⟨j, hj⟩, -, h⟩ := ok_of_bind h
      obtain ⟨statements, hstatements, h⟩ := ok_of_bind h
      cases h
      obtain ⟨ks, hks⟩ := exists_encodeAll_of_children hstatements
      exact ⟨_, Option.bind_eq_some_iff.mpr ⟨ks, hks, rfl⟩⟩
    · cases h
  | .boolean _ | .whole _ | .real _ | .text _ =>
    rw [decode] at h
    · cases h
    all_goals exact nofun
termination_by sizeOf j

theorem exists_encode_of_child {name : String} {members : List (Text × Json)} {n : Node}
    (h : child name members = .ok n) : ∃ k, encode n = some k := by
  obtain ⟨j, hj, hdecode⟩ := child_eq_ok h
  have := Json.sizeOf_lt_of_find? hj
  exact exists_encode_of_decode hdecode
termination_by sizeOf members

theorem exists_encodeAll_of_children {j : Json} {ns : List Node} (h : children j = .ok ns) :
    ∃ ks, encodeAll ns = some ks := by
  rw [children.eq_def] at h
  split at h
  · exact exists_encodeAll_of_decodeAll h
  · split at h <;> cases h
    exact ⟨[], rfl⟩
  · split at h <;> cases h
    exact ⟨[], rfl⟩
  · cases h
termination_by sizeOf j

theorem exists_encodeAll_of_decodeAll {js : List Json} {ns : List Node}
    (h : decodeAll js = .ok ns) : ∃ ks, encodeAll ns = some ks := by
  match js with
  | [] =>
      rw [decodeAll] at h
      cases h
      exact ⟨[], rfl⟩
  | j :: rest =>
      rw [decodeAll] at h
      obtain ⟨n, hn, h⟩ := ok_of_bind h
      obtain ⟨others, hothers, h⟩ := ok_of_bind h
      cases h
      obtain ⟨k, hk⟩ := exists_encode_of_decode hn
      obtain ⟨ks, hks⟩ := exists_encodeAll_of_decodeAll hothers
      exact ⟨_, Option.bind_eq_some_iff.mpr ⟨k, hk, Option.bind_eq_some_iff.mpr ⟨ks, hks, rfl⟩⟩⟩
termination_by sizeOf js

end

/-- The statements of every source, and everything that is read from data, have data that gives
them back as they were; two sources have the same data only if they have the same statements,
down to the tokens and their lines. -/
theorem documents_lossless :
    (∀ source : String,
      let p := (Program.parse (Lexer.scan source).tokens).1
      ∃ j, encode (.list (Stmt.nodes p)) = some j ∧ decode j = .ok (.list (Stmt.nodes p)) ∧
        ∀ other : String,
          encode (.list (Stmt.nodes (Program.parse (Lexer.scan other).tokens).1)) = some j →
            (Program.parse (Lexer.scan other).tokens).1 = p) ∧
      ∀ j n, decode j = .ok n → ∃ k, encode n = some k ∧ decode k = .ok n := by
  constructor
  · intro source p
    obtain ⟨js, hjs⟩ := exists_encodeAll (Lexer.isComplete_of_scan source)
    have hencode : encode (.list (Stmt.nodes p)) = some (.array js) :=
      Option.bind_eq_some_iff.mpr ⟨js, hjs, rfl⟩
    have hdecode := decode_of_encode hencode
    refine ⟨_, hencode, hdecode, fun other hother => ?_⟩
    have hsame := Except.ok.inj ((decode_of_encode hother).symm.trans hdecode)
    exact Program.eq_of_nodes_eq (Node.list.inj hsame) (Lexer.carriesNoNil_of_scan other)
      (Lexer.carriesNoNil_of_scan source)
  · intro j n hdecode
    obtain ⟨k, hk⟩ := exists_encode_of_decode hdecode
    exact ⟨k, hk, decode_of_encode hk⟩

/-- Data with a missing statement, a list inside a list, a name whose text and line are odd, a
number that is none, and a list in the place of an expression. -/
def oddDocument : Json :=
  .array [.null, .array [.array []],
    tagged "VarStmt" [("name", .object [("type", .text "STAR"), ("lexeme", .array [.whole 7]),
      ("literal", .boolean false), ("line", .real .nan)])],
    tagged "Literal" [("value", .object [("kind", .text "number"), ("value", .text "nan")])],
    tagged "PrintStmt" [("expr", .array [.null])]]

/-- What `oddDocument` is read as. -/
def oddTree : Node :=
  .list [.null, .list [.list []],
    .declare ⟨.star, .array [.whole 7], .boolean false, .real .nan⟩ .null,
    .literal (.number .nan),
    .print (.list [.null])]

theorem documents_lossless_oddDocument :
    decode oddDocument = .ok oddTree ∧ ∃ k, encode oddTree = some k ∧ decode k = .ok oddTree := by
  have hname : mark "name" [("node", .text "VarStmt"), ("name", .object [("type", .text "STAR"),
      ("lexeme", .array [.whole 7]), ("literal", .boolean false), ("line", .real .nan)])] =
        .ok ⟨.star, .array [.whole 7], .boolean false, .real .nan⟩ := by
    rw [mark, part_eq rfl]
    rfl
  have hvalue : Value.decode (.object [("kind", .text "number"), ("value", .text "nan")]) =
      .ok (.number .nan) := by
    have hnumeral : Number.ofText? "nan" = some .nan := by decide +kernel
    have hnumber : Json.toNumber (.text "nan") = .ok .nan := by
      rw [Json.toNumber, Text.plain?_ofString, Option.bind_some, hnumeral]
    exact congrArg (· >>= fun n => pure (Value.number n)) hnumber
  have hdeclare : decode (tagged "VarStmt" [("name", .object [("type", .text "STAR"),
      ("lexeme", .array [.whole 7]), ("literal", .boolean false), ("line", .real .nan)])]) =
        .ok (.declare ⟨.star, .array [.whole 7], .boolean false, .real .nan⟩ .null) := by
    rw [tagged, decode, find?_node, hname]
    rfl
  have hliteral : decode (tagged "Literal" [("value", .object [("kind", .text "number"),
      ("value", .text "nan")])]) = .ok (.literal (.number .nan)) := by
    have hpart : part "value" [("node", .text "Literal"), ("value", .object [("kind",
      .text "number"), ("value", .text "nan")])] = .ok ⟨_, _⟩ := part_eq rfl
    rw [tagged, decode, find?_node, hpart]
    exact congrArg (· >>= fun v => pure (literal v)) hvalue
  have hprint : decode (tagged "PrintStmt" [("expr", .array [.null])]) =
      .ok (.print (.list [.null])) := by
    have hchild : child "expr" [("node", .text "PrintStmt"), ("expr", .array [.null])] =
        .ok (.list [.null]) := child_eq rfl (decode_of_encode (n := .list [.null]) rfl)
    rw [tagged, decode, find?_node, hchild]
    rfl
  have hdecode : decode oddDocument = .ok oddTree := by
    rw [oddDocument, decode]
    simp only [decodeAll, hdeclare, hliteral, hprint, decode]
    rfl
  exact ⟨hdecode, documents_lossless.2 _ _ hdecode⟩

end Node

end MiniLox
