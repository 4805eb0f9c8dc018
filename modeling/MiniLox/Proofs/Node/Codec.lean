import MiniLox.Node.Decoding
import MiniLox.Proofs.Session.Faults
import MiniLox.Proofs.Text.Plain

/-!
# Trees through data

A node that has data is read back from it as it was: its kind, its children in their order,
and of its tokens and literals everything that evaluation, its faults and its trace look at.
All that has no data is a literal without a value, and no program of a source has one.
-/

namespace MiniLox

theorem Value.decode_encode (v : Value) : Value.decode v.encode = .ok v := by
  cases v <;> rfl

theorem TokenKind.decode_name (kind : TokenKind) :
    TokenKind.decode (.text kind.name) = .ok kind := by
  cases kind <;> rfl

theorem Mark.decode_encode (m : Mark) : Mark.decode m.encode = .ok m := by
  obtain ⟨kind, lexeme, literal, line⟩ := m
  have hkind : TokenKind.decode (.text kind.name) = .ok kind := TokenKind.decode_name kind
  cases literal <;>
  · rw [Mark.decode]
    change (TokenKind.decode (.text kind.name) >>= _) = _
    rw [hkind]
    rfl

namespace Node

theorem find?_node (kind : String) (members : List (Text × Json)) :
    (Json.find? "node" (("node", .text kind) :: members)).bind Json.string? = some kind :=
  Text.plain?_ofString kind

theorem part_eq {name : String} {members : List (Text × Json)} {j : Json}
    (h : Json.find? name members = some j) :
    part name members = .ok ⟨j, Json.sizeOf_lt_of_find? h⟩ := by
  rw [part]
  split
  · next j' h' =>
    have hj : j' = j := Option.some.inj (h'.symm.trans h)
    subst hj
    rfl
  · next h' =>
    rw [h] at h'
    cases h'

theorem mark_eq {name : String} {members : List (Text × Json)} {m : Mark}
    (h : Json.find? name members = some m.encode) : mark name members = .ok m := by
  rw [mark, part_eq h]
  exact m.decode_encode

theorem child_eq {name : String} {members : List (Text × Json)} {j : Json} {n : Node}
    (h : Json.find? name members = some j) (hj : decode j = .ok n) :
    child name members = .ok n := by
  rw [child, part_eq h]
  exact hj

mutual

theorem decode_of_encode : {n : Node} → {j : Json} → encode n = some j → decode j = .ok n
  | .null, _, h => by
      cases h
      rw [decode]
  | .list items, _, h => by
      obtain ⟨js, hjs, h⟩ := Option.bind_eq_some_iff.mp h
      cases h
      rw [decode, decodeAll_of_encodeAll hjs]
      rfl
  | .literal v, _, h => by
      cases h
      have hpart : part "value" [("node", .text "Literal"), ("value", v.encode)] =
          .ok ⟨v.encode, _⟩ := part_eq rfl
      rw [tagged, decode, find?_node, hpart]
      change (Value.decode v.encode >>= _) = _
      rw [v.decode_encode]
      rfl
  | .blank, _, h => nomatch h
  | .grouping e, _, h => by
      obtain ⟨j, hj, h⟩ := Option.bind_eq_some_iff.mp h
      cases h
      have hchild : child "expression" [("node", .text "Grouping"), ("expression", j)] = .ok e :=
        child_eq rfl (decode_of_encode hj)
      rw [tagged, decode, find?_node, hchild]
      rfl
  | .unary op e, _, h => by
      obtain ⟨j, hj, h⟩ := Option.bind_eq_some_iff.mp h
      cases h
      have hmark : mark "operator"
          [("node", .text "Unary"), ("operator", op.encode), ("right", j)] = .ok op := mark_eq rfl
      have hchild : child "right"
          [("node", .text "Unary"), ("operator", op.encode), ("right", j)] = .ok e :=
        child_eq rfl (decode_of_encode hj)
      rw [tagged, decode, find?_node, hmark, hchild]
      rfl
  | .binary l op r, _, h => by
      obtain ⟨j, hj, h⟩ := Option.bind_eq_some_iff.mp h
      obtain ⟨k, hk, h⟩ := Option.bind_eq_some_iff.mp h
      cases h
      have hleft : child "left"
          [("node", .text "Binary"), ("left", j), ("operator", op.encode), ("right", k)] = .ok l :=
        child_eq rfl (decode_of_encode hj)
      have hmark : mark "operator"
          [("node", .text "Binary"), ("left", j), ("operator", op.encode), ("right", k)] =
            .ok op := mark_eq rfl
      have hright : child "right"
          [("node", .text "Binary"), ("left", j), ("operator", op.encode), ("right", k)] = .ok r :=
        child_eq rfl (decode_of_encode hk)
      rw [tagged, decode, find?_node, hleft, hmark, hright]
      rfl
  | .variable name, _, h => by
      cases h
      have hmark : mark "name" [("node", .text "Variable"), ("name", name.encode)] = .ok name :=
        mark_eq rfl
      rw [tagged, decode, find?_node, hmark]
      rfl
  | .assign name e, _, h => by
      obtain ⟨j, hj, h⟩ := Option.bind_eq_some_iff.mp h
      cases h
      have hmark : mark "name"
          [("node", .text "Assign"), ("name", name.encode), ("value", j)] = .ok name := mark_eq rfl
      have hchild : child "value"
          [("node", .text "Assign"), ("name", name.encode), ("value", j)] = .ok e :=
        child_eq rfl (decode_of_encode hj)
      rw [tagged, decode, find?_node, hmark, hchild]
      rfl
  | .expression e, _, h => by
      obtain ⟨j, hj, h⟩ := Option.bind_eq_some_iff.mp h
      cases h
      have hchild : child "expr" [("node", .text "ExprStmt"), ("expr", j)] = .ok e :=
        child_eq rfl (decode_of_encode hj)
      rw [tagged, decode, find?_node, hchild]
      rfl
  | .print e, _, h => by
      obtain ⟨j, hj, h⟩ := Option.bind_eq_some_iff.mp h
      cases h
      have hchild : child "expr" [("node", .text "PrintStmt"), ("expr", j)] = .ok e :=
        child_eq rfl (decode_of_encode hj)
      rw [tagged, decode, find?_node, hchild]
      rfl
  | .declare name e, _, h => by
      obtain ⟨j, hj, h⟩ := Option.bind_eq_some_iff.mp h
      cases h
      have hmark : mark "name"
          [("node", .text "VarStmt"), ("name", name.encode), ("initializer", j)] = .ok name :=
        mark_eq rfl
      rw [tagged, decode, find?_node, hmark]
      change (decode j >>= _) = _
      rw [decode_of_encode hj]
      rfl
  | .block statements, _, h => by
      obtain ⟨js, hjs, h⟩ := Option.bind_eq_some_iff.mp h
      cases h
      have hpart : part "statements" [("node", .text "Block"), ("statements", .array js)] =
          .ok ⟨.array js, _⟩ := part_eq rfl
      have hchildren : children (.array js) = .ok statements := by
        rw [children, decodeAll_of_encodeAll hjs]
      rw [tagged, decode, find?_node, hpart]
      change (children (.array js) >>= _) = _
      rw [hchildren]
      rfl

theorem decodeAll_of_encodeAll : {ns : List Node} → {js : List Json} →
    encodeAll ns = some js → decodeAll js = .ok ns
  | [], _, h => by
      cases h
      rw [decodeAll]
  | n :: rest, _, h => by
      obtain ⟨j, hj, h⟩ := Option.bind_eq_some_iff.mp h
      obtain ⟨js, hjs, h⟩ := Option.bind_eq_some_iff.mp h
      cases h
      rw [decodeAll, decode_of_encode hj, decodeAll_of_encodeAll hjs]
      rfl

end

/-! ## Programs -/

theorem exists_encode_expr {e : Expr} (h : e.IsComplete) : ∃ j, encode e.node = some j := by
  induction e with
  | literal v => exact ⟨_, rfl⟩
  | blank => exact h.elim
  | grouping e ih =>
      obtain ⟨j, hj⟩ := ih h
      exact ⟨_, Option.bind_eq_some_iff.mpr ⟨j, hj, rfl⟩⟩
  | unary op e ih =>
      obtain ⟨j, hj⟩ := ih h.2
      exact ⟨_, Option.bind_eq_some_iff.mpr ⟨j, hj, rfl⟩⟩
  | binary l op r ihLeft ihRight =>
      obtain ⟨j, hj⟩ := ihLeft h.1
      obtain ⟨k, hk⟩ := ihRight h.2.2
      exact ⟨_, Option.bind_eq_some_iff.mpr ⟨j, hj, Option.bind_eq_some_iff.mpr ⟨k, hk, rfl⟩⟩⟩
  | «variable» name => exact ⟨_, rfl⟩
  | assign name e ih =>
      obtain ⟨j, hj⟩ := ih h.2
      exact ⟨_, Option.bind_eq_some_iff.mpr ⟨j, hj, rfl⟩⟩

mutual

theorem exists_encode_stmt : {s : Stmt} → s.IsComplete → ∃ j, encode s.node = some j
  | .expression e, h | .print e, h | .declare name (some e), h => by
      obtain ⟨j, hj⟩ := exists_encode_expr h
      exact ⟨_, Option.bind_eq_some_iff.mpr ⟨j, hj, rfl⟩⟩
  | .declare name none, _ => ⟨_, rfl⟩
  | .block statements, h => by
      obtain ⟨js, hjs⟩ := exists_encodeAll h
      exact ⟨_, Option.bind_eq_some_iff.mpr ⟨js, hjs, rfl⟩⟩

/-- A program of a source has data. -/
theorem exists_encodeAll : {p : List Stmt} → Program.IsComplete p →
    ∃ js, encodeAll (Stmt.nodes p) = some js
  | [], _ => ⟨[], rfl⟩
  | s :: rest, h => by
      obtain ⟨j, hj⟩ := exists_encode_stmt h.1
      obtain ⟨js, hjs⟩ := exists_encodeAll h.2
      exact ⟨_, Option.bind_eq_some_iff.mpr ⟨j, hj, Option.bind_eq_some_iff.mpr ⟨js, hjs, rfl⟩⟩⟩

end

end Node

end MiniLox
