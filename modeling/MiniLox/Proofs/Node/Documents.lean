import Mathlib.Data.List.Nodup
import MiniLox.Proofs.Json.RoundTrip
import MiniLox.Proofs.Node.Codec
import MiniLox.Proofs.Session.Endings

/-!
# Documents of programs

A program of a source has a document.  It is read back from there, unless its source has so many
lines that the number of a line is longer than a whole number of a document may be.
-/

namespace MiniLox

open Grammar
open Json (AreReadable AreReadableMembers)

/-! ## Data that can be read back -/

variable {limit : Nat}

/-- A token whose data can be read back: the number of its line is not too long, and its value
is plain. -/
structure Token.IsStorable (limit : Nat) (t : Token) : Prop where
  line : t.lineJson.IsReadable limit
  value : ∀ v, t.literal = some v → v.IsPlain

theorem nodup_map_ofString {names : List String} (h : names.Nodup) :
    (names.map Text.ofString).Nodup :=
  h.map Text.ofString_injective

theorem Value.isReadable_toJson {v : Value} (h : v.IsPlain) : v.toJson.IsReadable limit := by
  cases v with
  | text s =>
      rw [Value.toJson, Json.IsReadable]
      exact h
  | _ => simp only [Value.toJson, Json.IsReadable]

theorem Value.isReadable_encode {v : Value} (h : v.IsPlain) : v.encode.IsReadable limit := by
  have hnames := nodup_map_ofString (by decide : ["kind", "value"].Nodup)
  cases v with
  | nil =>
      simp only [Value.encode, Json.IsReadable, AreReadableMembers, Text.isPlain_ofString,
        and_self, and_true]
      exact List.nodup_singleton _
  | text s =>
      simp only [Value.encode, Json.IsReadable, AreReadableMembers, Text.isPlain_ofString,
        true_and, and_true]
      exact ⟨hnames, h⟩
  | _ =>
      simp only [Value.encode, Json.IsReadable, AreReadableMembers, Text.isPlain_ofString,
        and_self, and_true]
      exact hnames

theorem Mark.isReadable_encode {t : Token} (h : t.IsStorable limit) :
    t.mark.encode.IsReadable limit := by
  have hliteral : t.mark.literal.IsReadable limit := by
    change ((t.literal.map Value.toJson).getD .null).IsReadable limit
    cases hvalue : t.literal with
    | none => simp only [Option.map_none, Option.getD_none, Json.IsReadable]
    | some v => exact Value.isReadable_toJson (h.value v hvalue)
  have hlexeme : t.mark.lexeme.IsReadable limit := by
    rw [show t.mark.lexeme = .text t.lexeme from rfl, Json.IsReadable]
    exact Text.isPlain_ofString _
  have hline : t.mark.line.IsReadable limit := h.line
  rw [Mark.encode]
  split
  · simp only [Json.IsReadable, AreReadableMembers, Text.isPlain_ofString, hlexeme, hline,
      and_self, and_true]
    exact nodup_map_ofString (by decide : ["type", "lexeme", "line"].Nodup)
  · simp only [Json.IsReadable, AreReadableMembers, Text.isPlain_ofString, hlexeme, hline,
      hliteral, and_self, and_true]
    exact nodup_map_ofString (by decide : ["type", "lexeme", "line", "literal"].Nodup)

namespace Node

theorem isReadable_tagged {kind : String} {members : List (Text × Json)} (names : List String)
    (hmembers : members.map Prod.fst = names.map Text.ofString) (hnames : ("node" :: names).Nodup)
    (h : AreReadableMembers limit members) : (tagged kind members).IsReadable limit := by
  rw [tagged, Json.IsReadable, AreReadableMembers, Json.IsReadable, List.map_cons, hmembers]
  exact ⟨nodup_map_ofString hnames, Text.isPlain_ofString _, Text.isPlain_ofString _, h⟩

/-- A node with one child, and nothing else. -/
theorem isReadable_of_child {kind name : String} {child : Node} {j : Json}
    (hname : ["node", name].Nodup) (h : ∀ k, encode child = some k → k.IsReadable limit)
    (hj : (do return tagged kind [(name, ← encode child)]) = some j) : j.IsReadable limit := by
  obtain ⟨k, hk, hj⟩ := Option.bind_eq_some_iff.mp hj
  cases hj
  refine isReadable_tagged [name] rfl hname ?_
  simp only [AreReadableMembers, Text.isPlain_ofString, h k hk, and_self]

/-- The data of an expression can be read back. -/
def ExprIsReadable (limit : Nat) (e : Expr) : Prop :=
  ∀ j, encode e.node = some j → j.IsReadable limit

/-- The data of a statement can be read back. -/
def StmtIsReadable (limit : Nat) (s : Stmt) : Prop :=
  ∀ j, encode s.node = some j → j.IsReadable limit

/-- The data of a program can be read back. -/
def ProgramIsReadable (limit : Nat) (p : Program) : Prop :=
  ∀ js, encodeAll (Stmt.nodes p) = some js → AreReadable limit js

/-- The data of operators and their right operands can be read back. -/
def OperandsAreReadable (limit : Nat) (others : List (Token × Expr)) : Prop :=
  ∀ other ∈ others, other.1.IsStorable limit ∧ ExprIsReadable limit other.2

/-- The data of what a phrase of a symbol stands for can be read back. -/
def SymbolIsReadable (limit : Nat) : (s : Symbol) → s.Meaning → Prop
  | .program, p => ProgramIsReadable limit p
  | .declaration, d | .statement, d => StmtIsReadable limit d
  | .operators _, others => OperandsAreReadable limit others
  | .expression, e | .assignment, e | .operand _, e | .primary, e => ExprIsReadable limit e

/-! ## Expressions -/

variable {name op : Token} {e l r : Expr}

theorem isReadable_ofLiteral {literal : Option Value} (h : ∀ v, literal = some v → v.IsPlain) :
    ExprIsReadable limit (.ofLiteral literal) := by
  cases literal with
  | none => exact fun _ hj => nomatch hj
  | some v =>
      intro j hj
      cases hj
      refine isReadable_tagged ["value"] rfl (by decide) ?_
      simp only [AreReadableMembers, Text.isPlain_ofString,
        Value.isReadable_encode (h v rfl), and_self]

theorem isReadable_literalExpr {t : Token} (h : t.IsStorable limit) :
    ExprIsReadable limit (literalExpr t) := by
  have hword : ∀ {w : Value}, w.IsPlain → ExprIsReadable limit (.ofLiteral (some w)) := by
    intro w hw
    refine isReadable_ofLiteral ?_
    rintro _ ⟨⟩
    exact hw
  rw [literalExpr]
  split
  · exact hword (Evaluation.isPlain_boolean true)
  · exact hword (Evaluation.isPlain_boolean false)
  · exact hword Evaluation.isPlain_nil
  · exact isReadable_ofLiteral h.value

theorem isReadable_grouping (h : ExprIsReadable limit e) : ExprIsReadable limit (.grouping e) :=
  fun _ hj => isReadable_of_child (by decide) h hj

theorem isReadable_unary (hop : op.IsStorable limit) (h : ExprIsReadable limit e) :
    ExprIsReadable limit (.unary op e) := by
  intro j hj
  obtain ⟨k, hk, hj⟩ := Option.bind_eq_some_iff.mp hj
  cases hj
  refine isReadable_tagged ["operator", "right"] rfl (by decide) ?_
  simp only [AreReadableMembers, Text.isPlain_ofString, Mark.isReadable_encode hop, h k hk,
    and_self]

theorem isReadable_binary (hl : ExprIsReadable limit l) (hop : op.IsStorable limit)
    (hr : ExprIsReadable limit r) : ExprIsReadable limit (.binary l op r) := by
  intro j hj
  obtain ⟨k, hk, hj⟩ := Option.bind_eq_some_iff.mp hj
  obtain ⟨i, hi, hj⟩ := Option.bind_eq_some_iff.mp hj
  cases hj
  refine isReadable_tagged ["left", "operator", "right"] rfl (by decide) ?_
  simp only [AreReadableMembers, Text.isPlain_ofString, hl k hk, Mark.isReadable_encode hop,
    hr i hi, and_self]

theorem isReadable_variable (hname : name.IsStorable limit) :
    ExprIsReadable limit (.variable name) := by
  intro j hj
  cases hj
  refine isReadable_tagged ["name"] rfl (by decide) ?_
  simp only [AreReadableMembers, Text.isPlain_ofString, Mark.isReadable_encode hname, and_self]

theorem isReadable_assign (hname : name.IsStorable limit) (h : ExprIsReadable limit e) :
    ExprIsReadable limit (.assign name e) := by
  intro j hj
  obtain ⟨k, hk, hj⟩ := Option.bind_eq_some_iff.mp hj
  cases hj
  refine isReadable_tagged ["name", "value"] rfl (by decide) ?_
  simp only [AreReadableMembers, Text.isPlain_ofString, Mark.isReadable_encode hname, h k hk,
    and_self]

theorem isReadable_foldl {first : Expr} {others : List (Token × Expr)}
    (hfirst : ExprIsReadable limit first) (hothers : OperandsAreReadable limit others) :
    ExprIsReadable limit (others.foldl applyOperator first) := by
  induction others generalizing first with
  | nil => exact hfirst
  | cons other rest ih =>
      obtain ⟨⟨hline, hright⟩, hrest⟩ := List.forall_mem_cons.mp hothers
      exact ih (isReadable_binary hfirst hline hright) hrest

/-! ## Statements -/

theorem isReadable_expression (h : ExprIsReadable limit e) : StmtIsReadable limit (.expression e) :=
  fun _ hj => isReadable_of_child (by decide) h hj

theorem isReadable_print (h : ExprIsReadable limit e) : StmtIsReadable limit (.print e) :=
  fun _ hj => isReadable_of_child (by decide) h hj

theorem isReadable_declare (hname : name.IsStorable limit) {initializer : Option Expr}
    (h : ∀ e ∈ initializer, ExprIsReadable limit e) :
    StmtIsReadable limit (.declare name initializer) := by
  have hchild : ∀ j, encode (initializer.elim .null Expr.node) = some j → j.IsReadable limit := by
    cases initializer with
    | none =>
        intro j hj
        cases hj
        rw [Json.IsReadable]
        trivial
    | some e => exact h e rfl
  intro j hj
  have hnode : (Stmt.declare name initializer).node =
      .declare name.mark (initializer.elim .null Expr.node) := by
    cases initializer <;> rfl
  rw [hnode] at hj
  obtain ⟨k, hk, hj⟩ := Option.bind_eq_some_iff.mp hj
  cases hj
  refine isReadable_tagged ["name", "initializer"] rfl (by decide) ?_
  simp only [AreReadableMembers, Text.isPlain_ofString, Mark.isReadable_encode hname,
    hchild k hk, and_self]

theorem isReadable_block {p : Program} (h : ProgramIsReadable limit p) :
    StmtIsReadable limit (.block p) := by
  intro j hj
  obtain ⟨js, hjs, hj⟩ := Option.bind_eq_some_iff.mp hj
  cases hj
  refine isReadable_tagged ["statements"] rfl (by decide) ?_
  simp only [AreReadableMembers, Text.isPlain_ofString, Json.IsReadable, h js hjs, and_self]

theorem isReadable_cons {s : Stmt} {p : Program} (hs : StmtIsReadable limit s)
    (hp : ProgramIsReadable limit p) : ProgramIsReadable limit (s :: p) := by
  intro js hjs
  obtain ⟨k, hk, hjs⟩ := Option.bind_eq_some_iff.mp hjs
  obtain ⟨ks, hks, hjs⟩ := Option.bind_eq_some_iff.mp hjs
  cases hjs
  rw [AreReadable]
  exact ⟨hs k hk, hp ks hks⟩

/-! ## Programs of sources -/

/-- The data of what a phrase stands for can be read back, if that of its tokens can. -/
theorem isReadable_meaning {s : Symbol} (t : Tree s) (h : ∀ u ∈ t.tokens, u.IsStorable limit) :
    SymbolIsReadable limit s t.meaning := by
  induction t with
  | nothing =>
      intro js hjs
      cases hjs
      rw [AreReadable]
      trivial
  | more first others ihFirst ihOthers =>
      obtain ⟨hfirst, hothers⟩ := List.forall_mem_append.mp h
      exact isReadable_cons (ihFirst hfirst) (ihOthers hothers)
  | declare word target close =>
      simp only [Tree.tokens, List.forall_mem_cons] at h
      exact isReadable_declare h.2.1 nofun
  | define word target sign value close ih =>
      simp only [Tree.tokens, List.forall_mem_cons, List.forall_mem_append] at h
      refine isReadable_declare h.2.1 ?_
      rintro _ ⟨⟩
      exact ih h.2.2.2.1
  | statement _ ih => exact ih h
  | print word value close ih =>
      simp only [Tree.tokens, List.forall_mem_cons, List.forall_mem_append] at h
      exact isReadable_print (ih h.2.1)
  | block opening body closing close ih =>
      simp only [Tree.tokens, List.forall_mem_cons, List.forall_mem_append] at h
      exact isReadable_block (ih h.2.1)
  | evaluate value close ih =>
      simp only [Tree.tokens, List.forall_mem_append] at h
      exact isReadable_expression (ih h.1)
  | expression _ ih => exact ih h
  | assign target sign value ih =>
      simp only [Tree.tokens, List.forall_mem_cons] at h
      exact isReadable_assign h.1 (ih h.2.2)
  | equality _ ih => exact ih h
  | chain first others ihFirst ihOthers =>
      obtain ⟨hfirst, hothers⟩ := List.forall_mem_append.mp h
      exact isReadable_foldl (ihFirst hfirst) (ihOthers hothers)
  | stop => exact List.forall_mem_nil _
  | next operator right others ihRight ihOthers =>
      simp only [Tree.tokens, List.forall_mem_cons, List.forall_mem_append] at h
      exact List.forall_mem_cons.mpr ⟨⟨h.1, ihRight h.2.1⟩, ihOthers h.2.2⟩
  | unary operator right ih =>
      simp only [Tree.tokens, List.forall_mem_cons] at h
      exact isReadable_unary h.1 (ih h.2)
  | primary _ ih => exact ih h
  | literal t => exact isReadable_literalExpr (h _ List.mem_cons_self)
  | grouping opening inner closing ih =>
      simp only [Tree.tokens, List.forall_mem_cons, List.forall_mem_append] at h
      exact isReadable_grouping (ih h.2.1)
  | reference t => exact isReadable_variable (h _ List.mem_cons_self)

/-- The data of a program of a source can be read back. -/
theorem isReadable_of_isProgram {source : String} {p : Program} {j : Json}
    (hprogram : IsProgram source p)
    (hlines : (Nat.toDigits 10 (1 + Lexer.lineEnds source.toList)).length ≤ limit)
    (hencode : encode (.list (Stmt.nodes p)) = some j) : j.IsReadable limit := by
  obtain ⟨t, rfl, hsource⟩ := hprogram.exists_tree
  have htokens : ∀ u ∈ t.tokens, u.IsStorable limit := by
    intro u hu
    refine ⟨?_, Lexer.isPlain_of_mem_lex (hsource u hu)⟩
    obtain ⟨n, hline, hle⟩ := Lexer.line_le_of_mem_lex (hsource u hu)
    rw [Token.lineJson, hline]
    dsimp only
    rw [Json.IsReadable]
    have hpositive : 0 < limit := by
      by_contra hzero
      rw [Nat.eq_zero_of_not_pos hzero, Nat.le_zero, List.length_eq_zero_iff] at hlines
      exact Nat.toDigits_ne_nil hlines
    rw [Nat.length_toDigits_le_iff (by decide) hpositive] at hlines
    exact (Nat.length_toDigits_le_iff (by decide) hpositive).mpr (Nat.lt_of_le_of_lt hle hlines)
  obtain ⟨js, hjs, hj⟩ := Option.bind_eq_some_iff.mp hencode
  cases hj
  rw [Json.IsReadable]
  exact isReadable_meaning t htokens js hjs

/-- A program of a source has a document. -/
theorem exists_print_of_isProgram {source : String} {p : Program} {j : Json}
    (hprogram : IsProgram source p) (hencode : encode (.list (Stmt.nodes p)) = some j) :
    ∃ document, j.print = some document :=
  Json.exists_print (isReadable_of_isProgram hprogram Nat.le.refl hencode)

end Node

end MiniLox
