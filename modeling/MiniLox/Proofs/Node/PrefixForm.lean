import MiniLox.Node.Printer
import MiniLox.Proofs.Grammar.Parts
import MiniLox.Proofs.Lexing.Layout
import MiniLox.Proofs.Numeric.Displayed
import MiniLox.Proofs.Recovery.Relabeling

/-!
# The prefix form tells the tree

Every expression of a source has a prefix form, unless there is an assignment in it.  The prefix
form tells the expression, the lines of its tokens aside, if no text and no infinity stands in
it: a text may look like anything else, and an infinity looks like a name.

Prefix forms can be read in one way only, because the end of an operand can be seen.  A form that
begins with a parenthesis has a word behind it, which is an operator or `grouping`, and then its
operands, each behind a blank; every other form has neither a blank nor a parenthesis in it.
Such a form, a leaf, is a lexeme, so that it tells what it stands for as it does in a source.
-/

namespace MiniLox

namespace Expr

/-- The expression is one of those that are read from a source. -/
def IsRead (e : Expr) : Prop :=
  ∃ source, e ∈ Program.parts (Program.parse (Lexer.scan source).tokens).1

/-- No assignment stands in the expression. -/
def IsAssignFree (e : Expr) : Prop := ∀ name value, .assign name value ∉ e.parts

/-- All that stands in the expression can be told from the text that is shown for it. -/
structure IsLegible (e : Expr) : Prop where
  assignFree : e.IsAssignFree
  textFree : ∀ s, .literal (.text s) ∉ e.parts
  finite : ∀ n, .literal (.number n) ∈ e.parts → n.isFinite

/-- Whether the expression has no operands. -/
def isLeaf : Expr → Bool
  | .literal _ | .blank | .variable _ => true
  | _ => false

/-- The characters of the prefix form. -/
def prefixText : Expr → List Char
  | .literal v => v.display.chars
  | .variable name => name.lexeme.toList
  | .grouping e => '(' :: ("grouping".toList ++ ' ' :: (e.prefixText ++ [')']))
  | .unary op e => '(' :: (op.kind.spelling.toList ++ ' ' :: (e.prefixText ++ [')']))
  | .binary l op r =>
    '(' :: (op.kind.spelling.toList ++ ' ' :: (l.prefixText ++ ' ' :: (r.prefixText ++ [')'])))
  | .blank | .assign _ _ => []

variable {e f p : Expr}

theorem IsLegible.of_mem (h : e.IsLegible) (hp : p ∈ e.parts) : p.IsLegible :=
  ⟨fun name value hmem => h.assignFree name value (mem_parts_trans hmem hp),
    fun s hmem => h.textFree s (mem_parts_trans hmem hp),
    fun n hmem => h.finite n (mem_parts_trans hmem hp)⟩

/-- Lexemes stand behind all that is in an expression of a source. -/
theorem IsRead.isLexical (h : e.IsRead) : ∀ p ∈ e.parts, p.IsLexical := by
  obtain ⟨source, he⟩ := h
  exact fun p hp => Lexer.isLexical_of_scan (Program.mem_parts_trans hp _ he)

/-! ## Operators -/

/-- The kinds of operators. -/
def operatorKinds : List TokenKind :=
  [.bang, .minus, .slash, .star, .plus, .greater, .greaterEqual, .less, .lessEqual, .bangEqual,
    .equalEqual]

theorem mem_operatorKinds_of_unary {kind : TokenKind} (h : kind ∈ unaryOperators) :
    kind ∈ operatorKinds := by
  revert kind
  decide

theorem mem_operatorKinds_of_binary {kind : TokenKind} {level : Nat}
    (h : kind ∈ operatorsAt level) : kind ∈ operatorKinds := by
  unfold operatorsAt at h
  split at h <;> revert kind <;> decide

theorem spelling_inj : ∀ a ∈ operatorKinds, ∀ b ∈ operatorKinds,
    a.spelling.toList = b.spelling.toList → a = b := by
  decide

theorem spelling_ne_grouping : ∀ kind ∈ operatorKinds,
    kind.spelling.toList ≠ "grouping".toList := by
  decide

theorem blank_not_mem_spelling : ∀ kind ∈ operatorKinds, ' ' ∉ kind.spelling.toList := by
  decide

variable {op other : Token}

theorem markText_operator (h : op.kind ∈ operatorKinds) :
    Node.markText op.mark = .ok op.kind.spelling := by
  have htext : ∀ kind ∈ operatorKinds, ∀ lexeme literal line,
      Mark.text? ⟨kind, lexeme, literal, line⟩ = some (.ofString kind.spelling) := by
    simp [operatorKinds, Mark.text?]
  rw [Node.markText, Token.mark, htext _ h]

/-- Of an operator, its spelling tells all but the line. -/
theorem unlined_operator (h : op.IsLexical) (hkind : op.kind ∈ operatorKinds)
    (hother : other.IsLexical) (hkind' : other.kind ∈ operatorKinds)
    (hspelling : op.kind.spelling.toList = other.kind.spelling.toList) :
    op.unlined = other.unlined := by
  have hfixed : ∀ kind ∈ operatorKinds, kind ∈ Lexer.signKinds ++ TokenKind.keywords := by decide
  obtain ⟨hlexeme, hliteral⟩ := h.spelled (hfixed _ hkind)
  obtain ⟨hlexeme', hliteral'⟩ := hother.spelled (hfixed _ hkind')
  have heq := spelling_inj _ hkind _ hkind' hspelling
  rw [Token.unlined, Token.unlined, hlexeme, hliteral, hlexeme', hliteral', heq]

/-! ## The form of an expression -/

theorem markText_name {name : Token} (h : name.IsLexical) (hkind : name.kind = .identifier) :
    Node.markText name.mark = .ok name.lexeme := by
  obtain ⟨word, -, -, hliteral⟩ := h.exists_name hkind
  rw [Node.markText, Mark.text?, Token.mark, hkind, hliteral]
  rfl

theorem isAssignFree_grouping : (grouping e).IsAssignFree ↔ e.IsAssignFree := by
  simp [IsAssignFree, parts]

theorem isAssignFree_unary : (unary op e).IsAssignFree ↔ e.IsAssignFree := by
  simp [IsAssignFree, parts]

theorem isAssignFree_binary : (binary e op f).IsAssignFree ↔ e.IsAssignFree ∧ f.IsAssignFree := by
  simp [IsAssignFree, parts, forall_and]

/-- An expression of a source that has no assignment in it has a prefix form. -/
theorem prefixForm_of_assignFree (hlexical : ∀ p ∈ e.parts, p.IsLexical)
    (hfree : e.IsAssignFree) :
    ∃ text, e.node.prefixForm = .ok text ∧ text.chars = e.prefixText := by
  induction e with
  | literal v => exact ⟨v.display, rfl, rfl⟩
  | blank => exact (hlexical _ List.mem_cons_self).elim
  | «variable» name =>
      obtain ⟨hname, hkind⟩ := hlexical _ List.mem_cons_self
      rw [node, Node.prefixForm, markText_name hname hkind]
      exact ⟨_, rfl, Text.chars_ofString _⟩
  | grouping e ih =>
      obtain ⟨inner, hinner, htext⟩ :=
        ih (List.forall_mem_cons.mp hlexical).2 (isAssignFree_grouping.mp hfree)
      rw [node, Node.prefixForm, hinner]
      refine ⟨_, rfl, ?_⟩
      simp [prefixText, htext]
  | unary op e ih =>
      obtain ⟨⟨-, hkind⟩, hright⟩ := List.forall_mem_cons.mp hlexical
      obtain ⟨inner, hinner, htext⟩ := ih hright (isAssignFree_unary.mp hfree)
      rw [node, Node.prefixForm, markText_operator (mem_operatorKinds_of_unary hkind), hinner]
      refine ⟨_, rfl, ?_⟩
      simp [prefixText, htext]
  | binary l op r ihl ihr =>
      obtain ⟨⟨-, level, hkind⟩, hoperands⟩ := List.forall_mem_cons.mp hlexical
      obtain ⟨hlexicalLeft, hlexicalRight⟩ := List.forall_mem_append.mp hoperands
      obtain ⟨hfreeLeft, hfreeRight⟩ := isAssignFree_binary.mp hfree
      obtain ⟨left, hleft, htext⟩ := ihl hlexicalLeft hfreeLeft
      obtain ⟨right, hright, htext'⟩ := ihr hlexicalRight hfreeRight
      rw [node, Node.prefixForm, markText_operator (mem_operatorKinds_of_binary hkind), hleft,
        hright]
      refine ⟨_, rfl, ?_⟩
      simp [prefixText, htext, htext']
  | assign name e => exact (hfree name e List.mem_cons_self).elim

/-- An expression of a source with an assignment in it has no prefix form, for this reason. -/
theorem prefixForm_of_not_assignFree (hlexical : ∀ p ∈ e.parts, p.IsLexical)
    (hfree : ¬e.IsAssignFree) : e.node.prefixForm = .error .assignment := by
  induction e with
  | literal | blank | «variable» => simp [IsAssignFree, parts] at hfree
  | grouping e ih =>
      have hinner := ih (List.forall_mem_cons.mp hlexical).2 (mt isAssignFree_grouping.mpr hfree)
      rw [node, Node.prefixForm, hinner]
      rfl
  | unary op e ih =>
      obtain ⟨⟨-, hkind⟩, hright⟩ := List.forall_mem_cons.mp hlexical
      have hinner := ih hright (mt isAssignFree_unary.mpr hfree)
      rw [node, Node.prefixForm, markText_operator (mem_operatorKinds_of_unary hkind), hinner]
      rfl
  | binary l op r ihl ihr =>
      obtain ⟨⟨-, level, hkind⟩, hoperands⟩ := List.forall_mem_cons.mp hlexical
      obtain ⟨hlexicalLeft, hlexicalRight⟩ := List.forall_mem_append.mp hoperands
      rw [node, Node.prefixForm, markText_operator (mem_operatorKinds_of_binary hkind)]
      by_cases hfreeLeft : l.IsAssignFree
      · have hright := ihr hlexicalRight fun h => hfree (isAssignFree_binary.mpr ⟨hfreeLeft, h⟩)
        obtain ⟨left, hleft, -⟩ := prefixForm_of_assignFree hlexicalLeft hfreeLeft
        rw [hleft, hright]
        rfl
      · rw [ihl hlexicalLeft hfreeLeft]
        rfl
  | assign => rw [node, Node.prefixForm]

/-! ## Leaves -/

/-- Whether a character may stand in a leaf or in the word behind a parenthesis. -/
def isInner (c : Char) : Bool := c != ' ' && c != '(' && c != ')'

/-- The text does not go on with what may stand in a leaf. -/
def EndsLeaf (text : List Char) : Prop := ∀ c ∈ text.head?, isInner c = false

/-- The leaf that a text stands for. -/
def ofLeafText (text : List Char) : Expr :=
  if text.head?.any Char.isDigit then .literal (.number (Lexer.numberValue text))
  else match TokenKind.keyword? (String.ofList text) with
    | some .trueWord => .literal (.boolean true)
    | some .falseWord => .literal (.boolean false)
    | some .nilWord => .literal .nil
    | _ => .variable ⟨.identifier, String.ofList text, some (.text (String.ofList text)), none⟩

theorem takeWhile_append_of_ends {q : Char → Bool} {text rest : List Char} (h : ∀ c ∈ text, q c)
    (hrest : ∀ c ∈ rest.head?, q c = false) : (text ++ rest).takeWhile q = text := by
  rw [List.takeWhile_append_of_pos h]
  cases rest with
  | nil => simp
  | cons c after => simp [hrest c rfl]

/-- Where two texts of one sort of characters end can be seen. -/
theorem append_inj_of_ends {q : Char → Bool} {a b r s : List Char} (ha : ∀ c ∈ a, q c)
    (hb : ∀ c ∈ b, q c) (hr : ∀ c ∈ r.head?, q c = false) (hs : ∀ c ∈ s.head?, q c = false)
    (h : a ++ r = b ++ s) : a = b ∧ r = s := by
  have hab : a = b := by
    rw [← takeWhile_append_of_ends ha hr, h, takeWhile_append_of_ends hb hs]
  subst hab
  exact ⟨rfl, List.append_cancel_left h⟩

theorem isInner_of {q : Char → Bool} (hq : [' ', '(', ')'].any q = false) {c : Char}
    (h : q c) : isInner c := by
  have hne : c ∉ [' ', '(', ')'] := fun hmem => List.any_eq_false.mp hq c hmem h
  simpa [isInner, and_assoc] using hne

/-- A text can be told from what follows a leaf, and tells the expression that it is shown for. -/
structure IsLeafText (text : List Char) (e : Expr) : Prop where
  ne_nil : text ≠ []
  isInner : text.all isInner
  reads : ofLeafText text = e.mapTokens Token.unlined

open Decimal in
theorem isLeafText_number {m : Magnitude} (h : (Number.finite false m).IsSingle) :
    IsLeafText (Number.finite false m).display.toList (.literal (.number (.finite false m))) := by
  obtain ⟨whole, fraction, htext, hwhole, hfraction, hvalue⟩ := Number.exists_display_eq h
  obtain ⟨first, others, hcons, hfirst⟩ := hwhole.exists_eq_cons
  have hdigit : ∀ c : Char, c.isDigit → isInner c := fun c => isInner_of (by decide)
  have hnumber : Value.number (Lexer.numberValue (whole ++ pointed fraction)) =
      .number (.finite false m) := by
    cases fraction with
    | nil =>
        rw [pointed, List.append_nil, Lexer.numberValue_of_all hwhole.isDigit]
        exact congrArg Value.number hvalue
    | cons =>
        rw [pointed, Lexer.numberValue_append_point hwhole.isDigit]
        exact congrArg Value.number hvalue
  rw [htext]
  constructor
  · rw [hcons]
    exact List.cons_ne_nil _ _
  · rw [List.all_eq_true, List.forall_mem_append]
    refine ⟨fun c hc => hdigit c (hwhole.isDigit c hc), ?_⟩
    cases fraction with
    | nil => exact List.forall_mem_nil _
    | cons => exact List.forall_mem_cons.mpr ⟨rfl, fun c hc => hdigit c (hfraction c hc)⟩
  · have hhead : (whole ++ pointed fraction).head?.any Char.isDigit = true := by
      rw [hcons]
      exact hfirst
    rw [ofLeafText, if_pos hhead, hnumber]
    rfl

theorem isLeafText_name {name : Token} (h : name.IsLexical) (hkind : name.kind = .identifier) :
    IsLeafText name.lexeme.toList (.variable name) := by
  obtain ⟨word, ⟨⟨first, others, hcons, hfirst, hothers⟩, hkeyword⟩, hlexeme, hliteral⟩ :=
    h.exists_name hkind
  have hstarts : Lexer.startsWord first := by simpa [Lexer.startsWord] using hfirst
  have hunlined : name.unlined =
      ⟨.identifier, String.ofList word, some (.text (String.ofList word)), none⟩ := by
    rw [Token.unlined, hkind, hliteral, hlexeme]
  rw [hlexeme, String.toList_ofList]
  constructor
  · rw [hcons]
    exact List.cons_ne_nil _ _
  · rw [hcons, List.all_eq_true, List.forall_mem_cons]
    exact ⟨isInner_of (by decide) hstarts, fun c hc => isInner_of (by decide) (hothers c hc)⟩
  · have hhead : word.head?.any Char.isDigit = false := by
      rw [hcons]
      exact (Lexer.not_mem_of_startsWord hstarts).2.2.2
    rw [ofLeafText, hhead, hkeyword, mapTokens, hunlined]
    rfl

theorem isLeafText_of_isLeaf (hleaf : e.isLeaf) (hlexical : ∀ p ∈ e.parts, p.IsLexical)
    (hlegible : e.IsLegible) : IsLeafText e.prefixText e := by
  have hself := hlexical e e.mem_parts_self
  cases e with
  | literal v =>
      cases v with
      | text s => exact (hlegible.textFree s List.mem_cons_self).elim
      | number n =>
          obtain ⟨hsingle, hunsigned⟩ := hself
          have hfinite := hlegible.finite n List.mem_cons_self
          rcases hunsigned with rfl | ⟨m, rfl⟩
          · cases hfinite
          · rw [prefixText, Value.display, Text.chars_ofString]
            exact isLeafText_number hsingle
      | boolean b => cases b <;> exact ⟨by decide, by decide, by decide +kernel⟩
      | nil => exact ⟨by decide, by decide, by decide +kernel⟩
  | blank => exact hself.elim
  | «variable» name => exact isLeafText_name hself.1 hself.2
  | _ => cases hleaf

/-! ## Expressions with operands -/

/-- The expressions are the same, the lines of their tokens aside, and so is what follows their
texts. -/
def SameBefore (e f : Expr) (r s : List Char) : Prop :=
  e.mapTokens Token.unlined = f.mapTokens Token.unlined ∧ r = s

variable {r s : List Char}

theorem SameBefore.symm (h : SameBefore e f r s) : SameBefore f e s r := ⟨h.1.symm, h.2.symm⟩

theorem not_isInner_paren : isInner '(' = false := by decide

/-- The word behind the parenthesis. -/
def word : Expr → List Char
  | .grouping _ => "grouping".toList
  | .unary op _ | .binary _ op _ => op.kind.spelling.toList
  | _ => []

/-- The expressions that follow the word. -/
def operands : Expr → List Expr
  | .grouping e | .unary _ e => [e]
  | .binary l _ r => [l, r]
  | _ => []

/-- The texts of operands, with a blank in front of each. -/
def operandsText : List Expr → List Char
  | [] => []
  | e :: rest => ' ' :: (e.prefixText ++ operandsText rest)

theorem word_grouping : (grouping e).word = "grouping".toList := rfl

theorem word_unary : (unary op e).word = op.kind.spelling.toList := rfl

theorem word_binary : (binary e op f).word = op.kind.spelling.toList := rfl

theorem prefixText_append (hleaf : e.isLeaf = false) (hfree : e.IsAssignFree) (r : List Char) :
    e.prefixText ++ r = '(' :: (e.word ++ (operandsText e.operands ++ ')' :: r)) := by
  cases e with
  | grouping e => simp [prefixText, word_grouping, operands, operandsText]
  | unary op e => simp [prefixText, word_unary, operands, operandsText]
  | binary l op r => simp [prefixText, word_binary, operands, operandsText]
  | assign name e => exact (hfree name e List.mem_cons_self).elim
  | _ => cases hleaf

theorem mem_parts_of_mem_operands (h : p ∈ e.operands) : p ∈ e.parts := by
  cases e with
  | grouping e | unary op e =>
      rw [List.mem_singleton.mp h]
      exact List.mem_cons_of_mem _ e.mem_parts_self
  | binary l op r =>
      apply List.mem_cons_of_mem
      simp only [operands, List.mem_cons, List.not_mem_nil, or_false] at h
      rcases h with rfl | rfl
      · exact List.mem_append_left _ p.mem_parts_self
      · exact List.mem_append_right _ p.mem_parts_self
  | _ => cases h

theorem blank_not_mem_word (h : e.IsLexical) : ' ' ∉ e.word := by
  cases e with
  | grouping =>
      change ' ' ∉ "grouping".toList
      decide
  | unary op e => exact blank_not_mem_spelling _ (mem_operatorKinds_of_unary h.2)
  | binary l op r =>
      obtain ⟨-, level, hkind⟩ := h
      exact blank_not_mem_spelling _ (mem_operatorKinds_of_binary hkind)
  | _ => exact List.not_mem_nil

/-- Two expressions with operands are the same if their words and their operands are. -/
theorem mapTokens_eq_of_word_eq (hleaf : e.isLeaf = false) (hleaf' : f.isLeaf = false)
    (he : e.IsLexical) (hf : f.IsLexical) (hfree : e.IsAssignFree) (hfree' : f.IsAssignFree)
    (hword : e.word = f.word)
    (hoperands : e.operands.map (mapTokens Token.unlined) =
      f.operands.map (mapTokens Token.unlined)) :
    e.mapTokens Token.unlined = f.mapTokens Token.unlined := by
  cases e with
  | grouping e =>
      cases f with
      | grouping f => simpa [operands, mapTokens] using hoperands
      | unary op f =>
          exact absurd hword.symm (spelling_ne_grouping _ (mem_operatorKinds_of_unary hf.2))
      | binary => simp [operands] at hoperands
      | assign name f => exact (hfree' name f List.mem_cons_self).elim
      | _ => cases hleaf'
  | unary op e =>
      have hkind := mem_operatorKinds_of_unary he.2
      cases f with
      | grouping f => exact absurd hword (spelling_ne_grouping _ hkind)
      | unary op' f =>
          have hop := unlined_operator he.1 hkind hf.1 (mem_operatorKinds_of_unary hf.2) hword
          simpa [operands, mapTokens, hop] using hoperands
      | binary => simp [operands] at hoperands
      | assign name f => exact (hfree' name f List.mem_cons_self).elim
      | _ => cases hleaf'
  | binary l op r =>
      obtain ⟨hop, level, hkind⟩ := he
      cases f with
      | grouping | unary => simp [operands] at hoperands
      | binary l' op' r' =>
          obtain ⟨hop', level', hkind'⟩ := hf
          have hop := unlined_operator hop (mem_operatorKinds_of_binary hkind) hop'
            (mem_operatorKinds_of_binary hkind') hword
          simpa [operands, mapTokens, hop] using hoperands
      | assign name f => exact (hfree' name f List.mem_cons_self).elim
      | _ => cases hleaf'
  | assign name e => exact (hfree name e List.mem_cons_self).elim
  | _ => cases hleaf

/-! ## Reading in one way -/

theorem sameBefore_of_isLeaf (he : e.isLeaf) (hlexical : ∀ p ∈ e.parts, p.IsLexical)
    (hlegible : e.IsLegible) (hlexical' : ∀ p ∈ f.parts, p.IsLexical) (hlegible' : f.IsLegible)
    (hr : EndsLeaf r) (hs : EndsLeaf s) (h : e.prefixText ++ r = f.prefixText ++ s) :
    SameBefore e f r s := by
  have htext := isLeafText_of_isLeaf he hlexical hlegible
  cases hf : f.isLeaf with
  | true =>
      have htext' := isLeafText_of_isLeaf hf hlexical' hlegible'
      obtain ⟨hsame, hrest⟩ := append_inj_of_ends (List.all_eq_true.mp htext.isInner)
        (List.all_eq_true.mp htext'.isInner) hr hs h
      exact ⟨by rw [← htext.reads, hsame, htext'.reads], hrest⟩
  | false =>
      obtain ⟨c, others, hcons⟩ := List.exists_cons_of_ne_nil htext.ne_nil
      have hinner := List.all_eq_true.mp htext.isInner c (hcons ▸ List.mem_cons_self)
      rw [hcons, prefixText_append hf hlegible'.assignFree, List.cons_append, List.cons.injEq] at h
      rw [h.1, not_isInner_paren] at hinner
      cases hinner

/-- The text of an expression tells the expression and what follows it. -/
def TellsItself (e : Expr) : Prop :=
  ∀ f r s, (∀ p ∈ f.parts, p.IsLexical) → f.IsLegible → EndsLeaf r → EndsLeaf s →
    e.prefixText ++ r = f.prefixText ++ s → SameBefore e f r s

theorem endsLeaf_cons {c : Char} (hc : isInner c = false) (r : List Char) : EndsLeaf (c :: r) := by
  rintro _ ⟨⟩
  exact hc

theorem endsLeaf_operandsText (es : List Expr) (r : List Char) :
    EndsLeaf (operandsText es ++ ')' :: r) := by
  cases es with
  | nil => exact endsLeaf_cons (by decide) r
  | cons e rest => exact endsLeaf_cons (by decide) _

/-- Operands that tell themselves are told by their texts, up to the closing parenthesis. -/
theorem operands_eq_of_tellsItself {es fs : List Expr} (hes : ∀ e ∈ es, e.TellsItself)
    (hfs : ∀ f ∈ fs, (∀ p ∈ f.parts, p.IsLexical) ∧ f.IsLegible)
    (h : operandsText es ++ ')' :: r = operandsText fs ++ ')' :: s) :
    es.map (mapTokens Token.unlined) = fs.map (mapTokens Token.unlined) ∧ r = s := by
  induction es generalizing fs with
  | nil =>
      cases fs with
      | nil => exact ⟨rfl, (List.cons.inj h).2⟩
      | cons f fs => exact absurd (List.cons.inj h).1 (by decide)
  | cons e es ih =>
      cases fs with
      | nil => exact absurd (List.cons.inj h).1 (by decide)
      | cons f fs =>
          obtain ⟨he, hes⟩ := List.forall_mem_cons.mp hes
          obtain ⟨⟨hlexical, hlegible⟩, hfs⟩ := List.forall_mem_cons.mp hfs
          simp only [operandsText, List.cons_append, List.append_assoc, List.cons.injEq,
            true_and] at h
          obtain ⟨hfirst, hrest⟩ := he f _ _ hlexical hlegible (endsLeaf_operandsText es r)
            (endsLeaf_operandsText fs s) h
          obtain ⟨hothers, hafter⟩ := ih hes hfs hrest
          exact ⟨by rw [List.map_cons, List.map_cons, hfirst, hothers], hafter⟩

/-- Between a parenthesis and its operands stands a word. -/
theorem word_eq_of_append_eq {a b : List Char} {es fs : List Expr} (ha : ' ' ∉ a) (hb : ' ' ∉ b)
    (hes : es ≠ []) (hfs : fs ≠ [])
    (h : a ++ (operandsText es ++ r) = b ++ (operandsText fs ++ s)) :
    a = b ∧ operandsText es ++ r = operandsText fs ++ s := by
  have hall : ∀ {w : List Char}, ' ' ∉ w → ∀ c ∈ w, (c != ' ') = true :=
    fun hw c hc => bne_iff_ne.mpr fun heq => hw (heq ▸ hc)
  have hblank : ∀ {gs : List Expr} {t : List Char}, gs ≠ [] →
      ∀ c ∈ (operandsText gs ++ t).head?, (c != ' ') = false := by
    intro gs t hgs
    obtain ⟨g, rest, rfl⟩ := List.exists_cons_of_ne_nil hgs
    rintro c ⟨⟩
    rfl
  exact append_inj_of_ends (hall ha) (hall hb) (hblank hes) (hblank hfs) h

theorem operands_ne_nil (hleaf : e.isLeaf = false) (hfree : e.IsAssignFree) :
    e.operands ≠ [] := by
  cases e with
  | grouping | unary | binary => simp [operands]
  | assign name e => exact (hfree name e List.mem_cons_self).elim
  | _ => cases hleaf

/-- An expression with operands tells itself if its operands do. -/
theorem tellsItself_of_operands (hleaf : e.isLeaf = false) (he : ∀ p ∈ e.parts, p.IsLexical)
    (hlegible : e.IsLegible) (hoperands : ∀ o ∈ e.operands, o.TellsItself) : e.TellsItself := by
  intro f r s hf hlegible' hr hs h
  cases hleaf' : f.isLeaf with
  | true => exact (sameBefore_of_isLeaf hleaf' hf hlegible' he hlegible hs hr h.symm).symm
  | false =>
      have hfree := hlegible.assignFree
      have hfree' := hlegible'.assignFree
      have hself := he e e.mem_parts_self
      have hself' := hf f f.mem_parts_self
      rw [prefixText_append hleaf hfree, prefixText_append hleaf' hfree', List.cons.injEq] at h
      obtain ⟨hword, hrest⟩ := word_eq_of_append_eq (blank_not_mem_word hself)
        (blank_not_mem_word hself') (operands_ne_nil hleaf hfree) (operands_ne_nil hleaf' hfree')
        h.2
      obtain ⟨hsame, hafter⟩ := operands_eq_of_tellsItself hoperands (fun o ho =>
        ⟨fun p hp => hf p (mem_parts_trans hp (mem_parts_of_mem_operands ho)),
          hlegible'.of_mem (mem_parts_of_mem_operands ho)⟩) hrest
      exact ⟨mapTokens_eq_of_word_eq hleaf hleaf' hself hself' hfree hfree' hword hsame, hafter⟩

theorem tellsItself (he : ∀ p ∈ e.parts, p.IsLexical) (hlegible : e.IsLegible) :
    e.TellsItself := by
  induction e with
  | literal | blank | «variable» =>
      exact fun f r s hf hlegible' hr hs h =>
        sameBefore_of_isLeaf rfl he hlegible hf hlegible' hr hs h
  | grouping e ih | unary op e ih =>
      refine tellsItself_of_operands rfl he hlegible (List.forall_mem_singleton.mpr ?_)
      exact ih (List.forall_mem_cons.mp he).2
        (hlegible.of_mem (List.mem_cons_of_mem _ e.mem_parts_self))
  | binary l op r ihl ihr =>
      obtain ⟨hleft, hright⟩ := List.forall_mem_append.mp (List.forall_mem_cons.mp he).2
      have hpart : l ∈ (binary l op r).parts := mem_parts_of_mem_operands List.mem_cons_self
      have hpart' : r ∈ (binary l op r).parts :=
        mem_parts_of_mem_operands (List.mem_cons_of_mem _ List.mem_cons_self)
      refine tellsItself_of_operands rfl he hlegible (List.forall_mem_cons.mpr ⟨?_, ?_⟩)
      · exact ihl hleft (hlegible.of_mem hpart)
      · exact List.forall_mem_singleton.mpr (ihr hright (hlegible.of_mem hpart'))
  | assign name e => exact (hlegible.assignFree name e List.mem_cons_self).elim

/-- An expression of a source has a prefix form exactly if no assignment stands in it.  Two
expressions that can be told from what is shown for them are the same, the lines of their tokens
aside, if they have the same prefix form. -/
theorem prefixForm_tells_tree (he : e.IsRead) :
    ((∃ text, e.node.prefixForm = .ok text) ↔ e.IsAssignFree) ∧
      (¬e.IsAssignFree → e.node.prefixForm = .error .assignment) ∧
        ∀ f : Expr, f.IsRead → e.IsLegible → f.IsLegible →
          e.node.prefixForm = f.node.prefixForm →
            e.mapTokens Token.unlined = f.mapTokens Token.unlined := by
  have hlexical := he.isLexical
  refine ⟨⟨?_, ?_⟩, prefixForm_of_not_assignFree hlexical, ?_⟩
  · rintro ⟨text, htext⟩
    by_contra hfree
    rw [prefixForm_of_not_assignFree hlexical hfree] at htext
    cases htext
  · intro hfree
    obtain ⟨text, hform, -⟩ := prefixForm_of_assignFree hlexical hfree
    exact ⟨text, hform⟩
  · intro f hf hlegible hlegible' hform
    obtain ⟨text, he, htext⟩ := prefixForm_of_assignFree hlexical hlegible.assignFree
    obtain ⟨text', hf', htext'⟩ := prefixForm_of_assignFree hf.isLexical hlegible'.assignFree
    rw [he, hf'] at hform
    have hsame : e.prefixText ++ [] = f.prefixText ++ [] := by
      rw [List.append_nil, List.append_nil, ← htext, ← htext', Except.ok.inj hform]
    have hends : EndsLeaf [] := nofun
    exact (tellsItself hlexical hlegible f [] [] hf.isLexical hlegible' hends hends hsame).1

/-- The expression of `-a - (b)`, with the second sign and what follows on the given line. -/
def negatedLess (line : Nat) : Expr :=
  .binary
    (.unary ⟨.minus, "-", none, some 1⟩ (.variable ⟨.identifier, "a", some (.text "a"), some 1⟩))
    ⟨.minus, "-", none, some line⟩
    (.grouping (.variable ⟨.identifier, "b", some (.text "b"), some line⟩))

/-- The expression tells itself by its form when it is written on one line and on two. -/
theorem prefixForm_tells_tree_negatedLess :
    (negatedLess 1).IsRead ∧ (negatedLess 2).IsRead ∧ (negatedLess 1).IsLegible ∧
      (negatedLess 1).node.prefixForm = .ok "(- (- a) (grouping b))" ∧
        (negatedLess 1).mapTokens Token.unlined = (negatedLess 2).mapTokens Token.unlined := by
  have hread : (negatedLess 1).IsRead := ⟨"-a - (b);", by decide +kernel⟩
  have hread' : (negatedLess 2).IsRead := ⟨"-a\n- (b);", by decide +kernel⟩
  have hlegible : ∀ line, (negatedLess line).IsLegible := fun line =>
    ⟨by simp [IsAssignFree, negatedLess, parts], by simp [negatedLess, parts],
      by simp [negatedLess, parts]⟩
  have hform : ∀ line, (negatedLess line).node.prefixForm = .ok "(- (- a) (grouping b))" :=
    fun _ => by cbv
  refine ⟨hread, hread', hlegible 1, hform 1, ?_⟩
  exact (prefixForm_tells_tree hread).2.2 (negatedLess 2) hread' (hlegible 1) (hlegible 2)
    ((hform 1).trans (hform 2).symm)

end Expr

end MiniLox
