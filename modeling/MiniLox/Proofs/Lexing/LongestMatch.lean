import Mathlib.Data.List.TakeWhile
import MiniLox.Proofs.Lexing.Seams

/-!
# Longest matches

`IsLexeme` lists the forms of the lexemes of the language, with the token that each of them
is.  A source is cut by one rule: the next piece is the longest lexeme that the rest of the
source begins with.  Where it begins with none, one character is dropped, or, if it is a
quote, all that is left.

The argument has two halves.  A lexeme that stands alone is cut as a whole, and the token of
a piece makes it a lexeme.  A piece can only grow when more characters follow, hence no
lexeme in front of the rest is longer than the piece that is cut there.
-/

namespace MiniLox

namespace Lexer

/-- The kinds of operators and punctuation marks. -/
def signKinds : List TokenKind :=
  [.leftParen, .rightParen, .leftBrace, .rightBrace, .comma, .dot, .minus, .plus, .semicolon,
    .slash, .star, .bang, .bangEqual, .equal, .equalEqual, .greater, .greaterEqual, .less,
    .lessEqual]

/-- The number that digits before and after a point write, rounded to 32 bits. -/
def singleOf (whole fraction : List Char) : Value :=
  .number ((Decimal.ofDigits whole fraction).toNumber false).toSingle

/-- The lexemes of the language, each with the token that it is on a line. -/
inductive IsLexeme (line : Nat) : List Char → Token → Prop where
  | sign {kind : TokenKind} (hkind : kind ∈ signKinds) :
      IsLexeme line kind.spelling.toList ⟨kind, kind.spelling, none, some line⟩
  | whole {digits : List Char} (hne : digits ≠ []) (hdigits : ∀ c ∈ digits, c.isDigit) :
      IsLexeme line digits
        ⟨.number, String.ofList digits, some (singleOf digits []), some line⟩
  | fraction {digits places : List Char} (hne : digits ≠ []) (hdigits : ∀ c ∈ digits, c.isDigit)
      (hneplaces : places ≠ []) (hplaces : ∀ c ∈ places, c.isDigit) :
      IsLexeme line (digits ++ '.' :: places)
        ⟨.number, String.ofList (digits ++ '.' :: places), some (singleOf digits places),
          some line⟩
  | keyword {kind : TokenKind} (hkind : kind ∈ TokenKind.keywords) :
      IsLexeme line kind.spelling.toList ⟨kind, kind.spelling, none, some line⟩
  | identifier {first : Char} {others : List Char} (hfirst : first.isAlpha ∨ first = '_')
      (hothers : ∀ c ∈ others, c.isAlphanum)
      (hkeyword : ∀ kind ∈ TokenKind.keywords, kind.spelling ≠ String.ofList (first :: others)) :
      IsLexeme line (first :: others)
        ⟨.identifier, String.ofList (first :: others),
          some (.text (String.ofList (first :: others))), some line⟩
  | quotation {inside : List Char} (hinside : '"' ∉ inside) :
      IsLexeme line ('"' :: (inside ++ ['"']))
        ⟨.text, String.ofList inside, some (.text (String.ofList inside)), some line⟩
  | comment {inside : List Char} (hinside : '\n' ∉ inside) :
      IsLexeme line ('/' :: '/' :: inside)
        ⟨.comment, String.ofList ('/' :: '/' :: inside), none, none⟩
  | blank {run : List Char} (hne : run ≠ [])
      (hrun : ∀ c ∈ run, c ∈ [' ', '\t', '\r', '\n']) :
      IsLexeme line run ⟨.blank, String.ofList run, none, none⟩

variable {line : Nat} {c : Char} {rest : List Char} {t : Token}

/-! ## Lexemes that stand alone -/

theorem runLength_of_all {p : Char → Bool} {text : List Char} (h : ∀ c ∈ text, p c) :
    runLength p text = text.length := by
  rw [runLength, List.takeWhile_eq_self_iff.mpr h]

theorem runLength_of_all_append {p : Char → Bool} {text : List Char} (h : ∀ c ∈ text, p c)
    (hc : p c = false) (after : List Char) : runLength p (text ++ c :: after) = text.length := by
  rw [runLength, List.takeWhile_append_of_pos h,
    List.takeWhile_cons_of_neg (Bool.eq_false_iff.mp hc), List.append_nil]

theorem numberLength_of_all (h : ∀ c ∈ rest, c.isDigit) : numberLength rest = rest.length := by
  rw [numberLength, runLength_of_all h, List.drop_length]

/-- A point belongs to a number if a digit follows it. -/
theorem numberLength_append_point {digits : List Char} {d : Char} (others : List Char)
    (hdigits : ∀ c ∈ digits, c.isDigit) (hd : d.isDigit) :
    numberLength (digits ++ '.' :: d :: others) =
      digits.length + 2 + runLength Char.isDigit others := by
  have hrun : runLength Char.isDigit (digits ++ '.' :: d :: others) = digits.length :=
    runLength_of_all_append hdigits rfl (d :: others)
  simp only [numberLength, hrun, List.drop_left, hd, if_true]

theorem numberValue_append_point {digits places : List Char} (h : ∀ c ∈ digits, c.isDigit) :
    Value.number (numberValue (digits ++ '.' :: places)) = singleOf digits places := by
  rw [numberValue, List.takeWhile_append_of_pos h, List.dropWhile_append_of_pos h, singleOf,
    List.takeWhile_cons_of_neg (by decide), List.dropWhile_cons_of_neg (by decide),
    List.append_nil]
  rfl

theorem numberValue_of_all {digits : List Char} (h : ∀ c ∈ digits, c.isDigit) :
    Value.number (numberValue digits) = singleOf digits [] := by
  rw [numberValue, List.takeWhile_eq_self_iff.mpr h, List.dropWhile_eq_nil_iff.mpr h, singleOf]
  rfl

theorem keyword?_spelling {kind : TokenKind} (h : kind ∈ TokenKind.keywords) :
    TokenKind.keyword? kind.spelling = some kind := by
  revert kind
  decide

theorem keyword?_eq_none {word : String} (h : ∀ kind ∈ TokenKind.keywords, kind.spelling ≠ word) :
    TokenKind.keyword? word = none := by
  apply List.find?_eq_none.mpr
  intro kind hkind
  rw [beq_iff_eq]
  exact h kind hkind

theorem runLength_quotation {inside : List Char} (h : '"' ∉ inside) (after : List Char) :
    runLength (· != '"') (inside ++ '"' :: after) = inside.length := by
  apply runLength_of_all_append _ rfl
  intro d hd
  exact bne_iff_ne.mpr fun heq => h (heq ▸ hd)

/-- A quotation ends with the next quote. -/
theorem cut_quotation {inside : List Char} (h : '"' ∉ inside) (after : List Char) :
    cut '"' (inside ++ '"' :: after) = (.quotation, inside.length + 1) := by
  rw [cut_of_not_mem_signs (by decide), if_pos rfl, runLength_quotation h, if_pos]
  rw [List.length_append, List.length_cons]
  omega

/-- A word is cut as a whole, be it a keyword or an identifier. -/
theorem front_word (hfirst : startsWord c) (hrest : ∀ d ∈ rest, d.isAlphanum) :
    (cut c rest).2 = rest.length ∧ front line c rest = ⟨.word, c :: rest, line⟩ := by
  have hcut : cut c rest = (.word, rest.length) := by
    rw [cut_word hfirst, runLength_of_all hrest]
  rw [front, hcut, List.take_length]
  exact ⟨rfl, rfl⟩

/-- A lexeme that stands alone is one piece, and its token is that of the lexeme. -/
theorem outcome_of_isLexeme {text : List Char} (h : IsLexeme line text t) :
    ∃ c rest, text = c :: rest ∧ (cut c rest).2 = rest.length ∧
      (front line c rest).outcome = .ok t := by
  cases h with
  | sign hkind =>
      simp only [signKinds, List.mem_cons, List.not_mem_nil, or_false] at hkind
      rcases hkind with rfl | rfl | rfl | rfl | rfl | rfl | rfl | rfl | rfl | rfl | rfl | rfl |
        rfl | rfl | rfl | rfl | rfl | rfl | rfl <;> exact ⟨_, _, rfl, rfl, rfl⟩
  | whole hne hdigits =>
      obtain ⟨c, rest, rfl⟩ := List.exists_cons_of_ne_nil hne
      obtain ⟨hc, hrest⟩ := List.forall_mem_cons.mp hdigits
      have hcut : cut c rest = (.number, rest.length) := by
        rw [cut_digit hc, numberLength_of_all hrest]
      refine ⟨c, rest, rfl, by rw [hcut], ?_⟩
      rw [front, hcut, List.take_length, Piece.outcome, numberValue_of_all hdigits]
  | @fraction digits places hne hdigits hneplaces hplaces =>
      obtain ⟨c, others, rfl⟩ := List.exists_cons_of_ne_nil hne
      obtain ⟨hc, hothers⟩ := List.forall_mem_cons.mp hdigits
      obtain ⟨d, more, rfl⟩ := List.exists_cons_of_ne_nil hneplaces
      obtain ⟨hd, hmore⟩ := List.forall_mem_cons.mp hplaces
      have hcut : cut c (others ++ '.' :: d :: more) =
          (.number, (others ++ '.' :: d :: more).length) := by
        rw [cut_digit hc, numberLength_append_point more hothers hd, runLength_of_all hmore,
          List.length_append, List.length_cons, List.length_cons]
        congr 1
        omega
      refine ⟨c, others ++ '.' :: d :: more, rfl, by rw [hcut], ?_⟩
      rw [front, hcut, List.take_length, Piece.outcome, ← List.cons_append,
        numberValue_append_point hdigits]
  | @keyword kind hkind =>
      have hall : ∀ kind ∈ TokenKind.keywords, (kind.spelling.toList.head?.any startsWord) ∧
          kind.spelling.toList.tail.all Char.isAlphanum := by decide
      obtain ⟨hhead, htail⟩ := hall kind hkind
      cases htext : kind.spelling.toList with
      | nil =>
          rw [htext] at hhead
          cases hhead
      | cons c rest =>
          rw [htext] at hhead htail
          have hrest : ∀ d ∈ rest, d.isAlphanum := List.all_eq_true.mp htail
          obtain ⟨hlength, hfront⟩ :
              (cut c rest).2 = rest.length ∧ front line c rest = ⟨.word, c :: rest, line⟩ :=
            front_word hhead hrest
          refine ⟨c, rest, rfl, hlength, ?_⟩
          rw [hfront, Piece.outcome, ← htext, String.ofList_toList, keyword?_spelling hkind]
          rfl
  | @identifier first others hfirst hothers hkeyword =>
      have hstarts : startsWord first := by
        simpa [startsWord] using hfirst
      obtain ⟨hlength, hfront⟩ :
          (cut first others).2 = others.length ∧
            front line first others = ⟨.word, first :: others, line⟩ :=
        front_word hstarts hothers
      refine ⟨first, others, rfl, hlength, ?_⟩
      rw [hfront, Piece.outcome]
      dsimp only
      rw [keyword?_eq_none hkeyword]
  | @quotation inside hinside =>
      refine ⟨'"', inside ++ ['"'], rfl, ?_, ?_⟩
      · rw [cut_quotation hinside, List.length_append, List.length_singleton]
      · rw [front, cut_quotation hinside, List.take_of_length_le (by simp), Piece.outcome]
        simp
  | @comment inside hinside =>
      have hcut : cut '/' ('/' :: inside) = (.comment, ('/' :: inside).length) := by
        rw [cut_comment, runLength_of_all, List.length_cons, Nat.add_comm]
        intro d hd
        exact bne_iff_ne.mpr fun heq => hinside (heq ▸ hd)
      refine ⟨'/', '/' :: inside, rfl, by rw [hcut], ?_⟩
      rw [front, hcut, List.take_length, Piece.outcome]
  | blank hne hrun =>
      obtain ⟨c, rest, rfl⟩ := List.exists_cons_of_ne_nil hne
      have hblank : ∀ d ∈ c :: rest, isBlank d := by
        intro d hd
        simpa [isBlank_iff] using hrun d hd
      obtain ⟨hc, hrest⟩ := List.forall_mem_cons.mp hblank
      have hcut : cut c rest = (.blank, rest.length) := by
        rw [cut_blank hc, runLength_of_all hrest]
      refine ⟨c, rest, rfl, by rw [hcut], ?_⟩
      rw [front, hcut, List.take_length, Piece.outcome]

/-! ## Pieces with more behind them -/

theorem runLength_le_append (p : Char → Bool) (text after : List Char) :
    runLength p text ≤ runLength p (text ++ after) := by
  rw [runLength, runLength, List.takeWhile_append]
  split
  · next hall =>
    rw [List.length_append, hall]
    exact Nat.le_add_right _ _
  · exact Nat.le_refl _

/-- The digits of a number, and the point and the digits after it, if it has any. -/
theorem take_numberLength (text : List Char) :
    text.take (numberLength text) = text.takeWhile Char.isDigit ∨
      ∃ places, places ≠ [] ∧ (∀ d ∈ places, d.isDigit) ∧
        text.take (numberLength text) = text.takeWhile Char.isDigit ++ '.' :: places := by
  have hwhole : text.take (runLength Char.isDigit text) = text.takeWhile Char.isDigit :=
    take_runLength _ _
  rw [numberLength]
  split
  · next d after hdrop =>
    split
    · next hd =>
      refine Or.inr ⟨d :: after.takeWhile Char.isDigit, List.cons_ne_nil _ _, ?_, ?_⟩
      · exact List.forall_mem_cons.mpr ⟨hd, List.all_eq_true.mp List.all_takeWhile⟩
      · rw [Nat.add_assoc, List.take_add, hwhole, hdrop, Nat.add_comm 2, List.take_succ_cons,
          List.take_succ_cons, take_runLength]
    · exact Or.inl hwhole
  · exact Or.inl hwhole

theorem runLength_le_numberLength (text : List Char) :
    runLength Char.isDigit text ≤ numberLength text := by
  rw [numberLength]
  split
  · split <;> omega
  · exact Nat.le_refl _

theorem le_numberLength_append {text : List Char} (h : numberLength text = text.length)
    (after : List Char) : text.length ≤ numberLength (text ++ after) := by
  have hdigits : ∀ d ∈ text.takeWhile Char.isDigit, d.isDigit :=
    List.all_eq_true.mp List.all_takeWhile
  rcases take_numberLength text with hwhole | ⟨places, hne, hplaces, hfraction⟩
  · rw [h, List.take_length] at hwhole
    calc text.length
        = runLength Char.isDigit text := congrArg List.length hwhole
      _ ≤ runLength Char.isDigit (text ++ after) := runLength_le_append _ _ _
      _ ≤ numberLength (text ++ after) := runLength_le_numberLength _
  · rw [h, List.take_length] at hfraction
    obtain ⟨d, others, rfl⟩ := List.exists_cons_of_ne_nil hne
    obtain ⟨hd, hothers⟩ := List.forall_mem_cons.mp hplaces
    have hrun := runLength_le_append Char.isDigit others after
    rw [runLength_of_all hothers] at hrun
    have hnumber := numberLength_append_point (others ++ after) hdigits hd
    rw [hfraction, List.append_assoc, List.cons_append, List.cons_append, hnumber,
      List.length_append, List.length_cons, List.length_cons]
    omega

/-- A piece that takes all there is takes as much when more follows. -/
theorem le_cut_append (h : (cut c rest).2 = rest.length) (after : List Char) :
    rest.length ≤ (cut c (rest ++ after)).2 := by
  have hrun := runLength_le_append
  by_cases hsign : c ∈ signs
  · -- A sign takes at most the next character, unless it begins a comment.
    match rest with
    | [] => exact Nat.zero_le _
    | d :: others =>
        rcases mem_signs_cases hsign with ⟨k, hsingle⟩ | ⟨⟨plain, long⟩, hsuffixed⟩ | rfl
        · rw [cut_single hsingle] at h
          cases h
        · rw [List.cons_append, cut_equalSuffixed hsuffixed] at *
          by_cases hhead : d = '='
          · subst hhead
            exact Nat.le_of_eq h.symm
          · rw [if_neg (by simpa using hhead)] at h
            cases h
        · by_cases hhead : d = '/'
          · subst hhead
            have hothers := hrun (· != '\n') others after
            rw [cut_comment, List.length_cons] at h
            rw [List.cons_append, cut_comment, List.length_cons]
            omega
          · rw [cut_slash (by simpa using hhead)] at h
            cases h
  · rw [cut_of_not_mem_signs hsign] at h ⊢
    -- All the other shapes are runs, which more characters can only make longer.
    by_cases hquote : c = '"'
    · rw [if_pos hquote] at h ⊢
      dsimp only at h ⊢
      have hinside := hrun (· != '"') rest after
      by_cases hclosed : runLength (· != '"') rest < rest.length
      · have hsame := runLength_append_of_lt hclosed after
        rw [if_pos hclosed] at h
        rw [hsame, if_pos (by rw [List.length_append]; omega)]
        exact Nat.le_of_eq h.symm
      · rw [if_neg hclosed] at h
        split <;> dsimp only at h ⊢ <;> omega
    · rw [if_neg hquote] at h ⊢
      by_cases hblank : isBlank c
      · rw [if_pos hblank] at h ⊢
        exact h ▸ hrun isBlank rest after
      · rw [if_neg hblank] at h ⊢
        by_cases hdigit : c.isDigit
        · rw [if_pos hdigit] at h ⊢
          exact le_numberLength_append h after
        · rw [if_neg hdigit] at h ⊢
          by_cases hword : startsWord c
          · rw [if_pos hword] at h ⊢
            exact h ▸ hrun Char.isAlphanum rest after
          · rw [if_neg hword] at h ⊢
            exact Nat.le_of_eq h.symm

/-! ## Pieces that are lexemes -/

/-- The first piece has a token, and is the lexeme of this token. -/
def FrontIsLexeme (line : Nat) (c : Char) (rest : List Char) : Prop :=
  ∃ t, (front line c rest).outcome = .ok t ∧ IsLexeme line (front line c rest).text t

theorem mem_signKinds_of_cut {k : TokenKind} {n : Nat} (h : cut c rest = (.fixed k, n)) :
    k ∈ signKinds := by
  have hkinds : signs.all fun d => (single? d).all (· ∈ signKinds) &&
      (equalSuffixed? d).all fun ks => ks.1 ∈ signKinds ∧ ks.2 ∈ signKinds := by decide
  have hmem := (cut_eq_fixed h).1
  have hc := List.all_eq_true.mp hkinds c hmem
  rw [Bool.and_eq_true] at hc
  rcases mem_signs_cases hmem with ⟨_, hsingle⟩ | ⟨⟨plain, long⟩, hsuffixed⟩ | rfl
  · rw [cut_single hsingle] at h
    cases h
    simpa [hsingle] using hc.1
  · have hboth : plain ∈ signKinds ∧ long ∈ signKinds := by simpa [hsuffixed] using hc.2
    rw [cut_equalSuffixed hsuffixed] at h
    split at h
    · cases h
      exact hboth.2
    · cases h
      exact hboth.1
  · by_cases hhead : rest.head? = some '/'
    · obtain ⟨after, rfl⟩ := List.head?_eq_some_iff.mp hhead
      cases h
    · rw [cut_slash hhead] at h
      cases h
      decide

theorem frontIsLexeme_fixed {k : TokenKind} {n : Nat} (h : cut c rest = (.fixed k, n)) :
    FrontIsLexeme line c rest := by
  have hspelling := (cut_eq_fixed h).2.2.1
  have htext : (front line c rest).text = k.spelling.toList := by
    rw [front, h, hspelling, String.toList_ofList]
  refine ⟨⟨k, k.spelling, none, some line⟩, by rw [Piece.outcome, front, h]; rfl, ?_⟩
  rw [htext]
  exact .sign (mem_signKinds_of_cut h)

theorem frontIsLexeme_comment (after : List Char) : FrontIsLexeme line '/' ('/' :: after) := by
  have htext : (front line '/' ('/' :: after)).text =
      '/' :: '/' :: after.takeWhile (· != '\n') := by
    rw [front, cut_comment, Nat.add_comm, List.take_succ_cons, take_runLength]
  refine ⟨⟨.comment, String.ofList (front line '/' ('/' :: after)).text, none, none⟩, ?_, ?_⟩
  · rw [Piece.outcome, front, cut_comment]
  · rw [htext]
    refine .comment ?_
    intro hmem
    exact absurd (List.all_eq_true.mp List.all_takeWhile _ hmem) (by decide)

theorem frontIsLexeme_quotation (h : '"' ∈ rest) : FrontIsLexeme line '"' rest := by
  obtain ⟨inside, after, rfl, hinside⟩ := List.eq_append_cons_of_mem h
  have htake : (inside ++ '"' :: after).take (inside.length + 1) = inside ++ ['"'] := by
    rw [← List.singleton_append, ← List.append_assoc, List.take_left' (by simp)]
  have hfront : front line '"' (inside ++ '"' :: after) =
      ⟨.quotation, '"' :: (inside ++ ['"']), line⟩ := by
    rw [front, cut_quotation hinside, htake]
  rw [FrontIsLexeme, hfront]
  refine ⟨_, ?_, .quotation hinside⟩
  rw [Piece.outcome]
  dsimp only
  rw [List.drop_succ_cons, List.drop_zero, List.dropLast_concat]

theorem frontIsLexeme_blank (h : isBlank c) : FrontIsLexeme line c rest := by
  have hcut : cut c rest = (.blank, runLength isBlank rest) := cut_blank h
  have htext : (front line c rest).text = c :: rest.takeWhile isBlank := by
    rw [front, hcut, take_runLength]
  refine ⟨⟨.blank, String.ofList (front line c rest).text, none, none⟩, ?_, ?_⟩
  · rw [Piece.outcome, front, hcut]
  · rw [htext]
    refine .blank (List.cons_ne_nil _ _) ?_
    intro d hd
    have hblank : isBlank d := by
      rcases List.mem_cons.mp hd with rfl | hd
      · exact h
      · exact List.all_eq_true.mp List.all_takeWhile _ hd
    simpa [isBlank_iff] using hblank

theorem frontIsLexeme_number (h : c.isDigit) : FrontIsLexeme line c rest := by
  have hcut : cut c rest = (.number, numberLength rest) := cut_digit h
  have hdigits : ∀ d ∈ c :: rest.takeWhile Char.isDigit, d.isDigit :=
    List.forall_mem_cons.mpr ⟨h, List.all_eq_true.mp List.all_takeWhile⟩
  have hne : c :: rest.takeWhile Char.isDigit ≠ [] := List.cons_ne_nil _ _
  rcases take_numberLength rest with hwhole | ⟨places, hneplaces, hplaces, hfraction⟩
  · rw [FrontIsLexeme, front, hcut, hwhole]
    refine ⟨_, ?_, .whole hne hdigits⟩
    rw [Piece.outcome, numberValue_of_all hdigits]
  · rw [FrontIsLexeme, front, hcut, hfraction, ← List.cons_append]
    refine ⟨_, ?_, .fraction hne hdigits hneplaces hplaces⟩
    rw [Piece.outcome, numberValue_append_point hdigits]

theorem frontIsLexeme_word (h : startsWord c) : FrontIsLexeme line c rest := by
  have hothers : ∀ d ∈ rest.takeWhile Char.isAlphanum, d.isAlphanum :=
    List.all_eq_true.mp List.all_takeWhile
  have hfront : front line c rest = ⟨.word, c :: rest.takeWhile Char.isAlphanum, line⟩ := by
    rw [front, cut_word h, take_runLength]
  rw [FrontIsLexeme, hfront]
  generalize rest.takeWhile Char.isAlphanum = others at hothers
  by_cases hkeyword : ∃ kind ∈ TokenKind.keywords, kind.spelling = String.ofList (c :: others)
  · obtain ⟨kind, hkind, hspelling⟩ := hkeyword
    have htext : c :: others = kind.spelling.toList := by rw [hspelling, String.toList_ofList]
    refine ⟨⟨kind, kind.spelling, none, some line⟩, ?_, ?_⟩
    · rw [Piece.outcome, ← hspelling, keyword?_spelling hkind]
      rfl
    · rw [htext]
      exact .keyword hkind
  · have hnone : ∀ kind ∈ TokenKind.keywords, kind.spelling ≠ String.ofList (c :: others) :=
      fun kind hkind heq => hkeyword ⟨kind, hkind, heq⟩
    have hfirst : c.isAlpha ∨ c = '_' := by
      simpa [startsWord] using h
    refine ⟨_, ?_, .identifier hfirst hothers hnone⟩
    rw [Piece.outcome]
    dsimp only
    rw [keyword?_eq_none hnone]

/-- Only a character that starts no lexeme, and a quote without another, are problems. -/
theorem frontIsLexeme_or (line : Nat) (c : Char) (rest : List Char) :
    FrontIsLexeme line c rest ∨
      (c ≠ '"' ∧ ∀ others, cut c others = (.unknown, 0)) ∨
      c = '"' ∧ '"' ∉ rest := by
  by_cases hsign : c ∈ signs
  · by_cases hcomment : c = '/' ∧ rest.head? = some '/'
    · obtain ⟨rfl, hhead⟩ := hcomment
      obtain ⟨after, rfl⟩ := List.head?_eq_some_iff.mp hhead
      exact Or.inl (frontIsLexeme_comment after)
    · obtain ⟨k, n, hcut⟩ := cut_of_mem_signs hsign hcomment
      exact Or.inl (frontIsLexeme_fixed hcut)
  · by_cases hquote : c = '"'
    · subst hquote
      by_cases hclosed : '"' ∈ rest
      · exact Or.inl (frontIsLexeme_quotation hclosed)
      · exact Or.inr (Or.inr ⟨rfl, hclosed⟩)
    · by_cases hblank : isBlank c
      · exact Or.inl (frontIsLexeme_blank hblank)
      · by_cases hdigit : c.isDigit
        · exact Or.inl (frontIsLexeme_number hdigit)
        · by_cases hword : startsWord c
          · exact Or.inl (frontIsLexeme_word hword)
          · exact Or.inr (Or.inl
              ⟨hquote, fun others => cut_unknown hsign hquote hblank hdigit hword⟩)

theorem cut_openQuotation (h : '"' ∉ rest) : cut '"' rest = (.openQuotation, rest.length) := by
  have hrun : runLength (· != '"') rest = rest.length := by
    apply runLength_of_all
    intro d hd
    exact bne_iff_ne.mpr fun heq => h (heq ▸ hd)
  rw [cut_of_not_mem_signs (by decide), if_pos rfl, hrun]
  simp

/-! ## The rule -/

/-- A text is the longest lexeme that the rest of a source begins with. -/
structure IsLongest (line : Nat) (rest text : List Char) (t : Token) : Prop where
  lexeme : IsLexeme line text t
  front : text <+: rest
  longest : ∀ other u, other <+: rest → IsLexeme line other u → other.length ≤ text.length

/-- The rest of a source begins with no lexeme. -/
def BeginsNoLexeme (line : Nat) (rest : List Char) : Prop :=
  ∀ text t, text <+: rest → ¬IsLexeme line text t

/-- What comes off the front of `rest`, when `before` is the part of the source in front of
it: a text with its token, or with the line and the wording of a problem. -/
inductive IsPiece (before rest : List Char) :
    List Char → Except (Nat × String) Token → Prop where
  | lexeme {text : List Char} {t : Token} (h : IsLongest (1 + lineEnds before) rest text t) :
      IsPiece before rest text (.ok t)
  | unknown {c : Char} {after : List Char} (hrest : rest = c :: after) (hquote : c ≠ '"')
      (hnone : BeginsNoLexeme (1 + lineEnds before) rest) :
      IsPiece before rest [c]
        (.error (1 + lineEnds before, "Unknown token " ++ String.singleton c))
  | openQuotation {after : List Char} (hrest : rest = '"' :: after) (hopen : '"' ∉ after)
      (hnone : BeginsNoLexeme (1 + lineEnds before) rest) :
      IsPiece before rest rest
        (.error (1 + lineEnds (before ++ rest), "Unterminated string"))

/-- A text that is cut off a source, with its token, or with the line and the wording of a
problem. -/
abbrev Cutting := List Char × Except (Nat × String) Token

/-- The rest of a source after `before` is cut into pieces, none of them empty, up to the
end. -/
inductive IsCut : List Char → List Char → List Cutting → Prop where
  | nil {before : List Char} : IsCut before [] []
  | cons {before text after : List Char} {outcome : Except (Nat × String) Token}
      {pieces : List Cutting} (hne : text ≠ [])
      (hpiece : IsPiece before (text ++ after) text outcome)
      (hafter : IsCut (before ++ text) after pieces) :
      IsCut before (text ++ after) ((text, outcome) :: pieces)

/-! ## There is one way to cut -/

theorem IsLexeme.unique {text : List Char} {u : Token} (ht : IsLexeme line text t)
    (hu : IsLexeme line text u) : t = u := by
  obtain ⟨c, rest, rfl, -, houtcome⟩ := outcome_of_isLexeme ht
  obtain ⟨c', rest', heq, -, houtcome'⟩ := outcome_of_isLexeme hu
  cases heq
  rw [houtcome] at houtcome'
  exact Except.ok.inj houtcome'

theorem IsPiece.unique {before rest a b : List Char} {x y : Except (Nat × String) Token}
    (ha : IsPiece before rest a x) (hb : IsPiece before rest b y) : a = b ∧ x = y := by
  cases ha with
  | lexeme h =>
      cases hb with
      | lexeme h' =>
          have hlength := Nat.le_antisymm (h'.longest _ _ h.front h.lexeme)
            (h.longest _ _ h'.front h'.lexeme)
          have hsame : a = b :=
            (List.prefix_of_prefix_length_le h.front h'.front
              (Nat.le_of_eq hlength)).eq_of_length hlength
          subst hsame
          exact ⟨rfl, congrArg _ (h.lexeme.unique h'.lexeme)⟩
      | unknown _ _ hnone => exact (hnone _ _ h.front h.lexeme).elim
      | openQuotation _ _ hnone => exact (hnone _ _ h.front h.lexeme).elim
  | unknown hrest hquote hnone =>
      cases hb with
      | lexeme h => exact (hnone _ _ h.front h.lexeme).elim
      | unknown hrest' =>
          rw [hrest] at hrest'
          cases hrest'
          exact ⟨rfl, rfl⟩
      | openQuotation hrest' =>
          rw [hrest] at hrest'
          cases hrest'
          exact (hquote rfl).elim
  | openQuotation hrest hopen hnone =>
      cases hb with
      | lexeme h => exact (hnone _ _ h.front h.lexeme).elim
      | unknown hrest' hquote =>
          rw [hrest] at hrest'
          cases hrest'
          exact (hquote rfl).elim
      | openQuotation => exact ⟨rfl, rfl⟩

theorem IsCut.unique {before rest : List Char} {a b : List Cutting}
    (ha : IsCut before rest a) (hb : IsCut before rest b) : a = b := by
  induction ha generalizing b with
  | nil =>
      generalize hrest : ([] : List Char) = rest at hb
      cases hb with
      | nil => rfl
      | cons hne => exact (hne (List.append_eq_nil_iff.mp hrest.symm).1).elim
  | @cons before text after outcome pieces hne hpiece _ ih =>
      generalize hrest : text ++ after = rest at hb
      cases hb with
      | nil => exact (hne (List.append_eq_nil_iff.mp hrest).1).elim
      | cons _ hpiece' hafter' =>
          rw [hrest] at hpiece
          obtain ⟨rfl, rfl⟩ := hpiece.unique hpiece'
          obtain rfl := List.append_cancel_left hrest
          rw [ih hafter']

theorem IsCut.flatten {before rest : List Char} {pieces : List Cutting}
    (h : IsCut before rest pieces) : (pieces.map Prod.fst).flatten = rest := by
  induction h with
  | nil => rfl
  | cons _ _ _ ih => rw [List.map_cons, List.flatten_cons, ih]

/-! ## Sources are cut by the rule -/

/-- No lexeme in front of a source is longer than its first piece. -/
theorem length_le_of_isLexeme {text : List Char} (hfront : text <+: c :: rest)
    (h : IsLexeme line text t) : text.length ≤ (front line c rest).text.length := by
  obtain ⟨d, others, rfl, hwhole, -⟩ := outcome_of_isLexeme h
  obtain ⟨after, happend⟩ := hfront
  rw [List.cons_append, List.cons.injEq] at happend
  obtain ⟨rfl, rfl⟩ := happend
  have hle := le_cut_append hwhole after
  have hcut : (cut d (others ++ after)).2 ≤ (others ++ after).length := cut_snd_le
  rw [front, List.length_cons, List.length_cons, List.length_take]
  omega

/-- A piece with its problem in words. -/
def cutting (p : Piece) : Cutting :=
  (p.text, p.outcome.mapError fun e => (e.line, e.cause.message))

/-- The problem of a piece, if it has one. -/
def problem? (p : Cutting) : Option (Nat × String) :=
  match p.2 with
  | .ok _ => none
  | .error problem => some problem

theorem isPiece_front {before : List Char} (h : line = 1 + lineEnds before) :
    IsPiece before (c :: rest) (front line c rest).text (cutting (front line c rest)).2 := by
  subst h
  rcases frontIsLexeme_or (1 + lineEnds before) c rest with
    ⟨t, houtcome, hlexeme⟩ | ⟨hquote, hcut⟩ | ⟨rfl, hopen⟩
  · rw [cutting, houtcome]
    refine .lexeme ⟨hlexeme, ⟨behind c rest, text_append_behind⟩, ?_⟩
    intro other u hfront hother
    exact length_le_of_isLexeme hfront hother
  · have hfront : front (1 + lineEnds before) c rest = ⟨.unknown, [c], 1 + lineEnds before⟩ := by
      rw [front, hcut, List.take_zero]
    rw [cutting, hfront]
    refine .unknown rfl hquote ?_
    intro text t hprefix hlexeme
    obtain ⟨d, others, rfl, -, houtcome⟩ := outcome_of_isLexeme hlexeme
    obtain ⟨after, happend⟩ := hprefix
    cases happend
    rw [Piece.outcome, front, hcut] at houtcome
    cases houtcome
  · have hfront : front (1 + lineEnds before) '"' rest =
        ⟨.openQuotation, '"' :: rest, 1 + lineEnds before⟩ := by
      rw [front, cut_openQuotation hopen, List.take_length]
    have hline : 1 + lineEnds before + lineEnds ('"' :: rest) =
        1 + lineEnds (before ++ '"' :: rest) := by
      rw [lineEnds_append, Nat.add_assoc]
    rw [cutting, hfront, Piece.outcome, Piece.endLine, hline]
    refine .openQuotation rfl hopen ?_
    intro text t hprefix hlexeme
    obtain ⟨d, others, rfl, -, houtcome⟩ := outcome_of_isLexeme hlexeme
    obtain ⟨after, happend⟩ := hprefix
    cases happend
    have hothers : '"' ∉ others := fun hmem => hopen (List.mem_append_left _ hmem)
    rw [Piece.outcome, front, cut_openQuotation hothers] at houtcome
    cases houtcome

theorem isCut_pieces (before source : List Char) :
    IsCut before source ((pieces (1 + lineEnds before) source).map cutting) := by
  induction hlength : source.length using Nat.strongRecOn generalizing before source with
  | ind length ih =>
      match source with
      | [] =>
          rw [pieces]
          exact .nil
      | c :: rest =>
          have hle : (behind c rest).length ≤ rest.length := length_behind_le
          have hpiece : IsPiece before (c :: rest) (front (1 + lineEnds before) c rest).text
              (cutting (front (1 + lineEnds before) c rest)).2 := isPiece_front rfl
          have htext : (front (1 + lineEnds before) c rest).text ++ behind c rest = c :: rest :=
            text_append_behind
          -- The rest is cut behind this piece, whose line ends count for the lines of the rest.
          have hafter := ih _ (by rw [← hlength, List.length_cons]; omega)
            (before ++ (front (1 + lineEnds before) c rest).text) (behind c rest) rfl
          rw [lineEnds_append, ← Nat.add_assoc] at hafter
          rw [pieces_cons, List.map_cons]
          rw [← htext] at hpiece ⊢
          exact .cons (List.cons_ne_nil _ _) hpiece hafter

theorem filterMap_cutting (all : List Piece) :
    (all.map cutting).filterMap (·.2.toOption) = all.filterMap Piece.token? ∧
      (all.map cutting).filterMap problem? =
        (all.filterMap Piece.error?).map fun e => (e.line, e.cause.message) := by
  rw [List.filterMap_map, List.filterMap_map, List.map_filterMap]
  constructor <;> congr 1 <;> funext p
  · simp only [Function.comp, cutting, Piece.token?]
    cases p.outcome <;> rfl
  · simp only [Function.comp, cutting, problem?, Piece.error?]
    cases p.outcome <;> rfl

/-- There is one way to cut a source such that every piece is the longest lexeme in its place,
and the tokens and the problems of the source are those of the pieces, in their order. -/
theorem scan_longest_match (source : String) :
    ∃ pieces, IsCut [] source.toList pieces ∧
      (∀ others, IsCut [] source.toList others → others = pieces) ∧
      (pieces.map Prod.fst).flatten = source.toList ∧
      (scan source).tokens = pieces.filterMap (·.2.toOption) ++
        [⟨.endOfInput, "", none, some (1 + lineEnds source.toList)⟩] ∧
      (scan source).errors.map (fun e => (e.line, e.cause.message)) =
        pieces.filterMap problem? := by
  have hcut := isCut_pieces [] source.toList
  obtain ⟨htokens, hproblems⟩ := filterMap_cutting (pieces 1 source.toList)
  refine ⟨_, hcut, fun others h => h.unique hcut, hcut.flatten, ?_, ?_⟩
  · exact congrArg (· ++ _) htokens.symm
  · exact hproblems.symm

end Lexer

end MiniLox
