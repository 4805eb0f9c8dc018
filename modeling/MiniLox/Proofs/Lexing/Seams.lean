import MiniLox.Proofs.Lexing.Pieces

/-!
# Sources in a row

A line end behind a source without problems ends its last piece.  What the characters
behind that line end amount to is therefore the same as in a source of their own, except
for the lines: the numbers of all lines grow by the same amount.
-/

namespace MiniLox

/-- The token some lines further down. -/
def Token.later (lines : Nat) (t : Token) : Token :=
  { t with line := t.line.map (· + lines) }

/-- The problem some lines further down. -/
def LexicalError.later (lines : Nat) (e : LexicalError) : LexicalError :=
  { e with line := e.line + lines }

/-- The piece some lines further down. -/
def Piece.later (lines : Nat) (p : Piece) : Piece :=
  { p with line := p.line + lines }

/-! ## Later lines -/

theorem Piece.later_outcome (lines : Nat) (p : Piece) :
    (p.later lines).outcome =
      (p.outcome.map (Token.later lines)).mapError (LexicalError.later lines) := by
  obtain ⟨shape, text, line⟩ := p
  cases shape with
  | word =>
      simp only [outcome, later]
      cases TokenKind.keyword? (String.ofList text) <;> rfl
  | openQuotation =>
      simp only [outcome, later, endLine]
      rw [Nat.add_right_comm]
      rfl
  | _ => rfl

theorem Piece.later_token? (lines : Nat) (p : Piece) :
    (p.later lines).token? = p.token?.map (Token.later lines) := by
  rw [token?, token?, later_outcome]
  cases p.outcome <;> rfl

theorem Piece.later_error? (lines : Nat) (p : Piece) :
    (p.later lines).error? = p.error?.map (LexicalError.later lines) := by
  rw [error?, error?, later_outcome]
  cases p.outcome <;> rfl

namespace Lexer

variable {line : Nat} {c : Char} {rest : List Char}

theorem pieces_later (lines line : Nat) (source : List Char) :
    pieces (line + lines) source = (pieces line source).map (Piece.later lines) := by
  induction line, source using pieces.induct with
  | case1 line =>
      rw [pieces, pieces]
      rfl
  | case2 line c rest cutting text ih =>
      rw [pieces, pieces, List.map_cons, Nat.add_right_comm]
      exact congrArg (_ :: ·) ih

/-- In a source that starts on a later line, all tokens and problems have later lines. -/
theorem lex_later (lines line : Nat) (source : List Char) :
    lex (line + lines) source =
      ((lex line source).1.map (Token.later lines),
        (lex line source).2.map (LexicalError.later lines)) := by
  have htokens (all : List Piece) : (all.map (Piece.later lines)).filterMap Piece.token? =
      (all.filterMap Piece.token?).map (Token.later lines) := by
    rw [List.filterMap_map, List.map_filterMap]
    exact congrArg (List.filterMap · all) (funext (Piece.later_token? lines))
  have herrors (all : List Piece) : (all.map (Piece.later lines)).filterMap Piece.error? =
      (all.filterMap Piece.error?).map (LexicalError.later lines) := by
    rw [List.filterMap_map, List.map_filterMap]
    exact congrArg (List.filterMap · all) (funext (Piece.later_error? lines))
  rw [lex, pieces_later, htokens, herrors, List.filter_map]
  rfl

/-! ## Where a piece ends -/

variable {a x y : List Char}

/-- A blank comes first, if anything does. -/
def IsStop (text : List Char) : Prop := ∀ d ∈ text.head?, isBlank d

theorem isStop_nil : IsStop [] := nofun

theorem isStop_cons (h : isBlank c) : IsStop (c :: rest) := by
  intro d hd
  cases hd
  exact h

/-- A run that ends among the first characters ends there also when others follow these. -/
theorem runLength_append_eq {p : Char → Bool} (hle : runLength p (a ++ x) ≤ a.length)
    (hy : ∀ d ∈ y.head?, p d = false) : runLength p (a ++ y) = runLength p (a ++ x) := by
  have hnone (text : List Char) (h : ∀ d ∈ text.head?, p d = false) : text.takeWhile p = [] := by
    cases text with
    | nil => rfl
    | cons d after => exact List.takeWhile_cons_of_neg (Bool.eq_false_iff.mp (h d rfl))
  rw [runLength, List.takeWhile_append] at hle
  rw [runLength, runLength, List.takeWhile_append, List.takeWhile_append]
  split
  · next hall =>
    rw [if_pos hall, List.length_append] at hle
    rw [hnone y hy, List.eq_nil_of_length_eq_zero (l := x.takeWhile p) (by omega)]
  · rfl

theorem runLength_append_of_lt {p : Char → Bool} {text : List Char}
    (h : runLength p text < text.length) (after : List Char) :
    runLength p (text ++ after) = runLength p text := by
  rw [runLength, runLength, List.takeWhile_append]
  exact congrArg List.length (if_neg (Nat.ne_of_lt h))

theorem runLength_lt_of_append {p : Char → Bool} (h : runLength p (a ++ x) < a.length) :
    runLength p a < a.length := by
  refine Nat.lt_of_le_of_ne (runLength_le p a) fun hall => ?_
  rw [runLength] at hall
  rw [runLength, List.takeWhile_append, if_pos hall, List.length_append] at h
  omega

/-- The length of a point and of the digits behind it, if there are any. -/
def fractionLength : List Char → Nat
  | '.' :: d :: after => if d.isDigit then 2 + runLength Char.isDigit after else 0
  | _ => 0

theorem numberLength_eq_add (text : List Char) :
    numberLength text = runLength Char.isDigit text +
      fractionLength (text.drop (runLength Char.isDigit text)) := by
  rw [numberLength]
  split
  · next d after hdrop =>
    rw [hdrop, fractionLength]
    split
    · rw [Nat.add_assoc]
    · rfl
  · next hdrop =>
    rw [fractionLength]
    · rfl
    · exact hdrop

theorem fractionLength_eq_zero (h : ∀ d ∈ y.head?, d ≠ '.') : fractionLength y = 0 := by
  rw [fractionLength.eq_def]
  split
  · exact absurd rfl (h _ rfl)
  · rfl

theorem fractionLength_append_eq (hle : fractionLength (a ++ x) ≤ a.length)
    (hy : ∀ d ∈ y.head?, d.isDigit = false ∧ d ≠ '.') :
    fractionLength (a ++ y) = fractionLength (a ++ x) := by
  rcases a with _ | ⟨d, _ | ⟨e, digits⟩⟩
  · exact (fractionLength_eq_zero fun d hd => (hy d hd).2).trans (Nat.eq_zero_of_le_zero hle).symm
  · by_cases hd : d = '.'
    · subst hd
      have hzero : fractionLength ('.' :: y) = 0 := by
        cases y with
        | nil => rfl
        | cons e after => exact if_neg (Bool.eq_false_iff.mp (hy e rfl).1)
      cases x with
      | nil => exact hzero
      | cons e after =>
          by_cases he : e.isDigit
          · have hlength : fractionLength ('.' :: e :: after) =
                2 + runLength Char.isDigit after := if_pos he
            change fractionLength ('.' :: e :: after) ≤ 1 at hle
            omega
          · exact hzero.trans (if_neg he).symm
    · rw [fractionLength_eq_zero, fractionLength_eq_zero]
      all_goals
        rintro _ ⟨⟩
        exact hd
  · by_cases hd : d = '.'
    · subst hd
      simp only [List.cons_append, fractionLength] at hle ⊢
      split
      · next he =>
        rw [if_pos he, List.length_cons, List.length_cons] at hle
        have hrun : runLength Char.isDigit (digits ++ x) ≤ digits.length := by omega
        rw [runLength_append_eq hrun fun d hd => (hy d hd).1]
      · rfl
    · rw [fractionLength_eq_zero, fractionLength_eq_zero]
      all_goals
        rintro _ ⟨⟩
        exact hd

theorem numberLength_append_eq (hle : numberLength (a ++ x) ≤ a.length)
    (hy : ∀ d ∈ y.head?, d.isDigit = false ∧ d ≠ '.') :
    numberLength (a ++ y) = numberLength (a ++ x) := by
  rw [numberLength_eq_add] at hle
  have hwhole_le : runLength Char.isDigit (a ++ x) ≤ a.length := by omega
  have hwhole := runLength_append_eq hwhole_le fun d hd => (hy d hd).1
  rw [List.drop_append_of_le_length hwhole_le] at hle
  rw [numberLength_eq_add, numberLength_eq_add, hwhole, List.drop_append_of_le_length hwhole_le,
    List.drop_append_of_le_length hwhole_le, fractionLength_append_eq _ hy]
  rw [List.length_drop]
  omega

/-- A blank goes on with no other piece. -/
theorem isBlank_not_word (h : isBlank c) :
    c.isDigit = false ∧ c.isAlphanum = false ∧ c ≠ '.' := by
  rcases isBlank_iff.mp h with rfl | rfl | rfl | rfl <;> decide

theorem head?_of_append_isStop {d : Char} (hy : IsStop y) (hd : ¬isBlank d)
    (h : (a ++ y).head? = some d) : a.head? = some d := by
  cases a with
  | nil => exact absurd (hy d h) hd
  | cons => exact h

/-- A piece that ends among the first characters ends there also when a blank follows these. -/
theorem cut_append_eq (hle : (cut c (a ++ x)).2 ≤ a.length) (hy : IsStop y) (hblank : ¬isBlank c)
    (hcomment : ¬(c = '/' ∧ (a ++ x).head? = some '/'))
    (hclosed : (cut c (a ++ x)).1 ≠ .openQuotation) : cut c (a ++ y) = cut c (a ++ x) := by
  have hfirst {d : Char} (h : a.head? = some d) (z : List Char) : (a ++ z).head? = some d := by
    rw [List.head?_append, h]
    rfl
  by_cases hsign : c ∈ signs
  · rcases mem_signs_cases hsign with ⟨k, hsingle⟩ | ⟨⟨plain, long⟩, hsuffixed⟩ | rfl
    · rw [cut_single hsingle, cut_single hsingle]
    · rw [cut_equalSuffixed hsuffixed] at hle
      rw [cut_equalSuffixed hsuffixed, cut_equalSuffixed hsuffixed]
      have hequal : (a ++ y).head? = some '=' ↔ (a ++ x).head? = some '=' := by
        refine ⟨fun h => hfirst (head?_of_append_isStop hy (by decide) h) x, fun h => ?_⟩
        rw [if_pos h] at hle
        cases a with
        | nil => exact absurd hle (Nat.not_succ_le_zero 0)
        | cons => exact h
      simp only [hequal]
    · have hslash : (a ++ x).head? ≠ some '/' := fun h => hcomment ⟨rfl, h⟩
      rw [cut_slash hslash, cut_slash]
      exact fun h => hslash (hfirst (head?_of_append_isStop hy (by decide) h) x)
  · rw [cut_of_not_mem_signs hsign] at hle hclosed
    rw [cut_of_not_mem_signs hsign, cut_of_not_mem_signs hsign]
    by_cases hquote : c = '"'
    · rw [if_pos hquote] at hle hclosed
      dsimp only at hle hclosed
      by_cases hinside : runLength (· != '"') (a ++ x) < (a ++ x).length
      · rw [if_pos hinside] at hle
        have hlt := runLength_lt_of_append hle
        have hlonger : runLength (· != '"') a < (a ++ y).length :=
          Nat.lt_of_lt_of_le hlt (List.length_append ▸ Nat.le_add_right _ _)
        rw [runLength_append_of_lt hlt] at hinside
        rw [if_pos hquote, if_pos hquote]
        dsimp only
        rw [runLength_append_of_lt hlt, runLength_append_of_lt hlt, if_pos hinside,
          if_pos hlonger]
      · rw [if_neg hinside] at hclosed
        exact (hclosed rfl).elim
    · rw [if_neg hquote, if_neg hblank] at hle
      rw [if_neg hquote, if_neg hquote, if_neg hblank, if_neg hblank]
      split
      · next hdigit =>
        rw [if_pos hdigit] at hle
        rw [numberLength_append_eq hle]
        intro d hd
        obtain ⟨hnot, -, hpoint⟩ := isBlank_not_word (hy d hd)
        exact ⟨hnot, hpoint⟩
      · next hdigit =>
        rw [if_neg hdigit] at hle
        split
        · next hword =>
          rw [if_pos hword] at hle
          rw [runLength_append_eq hle fun d hd => (isBlank_not_word (hy d hd)).2.1]
        · rfl

/-- A piece that is closed ends before the line end behind it. -/
theorem cut_append_newline (after : List Char) (hblank : ¬isBlank c)
    (hcomment : ¬(c = '/' ∧ rest.head? = some '/')) (hclosed : (cut c rest).1 ≠ .openQuotation) :
    cut c (rest ++ '\n' :: after) = cut c rest := by
  have hrest : rest ++ [] = rest := List.append_nil rest
  have hle : (cut c (rest ++ [])).2 ≤ rest.length := by
    rw [hrest]
    exact cut_snd_le
  rw [cut_append_eq hle (isStop_cons rfl) hblank (by rwa [hrest]) (by rwa [hrest]), hrest]

/-- The first piece of a source is the same when a line end and more follow the source, if
it is a token other than a blank or a comment. -/
theorem front_append_newline {t : Token} (houtcome : (front line c rest).outcome = .ok t)
    (hblank : ¬isBlank c) (hcomment : ¬(c = '/' ∧ rest.head? = some '/')) (after : List Char) :
    front line c (rest ++ '\n' :: after) = front line c rest ∧
      behind c (rest ++ '\n' :: after) = behind c rest ++ '\n' :: after := by
  have hclosed : (cut c rest).1 ≠ .openQuotation := by
    intro hshape
    rw [Piece.outcome, front, hshape] at houtcome
    cases houtcome
  have hcut := cut_append_newline after hblank hcomment hclosed
  constructor
  · rw [front, front, hcut, List.take_append_of_le_length cut_snd_le]
  · rw [behind, behind, hcut, List.drop_append_of_le_length cut_snd_le]

/-! ## The seam -/

/-- A source without problems, a line end, and another source: the tokens of the one, and
those of the other on later lines. -/
theorem lex_append_newline {a : List Char} (h : (lex line a).2 = []) (b : List Char) :
    lex line (a ++ '\n' :: b) =
      ((lex line a).1 ++ (lex (line + (1 + lineEnds a)) b).1,
        (lex (line + (1 + lineEnds a)) b).2) := by
  induction a using induction_on_pieces generalizing line with
  | nil =>
      rw [List.nil_append, lex_blank (by decide), lex_nil]
      rfl
  | blank c rest hblank ih =>
      rw [lex_blank hblank] at h ⊢
      have hline : line + lineEnds [c] + (1 + lineEnds rest) =
          line + (1 + lineEnds (c :: rest)) := by
        rw [lineEnds_cons c rest]
        omega
      rw [List.cons_append, lex_blank hblank, ih h, hline]
  | comment rest ih =>
      rw [lex_comment] at h ⊢
      have hrest : (rest ++ '\n' :: b).dropWhile (· != '\n') =
          rest.dropWhile (· != '\n') ++ '\n' :: b := by
        rw [List.dropWhile_append]
        split
        · next hempty =>
          rw [List.isEmpty_iff.mp hempty]
          rfl
        · rfl
      have hends : lineEnds ('/' :: '/' :: rest) = lineEnds (rest.dropWhile (· != '\n')) := by
        rw [← comment_append rest, lineEnds_append, lineEnds_comment, Nat.zero_add]
      rw [List.cons_append, List.cons_append, lex_comment, hrest, ih h, hends]
  | piece c rest hblank hcomment ih =>
      obtain ⟨hshapeBlank, hshapeComment⟩ := cut_fst_ne hblank hcomment
      cases houtcome : (front line c rest).outcome with
      | error e =>
          rw [lex_of_outcome_error houtcome] at h
          cases h
      | ok t =>
          obtain ⟨hsemantic, -⟩ := isSemantic_of_outcome houtcome hshapeBlank hshapeComment
          obtain ⟨hfront, hbehind⟩ := front_append_newline houtcome hblank hcomment b
          have hline : (front line c rest).endLine + (1 + lineEnds (behind c rest)) =
              line + (1 + lineEnds (c :: rest)) := by
            rw [lineEnds_front_behind line c rest, Piece.endLine]
            change line + _ + _ = _
            omega
          rw [lex_of_outcome_ok houtcome hsemantic] at h ⊢
          rw [List.cons_append, lex_of_outcome_ok (by rw [hfront]; exact houtcome) hsemantic,
            hfront, hbehind, ih h, hline]
          rfl

end Lexer

end MiniLox
