import Mathlib.Data.List.DropRight
import MiniLox.Proofs.Lexing.Seams

/-!
# Layout

Blanks and comments between the pieces of a source can be added and exchanged.  A separator
starts with a blank, and no piece goes on with a blank: the piece in front of a separator ends
where it has ended before.  It ends with a blank or a line end, and so the piece behind it
starts where it has started.  What a source amounts to is therefore the same, up to the lines,
when separators are put between its pieces and when its blanks are exchanged for separators.

A comment is the one piece that goes on up to a line end.  What stands behind it belongs to it
as far as the next line end, and blanks behind it are exchanged for separators with a line end.
-/

namespace MiniLox

/-- The token without its line. -/
def Token.unlined (t : Token) : Token := { t with line := none }

namespace Lexer

variable {c : Char} {line : Nat} {rest source text : List Char} {ts : List Token}

/-! ## Separators -/

/-- Blanks and comments in a row, each comment with its line end. -/
inductive IsFiller : List Char → Prop
  | nil : IsFiller []
  | blank {c : Char} {rest : List Char} (hc : isBlank c) (h : IsFiller rest) : IsFiller (c :: rest)
  | comment {inside rest : List Char} (hinside : '\n' ∉ inside) (h : IsFiller rest) :
      IsFiller ('/' :: '/' :: (inside ++ '\n' :: rest))

/-- Blanks and comments with a blank in front of them. -/
inductive IsSeparator : List Char → Prop
  | intro {c : Char} {rest : List Char} (hc : isBlank c) (h : IsFiller rest) :
      IsSeparator (c :: rest)

/-- A separator, or nothing. -/
def IsGap (text : List Char) : Prop := text = [] ∨ IsSeparator text

/-- A text that separators have come into: in front of each piece and at the end there may be
one, and each piece of blanks may be exchanged for one.  Behind a comment it must have a line
end when it is exchanged for blanks. -/
inductive Respaced : Bool → List Piece → List Char → Prop
  | finish {afterComment : Bool} {gap : List Char} (hgap : IsGap gap) :
      Respaced afterComment [] gap
  | keep {afterComment : Bool} {gap text : List Char} {p : Piece} {others : List Piece}
      (hgap : IsGap gap) (h : Respaced (p.shape == .comment) others text) :
      Respaced afterComment (p :: others) (gap ++ (p.text ++ text))
  | exchange {afterComment : Bool} {gap separator text : List Char} {p : Piece}
      {others : List Piece} (hgap : IsGap gap) (hblank : p.shape = .blank)
      (hseparator : IsSeparator separator) (hend : afterComment = true → '\n' ∈ separator)
      (h : Respaced false others text) :
      Respaced afterComment (p :: others) (gap ++ (separator ++ text))

theorem IsSeparator.isFiller (h : IsSeparator text) : IsFiller text := by
  obtain ⟨hc, h⟩ := h
  exact .blank hc h

theorem IsGap.isFiller (h : IsGap text) : IsFiller text := by
  rcases h with rfl | h
  · exact .nil
  · exact h.isFiller

theorem IsSeparator.isStop (h : IsSeparator text) (more : List Char) : IsStop (text ++ more) := by
  obtain ⟨hc, -⟩ := h
  exact isStop_cons hc

theorem IsFiller.append {a b : List Char} (ha : IsFiller a) (hb : IsFiller b) :
    IsFiller (a ++ b) := by
  induction ha with
  | nil => exact hb
  | blank hc _ ih => exact .blank hc ih
  | comment hinside _ ih =>
      rw [List.cons_append, List.cons_append, List.append_assoc, List.cons_append]
      exact .comment hinside ih

theorem isFiller_of_all (h : ∀ d ∈ text, isBlank d) : IsFiller text := by
  induction text with
  | nil => exact .nil
  | cons d rest ih =>
      obtain ⟨hd, hrest⟩ := List.forall_mem_cons.mp h
      exact .blank hd (ih hrest)

theorem dropWhile_append_newline {inside : List Char} (h : '\n' ∉ inside) (after : List Char) :
    (inside ++ '\n' :: after).dropWhile (· != '\n') = '\n' :: after := by
  have hall : ∀ d ∈ inside, (d != '\n') = true := by
    intro d hd
    rw [bne_iff_ne]
    rintro rfl
    exact h hd
  rw [List.dropWhile_append_of_pos hall]
  rfl

/-- What is left of blanks and comments at the first line end are blanks and comments. -/
theorem IsFiller.dropWhile (h : IsFiller text) : IsFiller (text.dropWhile (· != '\n')) := by
  induction h with
  | nil => exact .nil
  | @blank c rest hc h ih =>
      rw [List.dropWhile_cons]
      split
      · exact ih
      · exact .blank hc h
  | @comment inside rest hinside h _ =>
      have hslashes : ('/' :: '/' :: (inside ++ '\n' :: rest)).dropWhile (· != '\n') =
          (inside ++ '\n' :: rest).dropWhile (· != '\n') := rfl
      rw [hslashes, dropWhile_append_newline hinside]
      exact .blank rfl h

/-! ## What a source amounts to without lines -/

/-- The source has no problem, and these are its tokens without their lines. -/
def Scans (source : List Char) (ts : List Token) : Prop :=
  (lex 0 source).2 = [] ∧ (lex 0 source).1.map Token.unlined = ts

theorem scans_iff (line : Nat) :
    Scans source ts ↔ (lex line source).2 = [] ∧ (lex line source).1.map Token.unlined = ts := by
  have hlater := lex_later line 0 source
  rw [Nat.zero_add] at hlater
  rw [hlater, List.map_eq_nil_iff, List.map_map]
  rfl

theorem scans_congr {line' : Nat} {other : List Char} (h : lex line source = lex line' other) :
    Scans source ts ↔ Scans other ts := by
  rw [scans_iff line, scans_iff line', h]

theorem scans_blank (h : isBlank c) : Scans (c :: rest) ts ↔ Scans rest ts :=
  scans_congr (@lex_blank 0 c rest h)

theorem scans_comment :
    Scans ('/' :: '/' :: rest) ts ↔ Scans (rest.dropWhile (· != '\n')) ts :=
  scans_congr (@lex_comment 0 rest)

theorem scans_filler (h : IsFiller text) : Scans (text ++ source) ts ↔ Scans source ts := by
  induction h with
  | nil => rfl
  | blank hc _ ih => exact (scans_blank hc).trans ih
  | comment hinside _ ih =>
      rw [List.cons_append, List.cons_append, scans_comment, List.append_assoc,
        List.cons_append, dropWhile_append_newline hinside, scans_blank rfl, ih]

theorem scans_piece {t : Token} (houtcome : (front line c rest).outcome = .ok t)
    (ht : t.isSemantic) :
    Scans (c :: rest) ts ↔
      ∃ others, ts = t.unlined :: others ∧ Scans (behind c rest) others := by
  rw [scans_iff line, lex_of_outcome_ok houtcome ht, List.map_cons]
  constructor
  · rintro ⟨hnone, rfl⟩
    exact ⟨_, rfl, (scans_iff _).mpr ⟨hnone, rfl⟩⟩
  · rintro ⟨others, rfl, hothers⟩
    obtain ⟨hnone, rfl⟩ := (scans_iff (front line c rest).endLine).mp hothers
    exact ⟨hnone, rfl⟩

/-! ## Pieces between separators -/

theorem pieces_eq_cons {p : Piece} {others : List Piece} (h : pieces line source = p :: others) :
    ∃ c rest, source = c :: rest ∧ p = front line c rest ∧
      pieces (front line c rest).endLine (behind c rest) = others := by
  match source with
  | [] =>
      rw [pieces] at h
      cases h
  | c :: rest =>
      rw [pieces_cons] at h
      obtain ⟨hfirst, hothers⟩ := List.cons.inj h
      exact ⟨c, rest, rfl, hfirst.symm, hothers⟩

/-- A text that separators have come into differs from its source first where a separator
begins. -/
theorem Respaced.exists_common {afterComment : Bool} {all : List Piece}
    (h : Respaced afterComment all text) :
    ∀ {line : Nat} {source : List Char}, pieces line source = all →
      ∃ common more other, source = common ++ more ∧ text = common ++ other ∧ IsStop other := by
  induction h with
  | @finish _ gap hgap =>
      intro line source _
      rcases hgap with rfl | hgap
      · exact ⟨[], source, [], rfl, rfl, isStop_nil⟩
      · refine ⟨[], source, gap, rfl, rfl, ?_⟩
        rw [← List.append_nil gap]
        exact hgap.isStop []
  | @keep _ gap text p others hgap _ ih =>
      intro line source hpieces
      rcases hgap with rfl | hgap
      · obtain ⟨c, rest, rfl, rfl, hothers⟩ := pieces_eq_cons hpieces
        obtain ⟨common, more, other, hsource, rfl, hstop⟩ := ih hothers
        refine ⟨(front line c rest).text ++ common, more, other, ?_, ?_, hstop⟩
        · rw [List.append_assoc, ← hsource, text_append_behind]
        · rw [List.nil_append, List.append_assoc]
      · exact ⟨[], source, _, rfl, rfl, hgap.isStop _⟩
  | exchange hgap _ hseparator _ _ _ =>
      intro line source _
      rcases hgap with rfl | hgap
      · exact ⟨[], source, _, rfl, rfl, hseparator.isStop _⟩
      · exact ⟨[], source, _, rfl, rfl, hgap.isStop _⟩

/-- What a text goes on with behind a comment, which takes all up to the line end. -/
def remaining (afterComment : Bool) (text : List Char) : List Char :=
  if afterComment then text.dropWhile (· != '\n') else text

/-- Blanks and comments can be taken off, behind a comment only those that end its line. -/
theorem scans_remaining {afterComment : Bool} (h : IsFiller text)
    (hend : afterComment = true → '\n' ∈ text ∨ source.dropWhile (· != '\n') = source) :
    Scans (remaining afterComment (text ++ source)) ts ↔ Scans source ts := by
  cases afterComment with
  | false => exact scans_filler h
  | true =>
      rw [remaining, if_pos rfl, List.dropWhile_append]
      split
      · next hnone =>
        rcases hend rfl with hmem | hsame
        · obtain ⟨inside, after, rfl, hinside⟩ := List.eq_append_cons_of_mem hmem
          rw [dropWhile_append_newline hinside] at hnone
          cases hnone
        · rw [hsame]
      · exact scans_filler h.dropWhile

/-- The first piece of a source is the same when what stands behind it changes from a place on
where a separator begins. -/
theorem front_append_stop {t : Token} (houtcome : (front line c rest).outcome = .ok t)
    (hblank : ¬isBlank c) (hcomment : ¬(c = '/' ∧ rest.head? = some '/'))
    {common more other : List Char} (hbehind : behind c rest = common ++ more)
    (hstop : IsStop other) :
    ∃ after, (front line c rest).text ++ (common ++ other) = c :: after ∧
      front line c after = front line c rest ∧ behind c after = common ++ other := by
  have hclosed : (cut c rest).1 ≠ .openQuotation := by
    intro hshape
    rw [Piece.outcome, front, hshape] at houtcome
    cases houtcome
  have hlength : (rest.take (cut c rest).2).length = (cut c rest).2 :=
    List.length_take_of_le cut_snd_le
  have hrest : (rest.take (cut c rest).2 ++ common) ++ more = rest := by
    rw [List.append_assoc, ← hbehind, behind, List.take_append_drop]
  have hcut : cut c ((rest.take (cut c rest).2 ++ common) ++ other) = cut c rest := by
    have hle : (cut c ((rest.take (cut c rest).2 ++ common) ++ more)).2 ≤
        (rest.take (cut c rest).2 ++ common).length := by
      rw [hrest, List.length_append, hlength]
      exact Nat.le_add_right _ _
    rw [cut_append_eq hle hstop hblank (by rwa [hrest]) (by rwa [hrest]), hrest]
  refine ⟨(rest.take (cut c rest).2 ++ common) ++ other, ?_, ?_, ?_⟩
  · rw [front, List.cons_append, List.append_assoc]
  · rw [front, front, hcut, List.append_assoc, List.take_left' hlength]
  · rw [behind, hcut, List.append_assoc, List.drop_left' hlength]

theorem isBlank_of_cut (h : (cut c rest).1 = .blank) : isBlank c := by
  by_cases hblank : isBlank c
  · exact hblank
  · by_cases hcomment : c = '/' ∧ rest.head? = some '/'
    · obtain ⟨rfl, hhead⟩ := hcomment
      obtain ⟨after, rfl⟩ := List.head?_eq_some_iff.mp hhead
      cases h
    · exact absurd h (cut_fst_ne hblank hcomment).1

theorem front_comment :
    front line '/' ('/' :: rest) = ⟨.comment, '/' :: '/' :: rest.takeWhile (· != '\n'), line⟩ := by
  simp only [front, cut_comment, Nat.add_comm 1, List.take_succ_cons, take_runLength]

theorem behind_comment : behind '/' ('/' :: rest) = rest.dropWhile (· != '\n') := by
  simp only [behind, cut_comment, Nat.add_comm 1, List.drop_succ_cons, drop_runLength]

theorem dropWhile_takeWhile_append (p : Char → Bool) (text after : List Char) :
    (text.takeWhile p ++ after).dropWhile p = after.dropWhile p :=
  List.dropWhile_append_of_pos (List.all_eq_true.mp List.all_takeWhile)

theorem eq_newline_of_dropWhile (h : (c :: rest).dropWhile (· != '\n') = c :: rest) : c = '\n' := by
  by_cases hc : c = '\n'
  · exact hc
  · have hle := (List.dropWhile_suffix (· != '\n') (l := rest)).length_le
    have hpos : (c != '\n') = true := bne_iff_ne.mpr hc
    rw [List.dropWhile_cons, if_pos hpos] at h
    rw [h, List.length_cons] at hle
    omega

theorem all_front_blank (hblank : isBlank c) : ∀ d ∈ (front line c rest).text, isBlank d := by
  rw [front, cut_blank hblank, take_runLength]
  refine List.forall_mem_cons.mpr ⟨hblank, fun d hd => ?_⟩
  exact List.all_eq_true.mp List.all_takeWhile d hd

theorem scans_front_blank (hblank : isBlank c) (line : Nat) (rest text : List Char) :
    Scans ((front line c rest).text ++ text) ts ↔ Scans text ts :=
  scans_filler (isFiller_of_all (all_front_blank hblank))

/-- A piece with a token goes in front of what comes of the pieces behind it. -/
theorem Respaced.scans_front {afterComment : Bool} {others : List Piece}
    (h : Respaced afterComment others text)
    (hothers : pieces (front line c rest).endLine (behind c rest) = others)
    (hblank : ¬isBlank c) (hcomment : ¬(c = '/' ∧ rest.head? = some '/'))
    (hscans : Scans (c :: rest) ts)
    (hbehind : ∀ ts, Scans (behind c rest) ts → Scans text ts) :
    Scans ((front line c rest).text ++ text) ts := by
  obtain ⟨hshapeBlank, hshapeComment⟩ := cut_fst_ne hblank hcomment
  cases houtcome : (front line c rest).outcome with
  | error e =>
      rw [scans_iff line, lex_of_outcome_error houtcome] at hscans
      cases hscans.1
  | ok t =>
      obtain ⟨ht, -⟩ := isSemantic_of_outcome houtcome hshapeBlank hshapeComment
      obtain ⟨tokens, rfl, htokens⟩ := (scans_piece houtcome ht).mp hscans
      -- The text goes on as the source does up to the first separator, so the piece ends where
      -- it has ended.
      obtain ⟨common, more, other, hcommon, rfl, hstop⟩ := h.exists_common hothers
      obtain ⟨after, htext, hfront, hafter⟩ :=
        front_append_stop houtcome hblank hcomment hcommon hstop
      rw [← hfront] at houtcome
      rw [htext, scans_piece houtcome ht, hafter]
      exact ⟨tokens, rfl, hbehind tokens htokens⟩

/-- What a source amounts to without the lines is not changed by separators between its pieces,
or in the place of blanks. -/
theorem Respaced.scans {afterComment : Bool} {all : List Piece}
    (h : Respaced afterComment all text) :
    ∀ {line : Nat} {source : List Char} {ts : List Token}, pieces line source = all →
      (afterComment = true → source.dropWhile (· != '\n') = source) → Scans source ts →
        Scans (remaining afterComment text) ts := by
  induction h with
  | @finish after gap hgap =>
      intro line source ts hpieces _ hscans
      have hnil : source = [] := by
        cases source with
        | nil => rfl
        | cons c rest =>
            rw [pieces_cons] at hpieces
            cases hpieces
      rw [← List.append_nil gap, scans_remaining hgap.isFiller fun _ => Or.inr rfl, ← hnil]
      exact hscans
  | @keep after gap text p others hgap h ih =>
      intro line source ts hpieces hafter hscans
      obtain ⟨c, rest, rfl, rfl, hothers⟩ := pieces_eq_cons hpieces
      rw [scans_remaining hgap.isFiller]
      · by_cases hblank : isBlank c
        · have hshape : ((front line c rest).shape == .comment) = false := by
            rw [front, cut_blank hblank]
            rfl
          rw [hshape] at ih
          rw [scans_front_blank hblank]
          refine ih hothers (absurd · Bool.false_ne_true) ?_
          rw [← @text_append_behind line, scans_front_blank hblank] at hscans
          exact hscans
        · by_cases hcomment : c = '/' ∧ rest.head? = some '/'
          · obtain ⟨rfl, hhead⟩ := hcomment
            obtain ⟨r, rfl⟩ := List.head?_eq_some_iff.mp hhead
            rw [front_comment] at ih ⊢
            rw [behind_comment] at hothers
            rw [scans_comment] at hscans
            rw [List.cons_append, List.cons_append, scans_comment, dropWhile_takeWhile_append]
            exact ih hothers (fun _ => List.dropWhile_idempotent _ r) hscans
          · have hshape : ((front line c rest).shape == .comment) = false :=
              beq_eq_false_iff_ne.mpr (cut_fst_ne hblank hcomment).2
            rw [hshape] at ih
            exact h.scans_front hothers hblank hcomment hscans fun _ =>
              ih hothers (absurd · Bool.false_ne_true)
      · intro htrue
        refine Or.inr ?_
        rw [eq_newline_of_dropWhile (hafter htrue)]
        rfl
  | @exchange after gap separator text p others hgap hshape hseparator hend h ih =>
      intro line source ts hpieces hafter hscans
      obtain ⟨c, rest, rfl, rfl, hothers⟩ := pieces_eq_cons hpieces
      have hblank : isBlank c := isBlank_of_cut hshape
      -- The separator is taken off the text, and the blanks that it stands for off the source.
      rw [← List.append_assoc, scans_remaining (hgap.isFiller.append hseparator.isFiller)]
      · refine ih hothers (absurd · Bool.false_ne_true) ?_
        rw [← @text_append_behind line, scans_front_blank hblank] at hscans
        exact hscans
      · exact fun htrue => Or.inl (List.mem_append_right _ (hend htrue))

end Lexer

end MiniLox
