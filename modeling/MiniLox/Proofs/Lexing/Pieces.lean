import MiniLox.Proofs.Lexing.Cutting

/-!
# Tokens of the rest of a source

What the rest of a source amounts to depends only on the line at which it starts: the
tokens that matter to the grammar, and the problems.  Blanks can be taken off the rest
one character at a time, although a piece of blanks is as long as possible, and comments
up to the end of their line.  Everything else is taken off piece by piece.
-/

namespace MiniLox

namespace Lexer

/-- The tokens that matter in a source that starts on a line, and its problems. -/
def lex (line : Nat) (source : List Char) : List Token × List LexicalError :=
  (((pieces line source).filterMap Piece.token?).filter Token.isSemantic,
    (pieces line source).filterMap Piece.error?)

/-- The first piece of a source that starts with a character. -/
def front (line : Nat) (c : Char) (rest : List Char) : Piece :=
  ⟨(cut c rest).1, c :: rest.take (cut c rest).2, line⟩

/-- What follows the first piece of a source that starts with a character. -/
def behind (c : Char) (rest : List Char) : List Char := rest.drop (cut c rest).2

variable {line : Nat} {c : Char} {rest : List Char}

theorem pieces_cons : pieces line (c :: rest) =
    front line c rest :: pieces (front line c rest).endLine (behind c rest) := by
  rw [pieces]
  rfl

theorem length_behind_le : (behind c rest).length ≤ rest.length := by
  rw [behind, List.length_drop]
  exact Nat.sub_le _ _

theorem text_append_behind : (front line c rest).text ++ behind c rest = c :: rest := by
  rw [front, behind, List.cons_append, List.take_append_drop]

@[simp] theorem lex_nil (line : Nat) : lex line [] = ([], []) := by
  rw [lex, pieces]
  rfl

theorem lineEnds_append (a b : List Char) : lineEnds (a ++ b) = lineEnds a + lineEnds b :=
  List.count_append

theorem lineEnds_cons (c : Char) (text : List Char) :
    lineEnds (c :: text) = lineEnds [c] + lineEnds text :=
  lineEnds_append [c] text

theorem lineEnds_front_behind (line : Nat) (c : Char) (rest : List Char) :
    lineEnds (c :: rest) = lineEnds (front line c rest).text + lineEnds (behind c rest) := by
  rw [← lineEnds_append, text_append_behind]

/-! ## Taking pieces off -/

theorem lex_cons : lex line (c :: rest) =
    ((front line c rest).token?.toList.filter Token.isSemantic ++
        (lex (front line c rest).endLine (behind c rest)).1,
      (front line c rest).error?.toList ++
        (lex (front line c rest).endLine (behind c rest)).2) := by
  have hcons {α β : Type} (f : α → Option β) (a : α) (l : List α) :
      (a :: l).filterMap f = (f a).toList ++ l.filterMap f := by
    cases h : f a with
    | none => rw [List.filterMap_cons_none h, Option.toList_none, List.nil_append]
    | some b => rw [List.filterMap_cons_some h, Option.toList_some, List.singleton_append]
  rw [lex, pieces_cons, hcons, hcons, List.filter_append]
  rfl

theorem lex_of_outcome_ok {t : Token} (h : (front line c rest).outcome = .ok t)
    (ht : t.isSemantic) :
    lex line (c :: rest) =
      (t :: (lex (front line c rest).endLine (behind c rest)).1,
        (lex (front line c rest).endLine (behind c rest)).2) := by
  rw [lex_cons, Piece.token?, Piece.error?, h]
  simp [Except.toOption, ht]

theorem lex_of_outcome_error {e : LexicalError} (h : (front line c rest).outcome = .error e) :
    lex line (c :: rest) =
      ((lex (front line c rest).endLine (behind c rest)).1,
        e :: (lex (front line c rest).endLine (behind c rest)).2) := by
  rw [lex_cons, Piece.token?, Piece.error?, h]
  rfl

theorem lex_of_blank_shape (h : (cut c rest).1 = .blank ∨ (cut c rest).1 = .comment) :
    lex line (c :: rest) = lex (front line c rest).endLine (behind c rest) := by
  have houtcome : ∃ t, (front line c rest).outcome = .ok t ∧ t.isSemantic = false := by
    rcases h with h | h
    · exact ⟨⟨.blank, _, none, none⟩, by rw [Piece.outcome, front, h], rfl⟩
    · exact ⟨⟨.comment, _, none, none⟩, by rw [Piece.outcome, front, h], rfl⟩
  obtain ⟨t, ht, hsemantic⟩ := houtcome
  rw [lex_cons, Piece.token?, Piece.error?, ht]
  simp [Except.toOption, hsemantic]

/-- What the token of a piece can be. -/
theorem outcome_cases {t : Token} (h : (front line c rest).outcome = .ok t) :
    let text := (front line c rest).text
    let lexeme := String.ofList text
    let inside := String.ofList (text.drop 1).dropLast
    (∃ k, k.spelling = lexeme ∧ t = Token.simple k (some line)) ∨
      t = ⟨.identifier, lexeme, some (.text lexeme), some line⟩ ∨
      t = ⟨.number, lexeme, some (.number (numberValue text)), some line⟩ ∨
      t = ⟨.text, inside, some (.text inside), some line⟩ ∨
      t.isSemantic = false ∧ ((cut c rest).1 = .comment ∨ (cut c rest).1 = .blank) := by
  intro text lexeme inside
  rw [Piece.outcome, front] at h
  dsimp only at h
  split at h
  · next k hshape =>
    obtain ⟨-, -, hspelling, -⟩ := cut_eq_fixed (Prod.ext hshape rfl)
    exact Or.inl ⟨k, hspelling, (Except.ok.inj h).symm⟩
  · split at h
    · next k hkeyword =>
      have hspelling := List.find?_some hkeyword
      exact Or.inl ⟨k, beq_iff_eq.mp hspelling, (Except.ok.inj h).symm⟩
    · exact Or.inr (Or.inl (Except.ok.inj h).symm)
  · exact Or.inr (Or.inr (Or.inl (Except.ok.inj h).symm))
  · exact Or.inr (Or.inr (Or.inr (Or.inl (Except.ok.inj h).symm)))
  · next hshape =>
    rw [← Except.ok.inj h]
    exact Or.inr (Or.inr (Or.inr (Or.inr ⟨rfl, Or.inl hshape⟩)))
  · next hshape =>
    rw [← Except.ok.inj h]
    exact Or.inr (Or.inr (Or.inr (Or.inr ⟨rfl, Or.inr hshape⟩)))
  · cases h
  · cases h

/-- A kind that a piece is spelled by is none of those without a spelling. -/
theorem kind_of_spelling {k : TokenKind}
    (h : k.spelling = String.ofList (front line c rest).text) :
    k.isSemantic ∧ k ≠ .endOfInput ∧ k ∉ [.identifier, .number, .text] := by
  have hne : k.spelling ≠ "" := by
    rw [h]
    exact mt String.ofList_eq_empty_iff.mp (List.cons_ne_nil _ _)
  cases k <;> first | exact absurd rfl hne | decide

/-- Every piece but blanks and comments matters, and none is the end of the input. -/
theorem isSemantic_of_outcome {t : Token} (h : (front line c rest).outcome = .ok t)
    (hblank : (cut c rest).1 ≠ .blank) (hcomment : (cut c rest).1 ≠ .comment) :
    t.isSemantic ∧ t.kind ≠ .endOfInput := by
  rcases outcome_cases h with ⟨k, hspelling, rfl⟩ | rfl | rfl | rfl | ⟨-, hshape | hshape⟩
  · obtain ⟨hsemantic, hend, -⟩ := kind_of_spelling hspelling
    exact ⟨hsemantic, hend⟩
  · exact ⟨rfl, nofun⟩
  · exact ⟨rfl, nofun⟩
  · exact ⟨rfl, nofun⟩
  · exact (hcomment hshape).elim
  · exact (hblank hshape).elim

/-- Blanks can be taken off one by one. -/
theorem lex_blank (h : isBlank c) : lex line (c :: rest) = lex (line + lineEnds [c]) rest := by
  have hcut : cut c rest = (.blank, runLength isBlank rest) := cut_blank h
  rw [lex_of_blank_shape (Or.inl (by rw [hcut]))]
  match rest with
  | [] => rw [behind, List.drop_nil, lex_nil, lex_nil]
  | d :: after =>
      by_cases hd : isBlank d
      · have hrun : runLength isBlank (d :: after) = runLength isBlank after + 1 := by
          rw [runLength, List.takeWhile_cons_of_pos hd]
          rfl
        have hcut' : cut d after = (.blank, runLength isBlank after) := cut_blank hd
        rw [lex_of_blank_shape (Or.inl (by rw [hcut']))]
        simp only [front, behind, hcut, hcut', hrun, Piece.endLine, List.take_succ_cons,
          List.drop_succ_cons]
        rw [lineEnds_cons c, Nat.add_assoc]
      · have hrun : runLength isBlank (d :: after) = 0 := by
          rw [runLength, List.takeWhile_cons_of_neg hd]
          rfl
        simp only [front, behind, hcut, hrun, Piece.endLine, List.take_zero, List.drop_zero]

/-- The characters of a comment, and those from its line end on. -/
theorem comment_append (text : List Char) :
    ('/' :: '/' :: text.takeWhile (· != '\n')) ++ text.dropWhile (· != '\n') =
      '/' :: '/' :: text := by
  rw [List.cons_append, List.cons_append, List.takeWhile_append_dropWhile]

/-- A comment holds no line end. -/
theorem lineEnds_comment (text : List Char) :
    lineEnds ('/' :: '/' :: text.takeWhile (· != '\n')) = 0 := by
  apply List.count_eq_zero.mpr
  intro hmem
  have hall := List.all_takeWhile (p := (· != '\n')) (l := text)
  rw [List.all_eq_true] at hall
  simp only [List.mem_cons] at hmem
  rcases hmem with h | h | hmem
  · exact absurd h (by decide)
  · exact absurd h (by decide)
  · exact absurd (hall _ hmem) (by decide)

/-- A comment ends before the next line. -/
theorem lex_comment : lex line ('/' :: '/' :: rest) = lex line (rest.dropWhile (· != '\n')) := by
  rw [lex_of_blank_shape (Or.inr rfl), Piece.endLine, front, behind, cut_comment]
  simp only [Nat.add_comm 1, List.take_succ_cons, List.drop_succ_cons, take_runLength,
    drop_runLength, lineEnds_comment, Nat.add_zero]

/-! ## Whole sources -/

/-- A source is made of blanks, comments, and pieces with a token or a problem. -/
@[elab_as_elim]
theorem induction_on_pieces {motive : List Char → Prop} (source : List Char) (nil : motive [])
    (blank : ∀ c rest, isBlank c → motive rest → motive (c :: rest))
    (comment : ∀ rest, motive (rest.dropWhile (· != '\n')) → motive ('/' :: '/' :: rest))
    (piece : ∀ c rest, ¬isBlank c → ¬(c = '/' ∧ rest.head? = some '/') →
      motive (behind c rest) → motive (c :: rest)) : motive source := by
  induction hlength : source.length using Nat.strongRecOn generalizing source with
  | ind length ih =>
      match source with
      | [] => exact nil
      | c :: rest =>
          rw [List.length_cons] at hlength
          by_cases hblank : isBlank c
          · exact blank c rest hblank (ih _ (by omega) rest rfl)
          · by_cases hcomment : c = '/' ∧ rest.head? = some '/'
            · obtain ⟨rfl, hhead⟩ := hcomment
              obtain ⟨after, rfl⟩ := List.head?_eq_some_iff.mp hhead
              have hle := (List.dropWhile_suffix (· != '\n') (l := after)).length_le
              rw [List.length_cons] at hlength
              exact comment after (ih _ (by omega) _ rfl)
            · have hle : (behind c rest).length ≤ rest.length := length_behind_le
              exact piece c rest hblank hcomment (ih _ (by omega) _ rfl)

/-- Every token comes from a piece that is no blank and no comment, on a line of the source. -/
theorem exists_outcome_of_mem_lex {t : Token} {source : List Char}
    (h : t ∈ (lex line source).1) :
    ∃ n c rest, n ≤ line + lineEnds source ∧ (front n c rest).outcome = .ok t ∧
      (cut c rest).1 ≠ .blank ∧ (cut c rest).1 ≠ .comment := by
  induction source using induction_on_pieces generalizing line with
  | nil =>
      rw [lex_nil] at h
      cases h
  | blank c rest hblank ih =>
      rw [lex_blank hblank] at h
      rw [lineEnds_cons, ← Nat.add_assoc]
      exact ih h
  | comment rest ih =>
      rw [lex_comment] at h
      rw [← comment_append rest, lineEnds_append, lineEnds_comment, Nat.zero_add]
      exact ih h
  | piece c rest hblank hcomment ih =>
      obtain ⟨hblank, hcomment⟩ := cut_fst_ne hblank hcomment
      rw [lineEnds_front_behind line c rest, ← Nat.add_assoc]
      cases houtcome : (front line c rest).outcome with
      | error e =>
          rw [lex_of_outcome_error houtcome] at h
          exact ih h
      | ok u =>
          obtain ⟨hsemantic, -⟩ := isSemantic_of_outcome houtcome hblank hcomment
          rw [lex_of_outcome_ok houtcome hsemantic] at h
          rcases List.mem_cons.mp h with rfl | h
          · exact ⟨line, c, rest, by omega, houtcome, hblank, hcomment⟩
          · exact ih h

/-- No token stands below the last line of its source. -/
theorem line_le_of_mem_lex {t : Token} {source : List Char}
    (h : t ∈ (lex line source).1) : ∃ n, t.line = some n ∧ n ≤ line + lineEnds source := by
  obtain ⟨n, c, rest, hle, houtcome, hblank, hcomment⟩ := exists_outcome_of_mem_lex h
  refine ⟨n, ?_, hle⟩
  rcases outcome_cases houtcome with ⟨_, -, rfl⟩ | rfl | rfl | rfl | ⟨-, hshape | hshape⟩
  · rfl
  · rfl
  · rfl
  · rfl
  · exact (hcomment hshape).elim
  · exact (hblank hshape).elim

theorem kind_ne_of_mem_lex {t : Token} {source : List Char} (h : t ∈ (lex line source).1) :
    t.kind ≠ .endOfInput := by
  obtain ⟨_, _, _, -, houtcome, hblank, hcomment⟩ := exists_outcome_of_mem_lex h
  exact (isSemantic_of_outcome houtcome hblank hcomment).2

end Lexer

end MiniLox
