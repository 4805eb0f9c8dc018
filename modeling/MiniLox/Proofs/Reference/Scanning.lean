import MiniLox.Proofs.Reference.Engine
import MiniLox.Proofs.Reference.Sentences

/-!
# Two ways to cut a source

The scanner takes the longest lexeme at every place.  The terminals of the grammar are lexemes,
but the grammar looks only for those that may stand at the place.  Where the two ways differ,
the grammar reads a keyword as an identifier, or an operator without the equals sign behind it.
-/

namespace MiniLox

open Grammar

namespace Reference

open Engine
open Lexer (lex front behind cut lineEnds runLength)

variable {before ts us : List Lexeme} {line : Nat} {c : Char} {rest rest' source text : List Char}
  {t u : Lexeme} {tok : Token} {kind : TokenKind} {m n : Nat}

/-! ## Lexemes and terminals -/

theorem mem_signKinds_of_mem_marks (h : kind ∈ marks) : kind ∈ Lexer.signKinds := by
  have hall : ∀ kind ∈ marks, kind ∈ Lexer.signKinds := by decide
  exact hall kind h

theorem mem_keywords_of_mem_words (h : kind ∈ words) : kind ∈ TokenKind.keywords := by
  have hall : ∀ kind ∈ words, kind ∈ TokenKind.keywords := by decide
  exact hall kind h

/-- The texts of terminals are lexemes, those of identifiers possibly keywords. -/
theorem Spells.exists_isLexeme (h : Spells kind text) (hblank : kind ≠ .blank) (line : Nat) :
    ∃ tok, Lexer.IsLexeme line text tok ∧
      (tok.kind = kind ∨
        kind = .identifier ∧ TokenKind.keyword? (String.ofList text) = some tok.kind) := by
  cases h with
  | spelled hkind =>
      rcases List.mem_append.mp hkind with hword | hmark
      · exact ⟨_, .keyword (mem_keywords_of_mem_words hword), Or.inl rfl⟩
      · exact ⟨_, .sign (mem_signKinds_of_mem_marks hmark), Or.inl rfl⟩
  | whole hne hdigits => exact ⟨_, .whole hne hdigits, Or.inl rfl⟩
  | fraction hne hdigits hneplaces hplaces =>
      exact ⟨_, .fraction hne hdigits hneplaces hplaces, Or.inl rfl⟩
  | text hinside => exact ⟨_, .quotation hinside, Or.inl rfl⟩
  | @identifier first others hfirst hothers =>
      by_cases hkeyword :
        ∃ kind ∈ TokenKind.keywords, kind.spelling = String.ofList (first :: others)
      · obtain ⟨kind, hkind, hspelling⟩ := hkeyword
        have htext : first :: others = kind.spelling.toList := by
          rw [hspelling, String.toList_ofList]
        rw [htext, String.ofList_toList]
        exact ⟨_, .keyword hkind, Or.inr ⟨rfl, Lexer.keyword?_spelling hkind⟩⟩
      · refine ⟨_, .identifier hfirst hothers ?_, Or.inl rfl⟩
        intro kind hkind heq
        exact hkeyword ⟨kind, hkind, heq⟩
  | comment hinside => exact ⟨_, .comment hinside, Or.inl rfl⟩
  | blank => exact (hblank rfl).elim

/-- A lexeme is a text of its terminal, if the grammar has it. -/
theorem spells_of_isLexeme (h : Lexer.IsLexeme line text tok) (hkind : tok.kind ∈ terminals) :
    Spells tok.kind text := by
  cases h with
  | sign hsign =>
      have hall : ∀ kind ∈ Lexer.signKinds, kind ∈ terminals → kind ∈ words ++ marks := by decide
      exact .spelled (hall _ hsign hkind)
  | whole hne hdigits => exact .whole hne hdigits
  | fraction hne hdigits hneplaces hplaces => exact .fraction hne hdigits hneplaces hplaces
  | keyword hkeyword =>
      have hall : ∀ kind ∈ TokenKind.keywords, kind ∈ terminals → kind ∈ words ++ marks := by
        decide
      exact .spelled (hall _ hkeyword hkind)
  | identifier hfirst hothers => exact .identifier hfirst hothers
  | quotation hinside => exact .text hinside
  | comment hinside => exact .comment hinside
  | blank hne hrun =>
      refine .blank hne fun c hc => ?_
      have hmem := hrun c hc
      simp only [List.mem_cons, List.not_mem_nil, or_false] at hmem ⊢
      grind

theorem scanned_of_spelled (h : kind ∉ [.number, .text, .identifier]) :
    (⟨kind, text, line⟩ : Lexeme).scanned = Token.simple kind (some line) := by
  simp only [List.mem_cons, List.not_mem_nil, or_false, not_or] at h
  rw [Lexeme.scanned_eq_token (by simp [h.1, h.2.1]), Lexeme.token, if_neg h.2.2]

/-- A lexeme that matters is scanned as its token. -/
theorem scanned_of_isLexeme (h : Lexer.IsLexeme line text tok) (ht : tok.isSemantic) :
    (⟨tok.kind, text, line⟩ : Lexeme).scanned = tok := by
  cases h with
  | sign hkind =>
      have hall : ∀ kind ∈ Lexer.signKinds, kind ∉ [.number, .text, .identifier] := by decide
      exact scanned_of_spelled (hall _ hkind)
  | whole _ hdigits =>
      rw [← Lexer.numberValue_of_all hdigits]
      rfl
  | fraction _ hdigits =>
      rw [← Lexer.numberValue_append_point hdigits]
      rfl
  | keyword hkind =>
      have hall : ∀ kind ∈ TokenKind.keywords, kind ∉ [.number, .text, .identifier] := by decide
      exact scanned_of_spelled (hall _ hkind)
  | identifier => rfl
  | quotation => simp [Lexeme.scanned]
  | comment => cases ht
  | blank => cases ht

/-! ## The longest lexeme -/

/-- Where a source starts with a lexeme, its first piece has a token and is its lexeme. -/
theorem frontIsLexeme_of_prefix (h : Lexer.IsLexeme line text tok) (hfront : text <+: c :: rest) :
    Lexer.FrontIsLexeme line c rest := by
  obtain ⟨d, others, rfl, -, houtcome⟩ := Lexer.outcome_of_isLexeme h
  obtain ⟨after, happend⟩ := hfront
  rw [List.cons_append, List.cons.injEq] at happend
  obtain ⟨rfl, rfl⟩ := happend
  rcases Lexer.frontIsLexeme_or line d (others ++ after) with hlexeme | ⟨-, hcut⟩ | ⟨rfl, hopen⟩
  · exact hlexeme
  · rw [Piece.outcome, front, hcut] at houtcome
    cases houtcome
  · have hothers : '"' ∉ others := fun hmem => hopen (List.mem_append_left _ hmem)
    rw [Piece.outcome, front, Lexer.cut_openQuotation hothers] at houtcome
    cases houtcome

theorem runLength_eq_of_all {p : Char → Bool} (hm : m ≤ rest.length)
    (htake : ∀ d ∈ rest.take m, p d) (hdrop : ∀ d ∈ (rest.drop m).head?, ¬p d) :
    runLength p rest = m := by
  have hlength : (rest.take m).length = m := List.length_take_of_le hm
  cases hrest : rest.drop m with
  | nil =>
      have hsame : rest.take m = rest := by
        rw [← List.append_nil (rest.take m), ← hrest, List.take_append_drop]
      rw [← hsame, Lexer.runLength_of_all htake, hlength]
  | cons d after =>
      rw [hrest] at hdrop
      rw [← List.take_append_drop m rest, hrest,
        Lexer.runLength_of_all_append htake (Bool.eq_false_iff.mpr (hdrop d rfl)), hlength]

/-- Behind a run stands no character that could belong to it. -/
theorem not_of_head?_drop {p : Char → Bool} {d : Char}
    (h : d ∈ (rest.drop (runLength p rest)).head?) : ¬p d := by
  have hnot := List.head?_dropWhile_not p rest
  rw [Lexer.drop_runLength] at h
  rw [h] at hnot
  exact Bool.eq_false_iff.mp hnot

theorem Spells.of_word (h : Spells kind (c :: rest)) (hkind : kind ∈ words) :
    Lexer.startsWord c ∧ ∀ d ∈ rest, d.isAlphanum := by
  have hall : ∀ kind ∈ words, kind.spelling.toList.head?.any Lexer.startsWord ∧
      kind.spelling.toList.tail.all Char.isAlphanum := by
    decide
  obtain ⟨hfirst, hothers⟩ := hall kind hkind
  rw [← h.eq_spelling (List.mem_append_left _ hkind)] at hfirst hothers
  exact ⟨hfirst, List.all_eq_true.mp hothers⟩

theorem Spells.mem_signs (h : Spells kind (c :: rest)) (hkind : kind ∈ marks) :
    c ∈ Lexer.signs := by
  have hall : ∀ kind ∈ marks, kind.spelling.toList.head?.any (· ∈ Lexer.signs) := by decide
  have hhead := hall kind hkind
  rw [← h.eq_spelling (List.mem_append_right _ hkind)] at hhead
  exact of_decide_eq_true hhead

/-- The longest match of a terminal that is no mark is as long as the piece of the scanner. -/
theorem cut_of_isLongestMatch (h : IsLongestMatch kind c rest m) (hmark : kind ∉ marks)
    (hblank : kind ≠ .blank) : (cut c rest).2 = m := by
  have hterminal := h.isMatch.1.mem_terminals
  have hsome := (matchLength?_eq_some_iff hterminal).mpr h
  rcases mem_terminals_iff.mp hterminal with (hspelled | rfl | rfl) | rfl | rfl | rfl
  · have hword := (List.mem_append.mp hspelled).resolve_right hmark
    obtain ⟨hfirst, hothers⟩ := h.isMatch.1.of_word hword
    rw [Lexer.cut_word hfirst]
    exact runLength_eq_of_all h.le hothers (h.isMatch.2 hword)
  · rw [matchLength?, if_neg (by decide)] at hsome
    obtain ⟨⟨rfl, hhead⟩, rfl⟩ := Option.ite_some_none_eq_some.mp hsome
    obtain ⟨after, rfl⟩ := List.head?_eq_some_iff.mp hhead
    have hrun : runLength (· != '\n') ('/' :: after) = runLength (· != '\n') after + 1 := rfl
    rw [Lexer.cut_comment, hrun, Nat.add_comm]
  · exact (hblank rfl).elim
  · rw [matchLength?, if_neg (by decide)] at hsome
    obtain ⟨hdigit, rfl⟩ := Option.ite_some_none_eq_some.mp hsome
    rw [Lexer.cut_digit hdigit]
  · rw [matchLength?, if_neg (by decide)] at hsome
    obtain ⟨⟨rfl, hmem⟩, rfl⟩ := Option.ite_some_none_eq_some.mp hsome
    obtain ⟨inside, after, rfl, hinside⟩ := List.eq_append_cons_of_mem hmem
    rw [Lexer.cut_quotation hinside, Lexer.runLength_quotation hinside]
  · rw [matchLength?, if_neg (by decide)] at hsome
    obtain ⟨hword, rfl⟩ := Option.ite_some_none_eq_some.mp hsome
    rw [Lexer.cut_word hword]

/-! ## From tokens to terminals -/

theorem outcome_formFeed : (front line '\x0c' rest).outcome =
    .error ⟨line, .unknownCharacter '\x0c'⟩ := by
  have hcut : cut '\x0c' rest = (.unknown, 0) :=
    Lexer.cut_unknown (by decide) (by decide) (by decide) (by decide) (by decide)
  rw [Piece.outcome, front, hcut]
  rfl

/-- A source without problems does not start with a form feed. -/
theorem head?_ne_of_lex (h : (lex line source).2 = []) : source.head? ≠ some '\x0c' := by
  intro hhead
  obtain ⟨rest, rfl⟩ := List.head?_eq_some_iff.mp hhead
  rw [Lexer.lex_of_outcome_error outcome_formFeed] at h
  cases h

/-- Where no form feed follows, the blanks of the grammar are those of the scanner. -/
theorem runLength_isBlank (h : (rest.drop (runLength Lexer.isBlank rest)).head? ≠ some '\x0c') :
    runLength isBlank rest = runLength Lexer.isBlank rest := by
  apply runLength_eq_of_all (Lexer.runLength_le _ _)
  · intro d hd
    rw [isBlank, forall_mem_take_runLength _ _ d hd]
    rfl
  · intro d hd hblank
    rw [isBlank, Bool.eq_false_iff.mpr (not_of_head?_drop hd), Bool.false_or, beq_iff_eq] at hblank
    subst hblank
    exact h hd

/-- A lexeme of blanks is a blank. -/
theorem kind_of_isBlank (hblank : Lexer.isBlank c)
    (h : Lexer.IsLexeme line (front line c rest).text tok) : tok.kind = .blank := by
  have hfront : Lexer.FrontIsLexeme line c rest := Lexer.frontIsLexeme_blank hblank
  obtain ⟨tok', houtcome, hlexeme⟩ := hfront
  rw [Piece.outcome, front, Lexer.cut_blank hblank] at houtcome
  rw [h.unique hlexeme, ← Except.ok.inj houtcome]

theorem length_text_front : (front line c rest).text.length = (cut c rest).2 + 1 := by
  rw [front, List.length_cons, List.length_take, Nat.min_eq_left Lexer.cut_snd_le]

/-- Where a lexeme stands, blanks are no longer than it, and are of its kind if they are as long. -/
theorem IsCandidate.beats_of_blank (hu : IsCandidate before line (c :: rest) u rest')
    (hblank : u.kind = .blank) (hlexeme : Lexer.IsLexeme line (front line c rest).text tok)
    (hstop : (behind c rest).head? ≠ some '\x0c') :
    Lexeme.Beats ⟨tok.kind, (front line c rest).text, line⟩ u := by
  obtain ⟨m, hm, htext, -, hmatch, -⟩ := isCandidate_cons_iff.mp hu
  rw [hblank] at hmatch
  obtain ⟨hc, htake⟩ := List.forall_mem_cons.mp (spells_blank_iff.mp hmatch.1).2
  have hc' : Lexer.isBlank c := by
    rcases Bool.or_eq_true_iff.mp hc with hc | hc
    · exact hc
    · obtain ⟨_, houtcome, -⟩ := frontIsLexeme_of_prefix hlexeme ⟨_, Lexer.text_append_behind⟩
      rw [beq_iff_eq.mp hc, outcome_formFeed] at houtcome
      cases houtcome
  have hrun := le_runLength hm htake
  have hlength : (front line c rest).text.length = runLength isBlank rest + 1 := by
    rw [behind, Lexer.cut_blank hc'] at hstop
    rw [length_text_front, Lexer.cut_blank hc', runLength_isBlank hstop]
  have hm' : u.text.length = m + 1 := by
    rw [congrArg Lexeme.text htext, List.length_cons, List.length_take, Nat.min_eq_left hm]
  rcases Nat.lt_or_eq_of_le (Nat.succ_le_succ hrun) with hlt | heq
  · exact Or.inl (hm' ▸ hlength ▸ hlt)
  · exact Or.inr ⟨hm'.trans (heq.trans hlength.symm),
      Or.inl (hblank.trans (kind_of_isBlank hc' hlexeme).symm)⟩

/-- Where a lexeme stands, other terminals are no longer than it, and if one is as long, it is
the same or the lexeme is a keyword. -/
theorem IsCandidate.beats_of_lexeme (hu : IsCandidate before line (c :: rest) u rest')
    (hblank : u.kind ≠ .blank) (hlexeme : Lexer.IsLexeme line (front line c rest).text tok) :
    Lexeme.Beats ⟨tok.kind, (front line c rest).text, line⟩ u := by
  obtain ⟨tok', hlexeme', hkinds⟩ := hu.isMatch.1.exists_isLexeme hblank line
  rcases Nat.lt_or_eq_of_le (Lexer.length_le_of_isLexeme ⟨_, hu.append⟩ hlexeme') with hlt | heq
  · exact Or.inl hlt
  · have htext : u.text = (front line c rest).text :=
      (List.append_inj (hu.append.trans Lexer.text_append_behind.symm) heq).1
    have hsame : tok' = tok := (htext ▸ hlexeme').unique hlexeme
    subst hsame
    refine Or.inr ⟨heq, ?_⟩
    rcases hkinds with hkind | ⟨hidentifier, hkeyword⟩
    · exact Or.inl hkind.symm
    · have hall : ∀ kind ∈ TokenKind.keywords, kind.spelling?.isSome := by decide
      refine Or.inr ⟨hall _ (List.mem_of_find?_eq_some hkeyword), ?_⟩
      rw [hidentifier]
      rfl

/-- The lexeme of a piece is the next terminal, if it is one that may stand there. -/
theorem isNext_of_isLexeme (hlexeme : Lexer.IsLexeme line (front line c rest).text tok)
    (hkind : tok.kind ∈ terminals) (hfollow : MayFollow before tok.kind)
    (hstop : (behind c rest).head? ≠ some '\x0c') :
    IsNext before line (c :: rest) ⟨tok.kind, (front line c rest).text, line⟩ (behind c rest) := by
  have happend : (front line c rest).text ++ behind c rest = c :: rest :=
    Lexer.text_append_behind
  have hspells := spells_of_isLexeme hlexeme hkind
  refine ⟨⟨happend, rfl, ⟨hspells, ?_⟩, hfollow⟩, ?_⟩
  · intro hword d hd
    rw [behind, Lexer.cut_word (hspells.of_word hword).1] at hd
    exact not_of_head?_drop hd
  · intro u others hu
    by_cases hblank : u.kind = .blank
    · exact hu.beats_of_blank hblank hlexeme hstop
    · exact hu.beats_of_lexeme hblank hlexeme

theorem not_mem_ignored (h : tok.isSemantic) : tok.kind ∉ ignored := by
  intro hmem
  have hall : ∀ kind ∈ ignored, kind.isSemantic = false := by decide
  rw [Token.isSemantic, hall _ hmem] at h
  cases h

theorem mem_ignored_of_outcome (houtcome : (front line c rest).outcome = .ok tok)
    (hshape : (cut c rest).1 = .blank ∨ (cut c rest).1 = .comment) : tok.kind ∈ ignored := by
  rcases hshape with hshape | hshape
  · rw [Piece.outcome, front, hshape] at houtcome
    simp [← Except.ok.inj houtcome, ignored]
  · rw [Piece.outcome, front, hshape] at houtcome
    simp [← Except.ok.inj houtcome, ignored]

/-- A source without problems starts with a lexeme. -/
theorem frontIsLexeme_of_lex (h : (lex line (c :: rest)).2 = []) :
    Lexer.FrontIsLexeme line c rest := by
  have hnone : ∀ e, (front line c rest).outcome ≠ .error e := by
    intro e he
    rw [Lexer.lex_of_outcome_error he] at h
    cases h
  rcases Lexer.frontIsLexeme_or line c rest with hlexeme | ⟨-, hcut⟩ | ⟨rfl, hopen⟩
  · exact hlexeme
  · exact (hnone _ (by rw [Piece.outcome, front, hcut])).elim
  · exact (hnone _ (by rw [Piece.outcome, front, Lexer.cut_openQuotation hopen])).elim

/-- The terminals of a source without problems are its tokens, if these are a program. -/
theorem exists_lexes {toks : List Token} (h : lex line source = (toks, []))
    (htree : ∀ us : List Lexeme, us.map Lexeme.kind = toks.map Token.kind →
      ∃ tree, Derives (.rule .start) (before ++ us) [tree]) :
    ∃ us, Lexes before line source us ∧ us.map Lexeme.scanned = toks := by
  induction hlength : source.length using Nat.strongRecOn
    generalizing before line source toks with
  | ind length ih =>
      match source with
      | [] =>
          rw [Lexer.lex_nil] at h
          cases h
          exact ⟨[], .nil, rfl⟩
      | c :: rest =>
          have hshorter : (behind c rest).length < length := by
            have hle : (behind c rest).length ≤ rest.length := Lexer.length_behind_le
            rw [List.length_cons] at hlength
            omega
          obtain ⟨tok, houtcome, hlexeme⟩ := frontIsLexeme_of_lex (congrArg Prod.snd h)
          by_cases hshape : (cut c rest).1 = .blank ∨ (cut c rest).1 = .comment
          · have hignored := mem_ignored_of_outcome houtcome hshape
            have hterminal : tok.kind ∈ terminals :=
              List.mem_append_left _ (List.mem_append_right _ hignored)
            rw [Lexer.lex_of_blank_shape hshape] at h
            obtain ⟨us, hus, hscanned⟩ := ih _ hshorter h htree rfl
            have hfollow : MayFollow before tok.kind := Or.inl hignored
            have hnext := isNext_of_isLexeme hlexeme hterminal hfollow
              (head?_ne_of_lex (congrArg Prod.snd h))
            exact ⟨us, .skip hnext hignored hus, hscanned⟩
          · obtain ⟨hblank, hcomment⟩ := not_or.mp hshape
            obtain ⟨hsemantic, -⟩ := Lexer.isSemantic_of_outcome houtcome hblank hcomment
            rw [Lexer.lex_of_outcome_ok houtcome hsemantic] at h
            obtain ⟨rfl, hnone⟩ := Prod.mk.inj h
            generalize hothers : (lex (front line c rest).endLine (behind c rest)).1 = others at *
            -- A program goes on with the kind of the token.
            obtain ⟨tree, hderives⟩ :=
              htree ((tok :: others).map fun t => ⟨t.kind, [], 0⟩) (by simp)
            have hterminal : tok.kind ∈ terminals :=
              hderives.kind_mem nofun ⟨tok.kind, [], 0⟩ (by simp)
            have hfollow : MayFollow before tok.kind := Or.inr ⟨_, _, tree, rfl, hderives⟩
            have hnext := isNext_of_isLexeme hlexeme hterminal hfollow (head?_ne_of_lex hnone)
            have hbehind : ∀ us : List Lexeme, us.map Lexeme.kind = others.map Token.kind →
                ∃ tree, Derives (.rule .start)
                  (before ++ [⟨tok.kind, (front line c rest).text, line⟩] ++ us) [tree] := by
              intro us hkinds
              rw [List.append_assoc, List.singleton_append]
              exact htree (_ :: us) (by simp [hkinds])
            obtain ⟨us, hus, hscanned⟩ := ih _ hshorter (Prod.ext hothers hnone) hbehind rfl
            refine ⟨_ :: us, .cons hnext (not_mem_ignored hsemantic) hus, ?_⟩
            rw [List.map_cons, scanned_of_isLexeme hlexeme hsemantic, hscanned]

/-! ## From terminals to tokens -/

/-- No form feed is a problem. -/
def NoFormFeed (errors : List LexicalError) : Prop :=
  ∀ e ∈ errors, e.cause ≠ .unknownCharacter '\x0c'

/-- Blanks of the grammar hold no tokens and no problems, unless a form feed is one. -/
theorem lex_blanks (hrun : ∀ d ∈ text, isBlank d)
    (hformFeed : NoFormFeed (lex line (text ++ rest)).2) :
    lex line (text ++ rest) = lex (line + lineEnds text) rest := by
  induction text generalizing line with
  | nil => rfl
  | cons d text ih =>
      obtain ⟨hd, htext⟩ := List.forall_mem_cons.mp hrun
      rcases Bool.or_eq_true_iff.mp hd with hblank | hfeed
      · rw [List.cons_append, Lexer.lex_blank hblank] at hformFeed ⊢
        rw [ih htext hformFeed, Lexer.lineEnds_cons d text, Nat.add_assoc]
      · rw [List.cons_append, beq_iff_eq.mp hfeed, Lexer.lex_of_outcome_error outcome_formFeed]
          at hformFeed
        exact (hformFeed _ List.mem_cons_self rfl).elim

theorem IsNext.isLongestMatch (h : IsNext before line (c :: rest) t rest') :
    ∃ m, IsLongestMatch t.kind c rest m ∧ t = ⟨t.kind, c :: rest.take m, line⟩ ∧
      rest' = rest.drop m := by
  obtain ⟨m, hm, ht, hrest, hmatch, hfollow⟩ := isCandidate_cons_iff.mp h.isCandidate
  refine ⟨m, ⟨hm, hmatch, ?_⟩, ht, hrest⟩
  intro k hk hmatch'
  have hcandidate : IsCandidate before line (c :: rest) ⟨t.kind, c :: rest.take k, line⟩
      (rest.drop k) := isCandidate_cons_iff.mpr ⟨k, hk, rfl, rfl, hmatch', hfollow⟩
  have hle := (h.beats _ _ hcandidate).length_le
  rw [congrArg Lexeme.text ht] at hle
  simp only [List.length_cons, List.length_take] at hle
  omega

/-- The marks that are the start of an operator lack its equals sign. -/
theorem eq_or_extensible {operator : TokenKind} (hkind : kind ∈ marks)
    (hoperator : operator ∈ Lexer.signKinds)
    (hstart : kind.spelling.toList <+: operator.spelling.toList) :
    kind = operator ∨ kind ∈ extensible ∧ kind.spelling.toList.length = 1 ∧
      operator.spelling.toList[1]? = some '=' := by
  have hall : ∀ kind ∈ marks, ∀ operator ∈ Lexer.signKinds,
      kind.spelling.toList <+: operator.spelling.toList →
        kind = operator ∨ kind ∈ extensible ∧ kind.spelling.toList.length = 1 ∧
          operator.spelling.toList[1]? = some '=' := by
    decide +kernel
  exact hall kind hkind operator hoperator hstart

/-- What the grammar reads at a place is no longer than the piece of the scanner. -/
theorem IsLongestMatch.le_cut (h : IsLongestMatch kind c rest m) (hblank : kind ≠ .blank) :
    m ≤ (cut c rest).2 := by
  obtain ⟨tok, hlexeme, -⟩ := h.isMatch.1.exists_isLexeme hblank 0
  have hstart : c :: rest.take m <+: c :: rest :=
    List.cons_prefix_cons.mpr ⟨rfl, List.take_prefix m rest⟩
  have hle := Lexer.length_le_of_isLexeme hstart hlexeme
  have hm := h.le
  rw [front, List.length_cons, List.length_cons, List.length_take, List.length_take] at hle
  omega

/-- No mark is read where a comment stands. -/
theorem IsNext.not_comment (h : IsNext before line (c :: rest) t rest')
    (hcut : (cut c rest).2 + 1 ≠ t.text.length) (hblank : t.kind ≠ .blank) :
    ¬(c = '/' ∧ rest.head? = some '/') := by
  intro hcomment
  obtain ⟨m, hlongest, ht, -⟩ := h.isLongestMatch
  have hmatch : IsLongestMatch .comment c rest (runLength (· != '\n') rest) := by
    apply matchLength?_comment.mp
    rw [matchLength?, if_neg (by decide)]
    exact if_pos hcomment
  have hfollow : MayFollow before .comment := Or.inl (by decide)
  have hcandidate : IsCandidate before line (c :: rest)
      ⟨.comment, c :: rest.take (runLength (· != '\n') rest), line⟩
      (rest.drop (runLength (· != '\n') rest)) :=
    isCandidate_cons_iff.mpr ⟨_, hmatch.le, rfl, rfl, hmatch.isMatch, hfollow⟩
  have hle := (h.beats _ _ hcandidate).length_le
  have hge := hlongest.le_cut hblank
  have hm := hlongest.le
  have hn := hmatch.le
  rw [congrArg Lexeme.text ht] at hcut hle
  simp only [List.length_cons, List.length_take] at hcut hle
  rw [cut_of_isLongestMatch hmatch (by decide) (by decide)] at hcut hge
  omega

/-- What the grammar reads at a place is the piece of the scanner, unless it is an operator
with an equals sign behind it. -/
theorem IsNext.text_or (h : IsNext before line (c :: rest) t rest') (hblank : t.kind ≠ .blank) :
    t.text = (front line c rest).text ∨ t.kind ∈ extensible ∧ rest'.head? = some '=' := by
  obtain ⟨m, hlongest, ht, rfl⟩ := h.isLongestMatch
  have htext : t.text = c :: rest.take m := congrArg Lexeme.text ht
  by_cases hm : (cut c rest).2 = m
  · left
    rw [htext, front, hm]
  · right
    have hle := hlongest.le
    have hmark : t.kind ∈ marks := by
      by_contra hmark
      exact hm (cut_of_isLongestMatch hlongest hmark hblank)
    have hspelling := hlongest.isMatch.1.eq_spelling (List.mem_append_right _ hmark)
    have hcomment : ¬(c = '/' ∧ rest.head? = some '/') := by
      apply h.not_comment _ hblank
      rw [htext, List.length_cons, List.length_take, Nat.min_eq_left hle]
      omega
    have hsign := hlongest.isMatch.1.mem_signs hmark
    obtain ⟨k, n, hcut⟩ := Lexer.cut_of_mem_signs hsign hcomment
    obtain ⟨-, hn, hoperator, -⟩ := Lexer.cut_eq_fixed hcut
    have hmn := hlongest.le_cut hblank
    rw [hcut] at hm hmn
    have hstart : t.kind.spelling.toList <+: k.spelling.toList := by
      rw [← hspelling, hoperator, String.toList_ofList]
      refine List.cons_prefix_cons.mpr ⟨rfl, ?_⟩
      rw [← Nat.min_eq_left hmn, ← List.take_take]
      exact List.take_prefix m _
    rcases eq_or_extensible hmark (Lexer.mem_signKinds_of_cut hcut) hstart with
      heq | ⟨hextensible, hlength, hequal⟩
    · have hsame := congrArg List.length hspelling
      rw [heq, hoperator, String.toList_ofList, List.length_cons, List.length_cons,
        List.length_take, List.length_take] at hsame
      dsimp only at hm
      omega
    · have hzero := congrArg List.length hspelling
      rw [hlength, List.length_cons, List.length_take] at hzero
      obtain rfl : m = 0 := by omega
      rw [hoperator, String.toList_ofList, List.getElem?_cons_succ, List.getElem?_take] at hequal
      split at hequal
      · exact ⟨hextensible, List.head?_eq_getElem?.trans hequal⟩
      · cases hequal

theorem Spells.mem_equalSigns (h : Spells kind ('=' :: text)) : kind ∈ equalSigns := by
  rcases mem_terminals_iff.mp h.mem_terminals with (hspelled | rfl | rfl) | rfl | rfl | rfl
  · have hall : ∀ kind ∈ words ++ marks, kind.spelling.toList.head? = some '=' →
        kind ∈ equalSigns := by
      decide
    exact hall kind hspelled (by rw [← h.eq_spelling hspelled]; rfl)
  · obtain ⟨_, -, heq⟩ := spells_comment_iff.mp h
    cases heq
  · exact absurd ((spells_blank_iff.mp h).2 '=' List.mem_cons_self) (by decide)
  · obtain ⟨_, _, _, heq, hdigit, -⟩ := spells_number h 0
    cases heq
    exact absurd hdigit (by decide)
  · obtain ⟨_, -, heq⟩ := spells_text_iff.mp h
    cases heq
  · exact absurd (spells_identifier_iff.mp h).1 (by decide)

theorem IsCandidate.mem_equalSigns (h : IsCandidate before line source t rest')
    (hhead : source.head? = some '=') : t.kind ∈ equalSigns := by
  obtain ⟨d, others, htext⟩ := List.exists_cons_of_ne_nil h.isMatch.1.ne_nil
  rw [← h.append, htext, List.cons_append, List.head?_cons, Option.some_inj] at hhead
  subst hhead
  exact (htext ▸ h.isMatch.1).mem_equalSigns

/-- Where a source starts with an equals sign, so do its terminals. -/
theorem Lexes.exists_equalSign (h : Lexes before line source us)
    (hhead : source.head? = some '=') : ∃ v vs, us = v :: vs ∧ v.kind ∈ equalSigns := by
  cases h with
  | nil => cases hhead
  | skip hnext hkind =>
      have hall : ∀ kind ∈ ignored, kind ∉ equalSigns := by decide
      exact (hall _ hkind (hnext.isCandidate.mem_equalSigns hhead)).elim
  | cons hnext => exact ⟨_, _, rfl, hnext.isCandidate.mem_equalSigns hhead⟩

/-- A terminal that is the piece of the scanner is followed by what follows the piece. -/
theorem IsNext.behind_eq (h : IsNext before line (c :: rest) t rest')
    (htext : t.text = (front line c rest).text) : rest' = behind c rest := by
  have happend : (front line c rest).text ++ behind c rest = c :: rest :=
    Lexer.text_append_behind
  exact (List.append_inj (h.isCandidate.append.trans happend.symm) (congrArg _ htext)).2

/-- A comment of the grammar is one of the scanner. -/
theorem IsNext.lex_comment (h : IsNext before line source t rest') (hkind : t.kind = .comment) :
    lex line source = lex (line + lineEnds t.text) rest' := by
  obtain ⟨c, rest, rfl⟩ := h.source_eq
  have htext : t.text = (front line c rest).text := by
    refine (h.text_or (by rw [hkind]; decide)).resolve_right ?_
    rintro ⟨hextensible, -⟩
    rw [hkind] at hextensible
    exact absurd hextensible (by decide)
  obtain ⟨inside, -, hslashes⟩ := spells_comment_iff.mp (hkind ▸ h.isCandidate.isMatch.1)
  have happend := h.isCandidate.append
  rw [hslashes, List.cons_append, List.cons_append] at happend
  cases happend
  rw [Lexer.lex_of_blank_shape (Or.inr rfl), ← h.behind_eq htext, htext]
  rfl

/-- A terminal with a value, which is the piece of the scanner, is its token. -/
theorem IsNext.lex_cons (h : IsNext before line (c :: rest) t rest') (hkind : t.kind ∉ ignored)
    (htext : t.text = (front line c rest).text)
    (hname : t.kind = .identifier → TokenKind.keyword? (String.ofList t.text) = none) :
    lex line (c :: rest) =
      (t.scanned :: (lex (line + lineEnds t.text) rest').1,
        (lex (line + lineEnds t.text) rest').2) := by
  have hblank : t.kind ≠ .blank := by
    intro heq
    exact hkind (heq ▸ by decide)
  obtain ⟨tok, hlexeme, hkinds⟩ := h.isCandidate.isMatch.1.exists_isLexeme hblank line
  obtain ⟨tok', houtcome, hfront⟩ := frontIsLexeme_of_prefix hlexeme ⟨_, h.isCandidate.append⟩
  obtain rfl : tok' = tok := hfront.unique (htext ▸ hlexeme)
  have hsame : tok'.kind = t.kind := by
    rcases hkinds with hsame | ⟨hidentifier, hkeyword⟩
    · exact hsame
    · rw [hname hidentifier] at hkeyword
      cases hkeyword
  have hsemantic : tok'.isSemantic := by
    have hall : ∀ kind ∈ terminals, kind ∉ ignored → kind.isSemantic := by decide
    rw [Token.isSemantic, hsame]
    exact hall _ h.isCandidate.isMatch.1.mem_terminals hkind
  have hscanned : t.scanned = tok' := by
    rw [← scanned_of_isLexeme hlexeme hsemantic, hsame, ← h.isCandidate.line]
  rw [Lexer.lex_of_outcome_ok houtcome hsemantic, hscanned, ← h.behind_eq htext, htext]
  rfl

/-- The tokens of a source are its terminals, if they are a phrase in which no name is a
keyword, and no form feed is a problem. -/
theorem lex_of_lexes (h : Lexes before line source us)
    (hformFeed : NoFormFeed (lex line source).2) (hfitting : IsFitting (us.map Lexeme.scanned))
    (hnames : ∀ u ∈ us, u.kind = .identifier →
      TokenKind.keyword? (String.ofList u.text) = none) :
    lex line source = (us.map Lexeme.scanned, []) := by
  induction h with
  | nil => exact Lexer.lex_nil _
  | @skip before ts line source rest t hnext hkind _ ih =>
      have hlex : lex line source = lex (line + lineEnds t.text) rest := by
        rcases List.mem_pair.mp hkind with hcomment | hblank
        · exact hnext.lex_comment hcomment
        · have hrun := (spells_blank_iff.mp (hblank ▸ hnext.isCandidate.isMatch.1)).2
          rw [← hnext.isCandidate.append] at hformFeed ⊢
          exact lex_blanks hrun hformFeed
      rw [hlex] at hformFeed ⊢
      exact ih hformFeed hfitting hnames
  | @cons before ts line source rest t hnext hkind hrest ih =>
      obtain ⟨c, others, rfl⟩ := hnext.source_eq
      obtain ⟨hname, hnames⟩ := List.forall_mem_cons.mp hnames
      have htext : t.text = (front line c others).text := by
        refine (hnext.text_or fun heq => hkind (heq ▸ by decide)).resolve_right ?_
        -- In a phrase, no equals sign stands behind an operator that it could belong to.
        rintro ⟨hextensible, hhead⟩
        obtain ⟨v, vs, rfl, hv⟩ := hrest.exists_equalSign hhead
        rw [← v.kind_scanned] at hv
        exact hfitting.1 (t.kind_scanned.symm ▸ hextensible) hv
      have hlex := hnext.lex_cons hkind htext hname
      have htail : IsFitting (ts.map Lexeme.scanned) := by
        match ts, hfitting with
        | [], _ => trivial
        | _ :: _, hfitting => exact hfitting.2
      rw [hlex] at hformFeed ⊢
      rw [ih hformFeed htail hnames]
      rfl

end Reference

end MiniLox
