import MiniLox.Proofs.Frontend
import MiniLox.Proofs.Reference.Scanning

/-!
# The two front ends agree

A source that is scanned and read without an error is read by the grammar too, and as the same
program.  Conversely, a source that is read by the grammar is scanned and read without an
error, provided that no name is a keyword and that no form feed stands outside quotations and
comments: the scanner knows neither keywords that are names nor form feeds that are blanks.

The parser of the grammar is whatever accepts its language.  Its parse trees need not be known,
since there is one program at most that the terminals of a source are a phrase of.
-/

namespace MiniLox

namespace Reference

open Grammar

variable {lark : String → Option ParseTree} {source : String} {p : Program} {us vs : List Lexeme}

theorem Lexes.unique {before : List Lexeme} {line : Nat} {source : List Char}
    (hus : Lexes before line source us) (hvs : Lexes before line source vs) : us = vs :=
  Option.some.inj ((lexemes?_of_lexes hus).symm.trans (lexemes?_of_lexes hvs))

/-- Terminals of the kinds of a program are derived as one. -/
theorem exists_derives_of_kinds (t : Tree .program)
    (hkinds : us.map Lexeme.kind = t.tokens.map Token.kind) :
    ∃ tree, Derives (.rule .start) us [tree] := by
  let bare (t : Token) : Lexeme := ⟨t.kind, [], 0⟩
  obtain ⟨_, hbare⟩ := exists_derives_start (f := bare) (fun _ => rfl) t
  have hsame : us.map Lexeme.kind = (t.tokens.map bare).map Lexeme.kind := by
    rw [hkinds, List.map_map]
    rfl
  obtain ⟨xs, hxs⟩ := hbare.exists_of_kinds hsame
  obtain ⟨tree, rfl⟩ := hxs.exists_tree
  exact ⟨tree, hxs⟩

/-- A source is the program that its terminals are a phrase of. -/
theorem IsLark.parseReference_eq_some_iff (hlark : IsLark lark) :
    parseReference lark source = some p ↔
      ∃ us, Lexes [] 1 source.toList us ∧
        ∃ t : Tree .program, t.tokens = us.map Lexeme.scanned ∧ t.meaning = p := by
  constructor
  · intro h
    obtain ⟨tree, htree, h⟩ := Option.bind_eq_some_iff.mp h
    obtain ⟨us, hlexes, hderives⟩ := hlark.sound source tree htree
    obtain ⟨t, htokens, htransform⟩ := hderives.exists_tree_of_start
    rw [htransform] at h
    exact ⟨us, hlexes, t, htokens, Option.some.inj h⟩
  · rintro ⟨us, hlexes, t, htokens, rfl⟩
    have hkinds : us.map Lexeme.kind = t.tokens.map Token.kind := by
      rw [htokens, List.map_map]
      exact List.map_congr_left fun u _ => u.kind_scanned.symm
    obtain ⟨_, hderives⟩ := exists_derives_of_kinds t hkinds
    obtain ⟨tree, htree⟩ := Option.isSome_iff_exists.mp
      (hlark.complete source _ ⟨us, hlexes, hderives⟩)
    -- The parser may have found another parse tree, but of the same terminals.
    obtain ⟨vs, hlexes', hfound⟩ := hlark.sound source tree htree
    obtain rfl := hlexes.unique hlexes'
    obtain ⟨u, htokens', htransform⟩ := hfound.exists_tree_of_start
    have hsame : u.tokens ++ [] = t.tokens ++ [] := by rw [htokens', htokens]
    obtain ⟨rfl, -⟩ := u.unique t hsame (stops_nil _) (stops_nil _)
    rw [parseReference, htree, Option.bind_eq_bind, Option.bind_some, htransform]
    rfl

theorem IsLark.parseReference_of_isProgram (hlark : IsLark lark) (h : IsProgram source p) :
    parseReference lark source = some p := by
  obtain ⟨t, rfl, hlex⟩ := isProgram_iff.mp h
  have hderives : ∀ us : List Lexeme, us.map Lexeme.kind = t.tokens.map Token.kind →
      ∃ tree, Derives (.rule .start) ([] ++ us) [tree] := fun us => exists_derives_of_kinds t
  obtain ⟨us, hlexes, hscanned⟩ := exists_lexes hlex hderives
  exact hlark.parseReference_eq_some_iff.mpr ⟨us, hlexes, t, hscanned.symm, rfl⟩

/-- A form feed that is a problem stands outside quotations and comments. -/
theorem noFormFeed_of_pieces {source : List Char}
    (h : ∀ piece ∈ Lexer.pieces 1 source, '\x0c' ∈ piece.text →
      piece.shape = .quotation ∨ piece.shape = .comment) :
    NoFormFeed (Lexer.lex 1 source).2 := by
  intro e he hcause
  obtain ⟨⟨shape, text, line⟩, hpiece, herror⟩ := List.mem_filterMap.mp he
  have hshape : shape = .unknown ∧ text.headD ' ' = '\x0c' := by
    cases shape
    case unknown =>
      cases herror
      exact ⟨rfl, LexicalCause.unknownCharacter.inj hcause⟩
    case openQuotation =>
      cases herror
      cases hcause
    case word =>
      rw [Piece.error?, Piece.outcome] at herror
      cases hkeyword : TokenKind.keyword? (String.ofList text) <;> simp [hkeyword] at herror
    all_goals cases herror
  obtain ⟨rfl, hhead⟩ := hshape
  have hmem : '\x0c' ∈ text := by
    cases text with
    | nil => exact absurd hhead (by decide)
    | cons c rest =>
        change c = '\x0c' at hhead
        rw [hhead]
        exact List.mem_cons_self
  rcases h _ hpiece hmem with hquotation | hcomment
  · cases hquotation
  · cases hcomment

/-- The identifiers among the terminals of a program are its names. -/
theorem mem_names_of_identifier {t : Tree .program} (htokens : t.tokens = us.map Lexeme.scanned)
    {u : Lexeme} (hu : u ∈ us) (hkind : u.kind = .identifier) :
    String.ofList u.text ∈ Program.names t.meaning := by
  have hscanned : u.scanned.lexeme = String.ofList u.text := by
    rw [Lexeme.scanned_eq_token (by rw [hkind]; decide), Lexeme.token, if_pos hkind]
  have hnames : Program.names t.meaning = identifiers t.tokens := names_meaning t
  rw [hnames, htokens, ← hscanned]
  apply List.mem_map_of_mem
  exact List.mem_filter.mpr
    ⟨List.mem_map_of_mem hu, decide_eq_true (u.kind_scanned.trans hkind)⟩

theorem IsLark.isProgram_of_parseReference (hlark : IsLark lark)
    (h : parseReference lark source = some p)
    (hformFeed : ∀ piece ∈ Lexer.pieces 1 source.toList, '\x0c' ∈ piece.text →
      piece.shape = .quotation ∨ piece.shape = .comment)
    (hnames : ∀ name ∈ Program.names p, TokenKind.keyword? name = none) :
    IsProgram source p := by
  obtain ⟨us, hlexes, t, htokens, rfl⟩ := hlark.parseReference_eq_some_iff.mp h
  have hlex := lex_of_lexes hlexes (noFormFeed_of_pieces hformFeed) (htokens ▸ isFitting_tokens t)
    fun u hu hkind => hnames _ (mem_names_of_identifier htokens hu hkind)
  exact isProgram_iff.mpr ⟨t, rfl, htokens ▸ hlex⟩

/-- The hand-written front end and the grammar agree on every source. -/
theorem frontends_agree (hlark : IsLark lark) (source : String) :
    ((Lexer.scan source).errors = [] → (Program.parse (Lexer.scan source).tokens).2 = [] →
      parseReference lark source = some (Program.parse (Lexer.scan source).tokens).1) ∧
    ∀ p, parseReference lark source = some p →
      (∀ piece ∈ Lexer.pieces 1 source.toList, '\x0c' ∈ piece.text →
        piece.shape = .quotation ∨ piece.shape = .comment) →
      (∀ name ∈ Program.names p, TokenKind.keyword? name = none) →
      (Lexer.scan source).errors = [] ∧ Program.parse (Lexer.scan source).tokens = (p, []) := by
  constructor
  · intro hscan hparse
    exact hlark.parseReference_of_isProgram ⟨hscan, Prod.ext rfl hparse⟩
  · intro p h hformFeed hnames
    exact hlark.isProgram_of_parseReference h hformFeed hnames

/-- A source with a form feed, in a quotation. -/
def quotedFormFeed : String := "var a = \"\x0c\";\nprint !a != a;"

/-- What the source with a form feed in a quotation is. -/
def quotedFormFeedProgram : Program :=
  let name (line : Nat) : Token := ⟨.identifier, "a", some (.text "a"), some line⟩
  [.declare (name 1) (some (.literal (.text "\x0c"))),
    .print (.binary (.unary (.simple .bang (some 2)) (.variable (name 2)))
      (.simple .bangEqual (some 2)) (.variable (name 2)))]

theorem frontends_agree_quotedFormFeed :
    parseReference Engine.parse? quotedFormFeed =
        some (Program.parse (Lexer.scan quotedFormFeed).tokens).1 ∧
      (Lexer.scan quotedFormFeed).errors = [] ∧
        Program.parse (Lexer.scan quotedFormFeed).tokens = (quotedFormFeedProgram, []) := by
  obtain ⟨hforward, hbackward⟩ := frontends_agree isLark_parse? quotedFormFeed
  constructor
  · apply hforward
    · decide +kernel
    · decide +kernel
  · apply hbackward quotedFormFeedProgram
    · decide +kernel
    · decide +kernel
    · decide +kernel

-- A keyword may be a name in the grammar, and a form feed may be a blank.
example : parseReference Engine.parse? "var\x0cvar;" =
    some [.declare ⟨.identifier, "var", some (.text "var"), some 1⟩ none] := by
  decide +kernel

end Reference

end MiniLox
