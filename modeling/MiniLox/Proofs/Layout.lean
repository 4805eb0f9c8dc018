import MiniLox.Proofs.Node.Equality

/-!
# Layout does not matter

Separators between the pieces of a source, and separators in the place of its blanks, change the
lines of its tokens and nothing else of them.  What is read from tokens is decided by their kinds
and literals, and therefore the statements are equal as trees, and the same syntax errors are
found in the same order.
-/

namespace MiniLox

/-- Two sources of which the second is scanned without a problem and amounts to the same as the
first, the lines aside. -/
structure ReadsAlike (source text : String) : Prop where
  errors : (Lexer.scan text).errors = []
  /-- The tokens that matter to the grammar agree in their kinds, their texts and their
  literals. -/
  tokens : ((Lexer.scan text).tokens.filter Token.isSemantic).map Token.unlined =
    ((Lexer.scan source).tokens.filter Token.isSemantic).map Token.unlined
  /-- The statements are equal as trees. -/
  statements : Node.equalAll (Stmt.nodes (Program.parse (Lexer.scan source).tokens).1)
    (Stmt.nodes (Program.parse (Lexer.scan text).tokens).1) = true
  /-- Literals included, they differ in the lines of their tokens alone. -/
  unlined : Program.mapTokens Token.unlined (Program.parse (Lexer.scan source).tokens).1 =
    Program.mapTokens Token.unlined (Program.parse (Lexer.scan text).tokens).1
  /-- The same syntax errors are found in the same order. -/
  messages : (Program.parse (Lexer.scan text).tokens).2.map (fun e => e.cause.message) =
    (Program.parse (Lexer.scan source).tokens).2.map fun e => e.cause.message

namespace Lexer

theorem filter_isSemantic_scan (source : String) :
    (scan source).tokens.filter Token.isSemantic =
      (lex 1 source.toList).1 ++ [⟨.endOfInput, "", none, some (scan source).line⟩] := by
  rw [scan]
  exact List.filter_append ..

/-- A pass over the tokens of a source finds the declarations and the errors that a pass over
the tokens without their lines finds. -/
theorem parse_unlined (source : String) :
    Program.mapTokens Token.unlined (Program.parse (scan source).tokens).1 =
        (Parser.declarations 0 ((lex 1 source.toList).1.map Token.unlined)).1 ∧
      (Program.parse (scan source).tokens).2.map SyntaxError.cause =
        (Parser.declarations 0 ((lex 1 source.toList).1.map Token.unlined)).2.map
          SyntaxError.cause := by
  rw [Program.parse, Grammar.tokens_ofTokens, phrase_scan]
  obtain ⟨hstatements, hcauses⟩ :=
    Parser.declarations_map keepsKinds_unlined (Parser.Input.ofTokens (scan source).tokens).last 0
      (lex 1 source.toList).1
  exact ⟨hstatements.symm, hcauses.symm⟩

end Lexer

/-- A source that is scanned without a problem keeps what it amounts to when separators come
between its pieces and in the place of its blanks. -/
theorem readsAlike_of_respaced {source text : String} (hscan : (Lexer.scan source).errors = [])
    (htext : Lexer.Respaced false (Lexer.pieces 1 source.toList) text.toList) :
    ReadsAlike source text := by
  have hscans : Lexer.Scans source.toList ((Lexer.lex 1 source.toList).1.map Token.unlined) :=
    (Lexer.scans_iff 1).mpr ⟨hscan, rfl⟩
  obtain ⟨herrors, htokens⟩ :=
    (Lexer.scans_iff 1).mp (htext.scans rfl (absurd · Bool.false_ne_true) hscans)
  obtain ⟨hstatements, hcauses⟩ := Lexer.parse_unlined source
  obtain ⟨hstatements', hcauses'⟩ := Lexer.parse_unlined text
  change (Lexer.lex 1 text.toList).1.map Token.unlined = _ at htokens
  have hunlined : Program.mapTokens Token.unlined (Program.parse (Lexer.scan source).tokens).1 =
      Program.mapTokens Token.unlined (Program.parse (Lexer.scan text).tokens).1 := by
    rw [hstatements, hstatements', htokens]
  constructor
  · exact herrors
  · rw [Lexer.filter_isSemantic_scan, Lexer.filter_isSemantic_scan, List.map_append,
      List.map_append, htokens]
    rfl
  · exact Lexer.equalAll_of_scan hunlined
  · exact hunlined
  · rw [← htokens, ← hcauses'] at hcauses
    have hmessages := congrArg (List.map SyntaxCause.message) hcauses
    rw [List.map_map, List.map_map] at hmessages
    exact hmessages.symm

/-- Pieces that stand close together: a slash, two equals signs, a comment, and a number in front
of a dot, where the second statement breaks. -/
def crowded : String := "b/2==1;//c\n3.;"

/-- The same pieces between blanks and comments. -/
def spacious : String := "b/ //e\n2 == 1;//c //d\r\n3 .;"

open Lexer in
theorem readsAlike_crowded_spacious :
    (scan crowded).errors = [] ∧ Respaced false (pieces 1 crowded.toList) spacious.toList ∧
      (Program.parse (scan spacious).tokens).2 = [⟨3, .semicolonAfterExpression⟩] ∧
      ReadsAlike crowded spacious := by
  have hscan : (scan crowded).errors = [] := by decide +kernel
  have hpieces : pieces 1 crowded.toList =
      [⟨.word, ['b'], 1⟩, ⟨.fixed .slash, ['/'], 1⟩, ⟨.number, ['2'], 1⟩,
        ⟨.fixed .equalEqual, ['=', '='], 1⟩, ⟨.number, ['1'], 1⟩, ⟨.fixed .semicolon, [';'], 1⟩,
        ⟨.comment, ['/', '/', 'c'], 1⟩, ⟨.blank, ['\n'], 1⟩, ⟨.number, ['3'], 2⟩,
        ⟨.fixed .dot, ['.'], 2⟩, ⟨.fixed .semicolon, [';'], 2⟩] := by decide +kernel
  have hnone : IsGap [] := .inl rfl
  have hspace : IsGap [' '] := .inr (.intro rfl .nil)
  have hremark : IsGap " //e\n".toList :=
    .inr (.intro rfl (@IsFiller.comment ['e'] [] (by decide) .nil))
  have hlonger : IsSeparator " //d\r\n".toList :=
    .intro rfl (@IsFiller.comment ['d', '\r'] [] (by decide) .nil)
  have htext : Respaced false (pieces 1 crowded.toList) spacious.toList := by
    rw [hpieces]
    refine @Respaced.keep _ _ _ _ _ hnone ?_
    refine @Respaced.keep _ _ _ _ _ hnone ?_
    refine @Respaced.keep _ _ _ _ _ hremark ?_
    refine @Respaced.keep _ _ _ _ _ hspace ?_
    refine @Respaced.keep _ _ _ _ _ hspace ?_
    refine @Respaced.keep _ _ _ _ _ hnone ?_
    refine @Respaced.keep _ _ _ _ _ hnone ?_
    refine @Respaced.exchange _ _ _ _ _ _ hnone rfl hlonger (by decide) ?_
    refine @Respaced.keep _ _ _ _ _ hnone ?_
    refine @Respaced.keep _ _ _ _ _ hspace ?_
    refine @Respaced.keep _ _ _ _ _ hnone ?_
    exact .finish hnone
  exact ⟨hscan, htext, by decide +kernel, readsAlike_of_respaced hscan htext⟩

end MiniLox
