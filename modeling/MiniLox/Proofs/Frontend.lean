import MiniLox.Proofs.Grammar.Completeness
import MiniLox.Proofs.Lexing.Pieces

/-!
# From a source to its program

A source is scanned and read without an error if and only if its tokens are a phrase of the
grammar, and its program is what the phrase means.
-/

namespace MiniLox

open Grammar

/-- A source is scanned without a problem and read without an error, and this is its program. -/
def IsProgram (source : String) (p : Program) : Prop :=
  (Lexer.scan source).errors = [] ∧ Program.parse (Lexer.scan source).tokens = (p, [])

theorem phrase_scan (source : String) :
    phrase (Lexer.scan source).tokens = (Lexer.lex 1 source.toList).1 := by
  have hkinds : ∀ t ∈ (Lexer.lex 1 source.toList).1, (t.kind != .endOfInput) = true := by
    intro t ht
    exact bne_iff_ne.mpr (Lexer.kind_ne_of_mem_lex ht)
  rw [phrase, Lexer.scan]
  dsimp only
  rw [List.filter_append]
  change ((Lexer.lex 1 source.toList).1 ++ [_]).takeWhile _ = _
  rw [List.takeWhile_append_of_pos hkinds, List.takeWhile_cons_of_neg (by simp),
    List.append_nil]

theorem isProgram_iff {source : String} {p : Program} :
    IsProgram source p ↔
      ∃ t : Tree .program, t.meaning = p ∧ Lexer.lex 1 source.toList = (t.tokens, []) := by
  have herrors : (Lexer.scan source).errors = (Lexer.lex 1 source.toList).2 := rfl
  rw [IsProgram, herrors]
  constructor
  · rintro ⟨hnone, hparse⟩
    obtain ⟨t, hmeaning, htokens⟩ := exists_tree_of_parse hparse
    rw [phrase_scan] at htokens
    exact ⟨t, hmeaning, Prod.ext htokens.symm hnone⟩
  · rintro ⟨t, rfl, hlex⟩
    rw [hlex]
    refine ⟨rfl, parse_of_tree t ?_⟩
    rw [phrase_scan, hlex]

/-- The program of a source is the meaning of a phrase of its tokens. -/
theorem IsProgram.exists_tree {source : String} {p : Program} (h : IsProgram source p) :
    ∃ t : Tree .program, t.meaning = p ∧ ∀ u ∈ t.tokens, u ∈ (Lexer.lex 1 source.toList).1 := by
  obtain ⟨t, hmeaning, hlex⟩ := isProgram_iff.mp h
  refine ⟨t, hmeaning, ?_⟩
  rw [hlex]
  exact fun _ => id

end MiniLox
