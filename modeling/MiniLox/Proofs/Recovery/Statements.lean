import MiniLox.Proofs.Recovery.Slices
import MiniLox.Proofs.Session.Faults

/-!
# The statements of a pass

A pass over tokens returns the declarations that it could read, also when errors lie between
them.  Put side by side, the phrases of these declarations are the phrase of a program, and
what the pass returns is its meaning.  What the grammar tells of a program that is read without
an error holds, therefore, of the statements of every pass.
-/

namespace MiniLox

open Grammar

namespace Parser

/-- The statements of a pass are what a phrase means, all of whose tokens are among those that
the pass was given. -/
theorem exists_tree_of_declarations (last : Nat) (tokens : List Token) :
    ∃ t : Tree .program, t.meaning = (declarations last tokens).1 ∧
      ∀ u ∈ t.tokens, u ∈ tokens := by
  induction (0 : Nat), tokens using induction_on_slices last with
  | nil =>
      refine ⟨.nothing, ?_, fun _ => id⟩
      rw [declarations]
      rfl
  | cons start slice rest htakes ih =>
      obtain ⟨others, hmeaning, htokens⟩ := ih
      rw [htakes.declarations_eq, ← hmeaning]
      cases htakes with
      | tree first =>
          refine ⟨.more first others, rfl, fun u hu => ?_⟩
          exact List.mem_append.mpr ((List.mem_append.mp hu).imp_right (htokens u))
      | error =>
          exact ⟨others, rfl, fun u hu => List.mem_append_right _ (htokens u hu)⟩

end Parser

/-- The statements that are read from a source, whether or not there are errors in it, are what
a phrase of its tokens means. -/
theorem Lexer.exists_tree_of_scan (source : String) :
    ∃ t : Tree .program, t.meaning = (Program.parse (scan source).tokens).1 ∧
      ∀ u ∈ t.tokens, u ∈ (lex 1 source.toList).1 := by
  rw [← phrase_scan, ← tokens_ofTokens]
  exact Parser.exists_tree_of_declarations _ _

theorem Lexer.isComplete_of_scan (source : String) :
    Program.IsComplete (Program.parse (scan source).tokens).1 := by
  obtain ⟨t, hmeaning, htokens⟩ := exists_tree_of_scan source
  rw [← hmeaning]
  exact t.isComplete fun u hu => isComplete_of_mem_lex (htokens u hu)

end MiniLox
