import MiniLox.Proofs.Grammar.Exchanging

/-!
# Phrases in a row

The phrases of two programs, one behind the other, are the phrase of a program: its
statements are those of the first and then those of the second.
-/

namespace MiniLox

namespace Grammar

namespace Tree

/-- The derivation of two programs, one behind the other. -/
def append : Tree .program → Tree .program → Tree .program
  | .nothing, second => second
  | .more first others, second => .more first (others.append second)

theorem append_tokens : (a b : Tree .program) → (a.append b).tokens = a.tokens ++ b.tokens
  | .nothing, b => by
      rw [append]
      rfl
  | .more first others, b => by
      rw [append, tokens, tokens, append_tokens others b, List.append_assoc]

theorem append_meaning {p q : Program} :
    (a b : Tree .program) → a.meaning = p → b.meaning = q → (a.append b).meaning = p ++ q
  | .nothing, b, rfl, rfl => by
      rw [append]
      rfl
  | .more first others, b, rfl, rfl => by
      rw [append]
      exact congrArg (first.meaning :: ·) (append_meaning others b rfl rfl)

end Tree

end Grammar

end MiniLox
