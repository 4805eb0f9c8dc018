/-!
# Reading the front of a list

A reader takes something off the front of a list of characters or tokens and
returns it together with the rest.  It always takes at least one element, and
the result carries the proof: recursion on the rest therefore ends.
-/

namespace MiniLox

/-- What has been read from the front of a list, and the rest. -/
structure Reading (τ α : Type) (input : List τ) where
  value : α
  rest : List τ
  shorter : rest.length < input.length

namespace Reading

variable {τ α β : Type} {input : List τ}

/-- The same reading, seen from a longer input. -/
def weaken (r : Reading τ α input) {longer : List τ} (h : input.length ≤ longer.length) :
    Reading τ α longer :=
  ⟨r.value, r.rest, Nat.lt_of_lt_of_le r.shorter h⟩

/-- The same reading with another value. -/
def map (f : α → β) (r : Reading τ α input) : Reading τ β input :=
  ⟨f r.value, r.rest, r.shorter⟩

/-- A reading of the rest after this one, seen from the start. -/
def andThen (r : Reading τ α input) (s : Reading τ β r.rest) : Reading τ β input :=
  s.weaken (Nat.le_of_lt r.shorter)

end Reading

end MiniLox
