import MiniLox.Reading
import MiniLox.Reference.Grammar
import MiniLox.Token.Lexer

/-!
# A parser of the grammar

`Engine.parse?` reads a source by the data of the grammar alone.  The derivations of a phrase
from the front of some terminals are found one height after the other, and a program needs
no more height than its terminals allow.

Which terminal stands at a place of the source depends on those before it: only a terminal
with which a program may go on there is taken, and of these the one that is preferred.
Where a single terminal matches there is nothing to choose, and it is taken as it is; the
derivation then shows whether it may stand there.
-/

namespace MiniLox

namespace Reference

/-- Whether a character is a blank of the grammar. -/
def isBlank (c : Char) : Bool := Lexer.isBlank c || c == '\x0c'

namespace Engine

/-- What a phrase is read as from the front of some terminals, and what is left of them. -/
abbrev Derivation := List ParseTree × List Lexeme

/-- The derivations up to a height of a phrase from the front of some terminals. -/
def derivations (height : Nat) (phrase : Phrase) (tokens : List Lexeme) : List Derivation :=
  match height with
  | 0 => []
  | below + 1 =>
    match phrase, tokens with
    | .quoted kind, t :: rest => if t.kind = kind then [([], rest)] else []
    | .named kind, t :: rest => if t.kind = kind then [([.leaf t], rest)] else []
    | .quoted _, [] | .named _, [] => []
    | .rule r, tokens =>
      r.alternatives.flatMap fun a =>
        (derivations below a.phrase tokens).map fun d => ([.build r a d.1], d.2)
    | .seq first second, tokens =>
      (derivations below first tokens).flatMap fun d =>
        (derivations below second d.2).map fun e => (d.1 ++ e.1, e.2)
    | .either left right, tokens => derivations below left tokens ++ derivations below right tokens
    | .optional inner, tokens => ([], tokens) :: derivations below inner tokens
    | .star inner, tokens =>
      ([], tokens) :: (derivations below inner tokens).flatMap fun d =>
        (derivations below (.star inner) d.2).map fun e => (d.1 ++ e.1, e.2)

/-- Whether a phrase may start with some terminals, as far as derivations up to a height tell. -/
def mayStart (height : Nat) (phrase : Phrase) (tokens : List Lexeme) : Bool :=
  match height with
  | 0 => false
  | below + 1 =>
    tokens.isEmpty ||
      match phrase with
      | .quoted kind | .named kind => tokens.map Lexeme.kind = [kind]
      | .rule r => r.alternatives.any fun a => mayStart below a.phrase tokens
      | .seq first second =>
        mayStart below first tokens ||
          (derivations below first tokens).any fun d => mayStart below second d.2
      | .either left right => mayStart below left tokens || mayStart below right tokens
      | .optional inner => mayStart below inner tokens
      | .star inner =>
        mayStart below inner tokens ||
          (derivations below inner tokens).any fun d => mayStart below (.star inner) d.2

/-- A height that the derivations from a number of terminals do not exceed. -/
def heightFor (tokens : List Lexeme) : Nat := 32 * (tokens.length + 1)

/-- Whether a terminal may stand behind some others. -/
def mayFollow (before : List Lexeme) (kind : TokenKind) : Bool :=
  let tokens := before ++ [⟨kind, [], 0⟩]
  kind ∈ ignored || mayStart (heightFor tokens) (.rule .start) tokens

/-- How many characters after the first belong to the longest text of a terminal that a source
starts with. -/
def matchLength? (kind : TokenKind) (c : Char) (rest : List Char) : Option Nat :=
  if kind ∈ words ++ marks then
    let n := kind.spelling.toList.length - 1
    if kind.spelling.toList = c :: rest.take n ∧
        (kind ∈ words → !(rest.drop n).head?.any Char.isAlphanum) then
      some n
    else none
  else
    match kind with
    | .identifier =>
      if Lexer.startsWord c then some (Lexer.runLength Char.isAlphanum rest) else none
    | .number => if c.isDigit then some (Lexer.numberLength rest) else none
    | .text =>
      if c = '"' ∧ '"' ∈ rest then some (Lexer.runLength (· != '"') rest + 1) else none
    | .comment =>
      if c = '/' ∧ rest.head? = some '/' then some (Lexer.runLength (· != '\n') rest) else none
    | .blank => if isBlank c then some (Lexer.runLength isBlank rest) else none
    | _ => none

/-- The terminals that a source starts with, each at its longest. -/
def matchesAt (line : Nat) (c : Char) (rest : List Char) : List (Reading Char Lexeme (c :: rest)) :=
  terminals.filterMap fun kind =>
    (matchLength? kind c rest).map fun n =>
      ⟨⟨kind, c :: rest.take n, line⟩, rest.drop n, by
        rw [List.length_drop, List.length_cons]; omega⟩

/-- The matches among which to choose: those that may stand behind some terminals, or the one
that there is. -/
def choices (before : List Lexeme) (line : Nat) (c : Char) (rest : List Char) :
    List (Reading Char Lexeme (c :: rest)) :=
  let all := matchesAt line c rest
  if all.length ≤ 1 then all else all.filter (mayFollow before ·.value.kind)

/-- The terminal that stands behind some others. -/
def next? (before : List Lexeme) (line : Nat) (c : Char) (rest : List Char) :
    Option (Reading Char Lexeme (c :: rest)) :=
  let all := choices before line c rest
  all.find? fun r => all.all fun s => r.value.Beats s.value

/-- The terminals of a source that goes on behind some others. -/
def lexemes? (before : List Lexeme) (line : Nat) (source : List Char) : Option (List Lexeme) :=
  match source with
  | [] => some []
  | c :: rest => do
    let r ← next? before line c rest
    let after := line + Lexer.lineEnds r.value.text
    if r.value.kind ∈ ignored then lexemes? before after r.rest
    else return r.value :: (← lexemes? (before ++ [r.value]) after r.rest)
termination_by source.length
decreasing_by all_goals exact r.shorter

/-- The parse tree of a source, if it has one. -/
def parse? (source : String) : Option ParseTree := do
  let tokens ← lexemes? [] 1 source.toList
  let whole ← (derivations (heightFor tokens) (.rule .start) tokens).find? (·.2.isEmpty)
  whole.1.head?

end Engine

end Reference

end MiniLox
