import MiniLox.Reference.Transformer

/-!
# The language of the grammar

The grammar is read as follows.  A phrase derives a list of terminals, and a derivation gives
the parse trees of the phrase.  A source is cut into terminals from its start to its end.  In
each place only those terminals are looked for that are ignored or with which a program may
go on there, and of the texts that match, the longest is taken; where two terminals match the
same text, it is the one that is spelled out.  A word is matched as a whole word only.

The states of a table may also look for a semicolon or a closing mark where none can stand,
and find out after some reductions.  No other terminal starts with such a mark, hence the
source is refused either way.

`IsLark` is what is assumed of the parser that Lark generates from the grammar, with its
contextual lexer: it accepts the sources that are programs in this sense, and returns a parse
tree of the source.
-/

namespace MiniLox

namespace Reference

/-! ## Derivations -/

/-- A phrase derives some terminals and gives some parse trees. -/
inductive Derives : Phrase → List Lexeme → List ParseTree → Prop where
  | quoted (t : Lexeme) : Derives (.quoted t.kind) [t] []
  | named (t : Lexeme) : Derives (.named t.kind) [t] [.leaf t]
  | rule {r : Rule} {a : Alternative} {ts : List Lexeme} {xs : List ParseTree}
      (ha : a ∈ r.alternatives) (h : Derives a.phrase ts xs) :
      Derives (.rule r) ts [.build r a xs]
  | seq {p q : Phrase} {ts us : List Lexeme} {xs ys : List ParseTree}
      (hp : Derives p ts xs) (hq : Derives q us ys) : Derives (.seq p q) (ts ++ us) (xs ++ ys)
  | left {p q : Phrase} {ts : List Lexeme} {xs : List ParseTree} (h : Derives p ts xs) :
      Derives (.either p q) ts xs
  | right {p q : Phrase} {ts : List Lexeme} {xs : List ParseTree} (h : Derives q ts xs) :
      Derives (.either p q) ts xs
  | absent {p : Phrase} : Derives (.optional p) [] []
  | present {p : Phrase} {ts : List Lexeme} {xs : List ParseTree} (h : Derives p ts xs) :
      Derives (.optional p) ts xs
  | stop {p : Phrase} : Derives (.star p) [] []
  | more {p : Phrase} {ts us : List Lexeme} {xs ys : List ParseTree} (h : Derives p ts xs)
      (hmore : Derives (.star p) us ys) : Derives (.star p) (ts ++ us) (xs ++ ys)

/-! ## Terminals -/

/-- The texts of each terminal. -/
inductive Spells : TokenKind → List Char → Prop where
  | spelled {kind : TokenKind} (hkind : kind ∈ words ++ marks) :
      Spells kind kind.spelling.toList
  | whole {digits : List Char} (hne : digits ≠ []) (hdigits : ∀ c ∈ digits, c.isDigit) :
      Spells .number digits
  | fraction {digits places : List Char} (hne : digits ≠ []) (hdigits : ∀ c ∈ digits, c.isDigit)
      (hneplaces : places ≠ []) (hplaces : ∀ c ∈ places, c.isDigit) :
      Spells .number (digits ++ '.' :: places)
  | text {inside : List Char} (hinside : '"' ∉ inside) :
      Spells .text ('"' :: (inside ++ ['"']))
  | identifier {first : Char} {others : List Char} (hfirst : first.isAlpha ∨ first = '_')
      (hothers : ∀ c ∈ others, c.isAlphanum) : Spells .identifier (first :: others)
  | comment {inside : List Char} (hinside : '\n' ∉ inside) :
      Spells .comment ('/' :: '/' :: inside)
  | blank {run : List Char} (hne : run ≠ [])
      (hrun : ∀ c ∈ run, c ∈ [' ', '\t', '\x0c', '\r', '\n']) : Spells .blank run

/-- A terminal matches a text that the rest of a source follows. -/
def IsMatch (kind : TokenKind) (text rest : List Char) : Prop :=
  Spells kind text ∧ (kind ∈ words → ∀ c ∈ rest.head?, ¬c.isAlphanum)

/-- A terminal may stand behind some others: it is ignored, or a program can go on with it. -/
def MayFollow (before : List Lexeme) (kind : TokenKind) : Prop :=
  kind ∈ ignored ∨
    ∃ t after tree, t.kind = kind ∧ Derives (.rule .start) (before ++ t :: after) [tree]

/-- A terminal may be read at a place of a source, and this is the rest of the source. -/
structure IsCandidate (before : List Lexeme) (line : Nat) (source : List Char) (t : Lexeme)
    (rest : List Char) : Prop where
  append : t.text ++ rest = source
  line : t.line = line
  isMatch : IsMatch t.kind t.text rest
  mayFollow : MayFollow before t.kind

/-- A terminal is read at a place of a source, and this is the rest of the source. -/
structure IsNext (before : List Lexeme) (line : Nat) (source : List Char) (t : Lexeme)
    (rest : List Char) : Prop where
  isCandidate : IsCandidate before line source t rest
  beats : ∀ u rest', IsCandidate before line source u rest' → t.Beats u

/-- From a place on, behind some terminals, a source consists of some terminals. -/
inductive Lexes : List Lexeme → Nat → List Char → List Lexeme → Prop where
  | nil {before : List Lexeme} {line : Nat} : Lexes before line [] []
  | skip {before ts : List Lexeme} {line : Nat} {source rest : List Char} {t : Lexeme}
      (h : IsNext before line source t rest) (hkind : t.kind ∈ ignored)
      (hrest : Lexes before (line + Lexer.lineEnds t.text) rest ts) :
      Lexes before line source ts
  | cons {before ts : List Lexeme} {line : Nat} {source rest : List Char} {t : Lexeme}
      (h : IsNext before line source t rest) (hkind : t.kind ∉ ignored)
      (hrest : Lexes (before ++ [t]) (line + Lexer.lineEnds t.text) rest ts) :
      Lexes before line source (t :: ts)

/-! ## Parse trees of a source -/

/-- A parse tree of a source. -/
def IsParse (source : String) (tree : ParseTree) : Prop :=
  ∃ tokens, Lexes [] 1 source.toList tokens ∧ Derives (.rule .start) tokens [tree]

/-- What is assumed of the parser that Lark generates from the grammar. -/
structure IsLark (lark : String → Option ParseTree) : Prop where
  sound : ∀ source tree, lark source = some tree → IsParse source tree
  complete : ∀ source tree, IsParse source tree → (lark source).isSome

end Reference

end MiniLox
