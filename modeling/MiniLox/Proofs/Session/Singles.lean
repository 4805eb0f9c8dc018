import MiniLox.Proofs.Execution.Shown
import MiniLox.Proofs.Grammar.Contents
import MiniLox.Proofs.Numeric.Decimal
import MiniLox.Proofs.Numeric.Single
import MiniLox.Proofs.Session.Endings

/-!
# The numbers of a session

A source writes numbers as digits, which are read as numbers of 32 bits.  The operators round
their results to 32 bits, but for negation and for the division by zero, whose results need no
rounding.  In a session of sources, therefore, every number is one of 32 bits: those that are
bound, those that are shown, and those that are computed on the way, also where a run fails.

A stored tree may hold other numbers; the sources of a session never do.
-/

namespace MiniLox

open Grammar

/-- The value is one of 32 bits, if it is a number. -/
def Value.IsSingle : Value → Prop
  | .number n => n.IsSingle
  | _ => True

/-! ## Operators -/

namespace Evaluation

variable {v w : Value} {line : Json}

theorem isSingle_of_asNumber {n : Number} (hv : v.IsSingle) (h : v.asNumber line = .ok n) :
    n.IsSingle := by
  cases v with
  | number => exact Except.ok.inj h ▸ hv
  | _ => cases h

theorem isSingle_of_arithmetic {kind : TokenKind} {f : Number → Number → Value}
    (h : arithmetic? kind = some f) (a b : Number) : (f a b).IsSingle := by
  unfold arithmetic? at h
  split at h <;> cases h
  · exact Number.isSingle_toSingle _
  · exact Number.isSingle_toSingle _
  · exact Number.isSingle_toSingle _
  · trivial
  · trivial
  · trivial
  · trivial

theorem isSingle_of_plus {u : Value} (h : plus v w line = .ok u) : u.IsSingle := by
  have htexts : (do return .text ((← v.asText line) ++ (← w.asText line)) :
      Except Fault Value) = .ok u → u.IsSingle := by
    intro h
    obtain ⟨a, -, h⟩ := ok_of_bind h
    obtain ⟨b, -, h⟩ := ok_of_bind h
    cases h
    trivial
  cases v with
  | number a =>
      obtain ⟨b, -, h⟩ := ok_of_bind h
      cases h
      exact Number.isSingle_toSingle _
  | _ => exact htexts h

theorem isSingle_of_binaryResult {op : Mark} {u : Value} (h : binaryResult op v w = .ok u) :
    u.IsSingle := by
  rw [binaryResult] at h
  split at h
  · next f hf =>
    obtain ⟨a, -, h⟩ := ok_of_bind h
    obtain ⟨b, -, h⟩ := ok_of_bind h
    cases h
    exact isSingle_of_arithmetic hf a b
  · split at h
    · exact isSingle_of_plus h
    · cases h
      trivial
    · cases h
      trivial
    · cases h

/-- Negation alone does not round its result, and needs a number of 32 bits for one. -/
theorem isSingle_of_unaryResult {op : Mark} (hv : v.IsSingle) (h : unaryResult op v = .ok w) :
    w.IsSingle := by
  rw [unaryResult] at h
  split at h
  · obtain ⟨n, hn, h⟩ := ok_of_bind h
    cases h
    exact (isSingle_of_asNumber hv hn).neg
  · obtain ⟨b, -, h⟩ := ok_of_bind h
    cases h
    trivial
  · cases h

theorem isKept_isSingle : IsKept Value.IsSingle :=
  ⟨trivial, isSingle_of_unaryResult, fun _ _ => isSingle_of_binaryResult⟩

end Evaluation

/-! ## Literals -/

/-- A number in a source is neither negative nor without a value. -/
theorem Lexer.isUnsigned_numberValue (text : List Char) :
    (Lexer.numberValue text).IsUnsigned := by
  rw [Lexer.numberValue]
  apply Number.IsUnsigned.toSingle
  rw [Decimal.toNumber_eq]
  exact Number.isUnsigned_ofCode _

theorem Lexer.literal_of_mem_lex {line : Nat} {t : Token} {source : List Char}
    (h : t ∈ (Lexer.lex line source).1) :
    t.kind ≠ .number ∧ (∀ n, t.literal ≠ some (.number n)) ∨
      t.kind = .number ∧ ∃ text, t.literal = some (.number (Lexer.numberValue text)) := by
  obtain ⟨_, _, _, -, houtcome, hblank, hcomment⟩ := Lexer.exists_outcome_of_mem_lex h
  rcases Lexer.outcome_cases houtcome with
    ⟨k, hspelling, rfl⟩ | rfl | rfl | rfl | ⟨-, hshape | hshape⟩
  · obtain ⟨-, -, hnot⟩ := Lexer.kind_of_spelling hspelling
    refine Or.inl ⟨?_, nofun⟩
    rintro rfl
    exact hnot (by decide)
  · exact Or.inl ⟨nofun, nofun⟩
  · exact Or.inr ⟨rfl, _, rfl⟩
  · exact Or.inl ⟨nofun, nofun⟩
  · exact (hcomment hshape).elim
  · exact (hblank hshape).elim

/-- The token of a number in a source carries a number of 32 bits, which is neither negative
nor without a value. -/
theorem Lexer.literal_of_number {source : String} {t : Token}
    (h : t ∈ (Lexer.scan source).tokens) (hkind : t.kind = .number) :
    ∃ n, t.literal = some (.number n) ∧ n.IsSingle ∧ n.IsUnsigned := by
  have hmem : t ∈ (Lexer.lex 1 source.toList).1 := by
    have hsemantic : t.isSemantic := by
      rw [Token.isSemantic, hkind]
      rfl
    rcases List.mem_append.mp h with h | h
    · exact List.mem_filter.mpr ⟨h, hsemantic⟩
    · cases List.mem_singleton.mp h
      cases hkind
  rcases Lexer.literal_of_mem_lex hmem with ⟨hne, -⟩ | ⟨-, text, hliteral⟩
  · exact (hne hkind).elim
  · exact ⟨_, hliteral, Number.isSingle_toSingle _, Lexer.isUnsigned_numberValue text⟩

/-- The value that a token carries, if it carries one, is one of 32 bits if it is a number. -/
def Token.IsSingle (t : Token) : Prop := ∀ v, t.literal = some v → v.IsSingle

theorem Lexer.isSingle_of_mem_lex {line : Nat} {t : Token} {source : List Char}
    (h : t ∈ (Lexer.lex line source).1) : t.IsSingle := by
  intro v hv
  rcases Lexer.literal_of_mem_lex h with ⟨-, hnone⟩ | ⟨-, text, hliteral⟩
  · cases v with
    | number n => exact (hnone n hv).elim
    | _ => trivial
  · cases hv.symm.trans hliteral
    exact Number.isSingle_toSingle _

theorem Grammar.Tree.isSingle {s : Symbol} (t : Tree s) (h : ∀ u ∈ t.tokens, u.IsSingle) :
    ∀ v ∈ s.literals t.meaning, v.IsSingle :=
  t.forall_literals ⟨fun _ => trivial, trivial⟩ h

theorem IsProgram.isSingle {source : String} {p : Program} (h : IsProgram source p) :
    ∀ v ∈ Node.literalsAll (Stmt.nodes p), v.IsSingle := by
  obtain ⟨t, rfl, htokens⟩ := h.exists_tree
  exact t.isSingle fun u hu => Lexer.isSingle_of_mem_lex (htokens u hu)

/-! ## Sessions -/

namespace Session

open Evaluation (Moment Occurs)

/-- An environment that a session can come to, whatever its sources are, and whether their runs
fail or not. -/
inductive Reachable : Environment → Prop where
  | start : Reachable .empty
  | run {env : Environment} (h : Reachable env) (mode : Mode) (source : String) :
      Reachable (run mode source env).environment

variable {mode : Mode} {source : String} {env : Environment}

/-- A run leaves numbers of 32 bits where it has found such numbers. -/
theorem isSingle_run (h : env.Holds Value.IsSingle) :
    (run mode source env).environment.Holds Value.IsSingle :=
  holds_run Evaluation.isKept_isSingle mode (fun _ hp => hp.isSingle) h

theorem Reachable.isSingle (h : Reachable env) : env.Holds Value.IsSingle := by
  induction h with
  | start => exact Environment.holds_empty
  | run _ mode source ih => exact isSingle_run ih

/-- All numbers of the run of a source are numbers of 32 bits. -/
structure NumbersAreSingle (mode : Mode) (source : String) (env : Environment) : Prop where
  /-- Those that are bound before the run. -/
  bound : env.Holds Value.IsSingle
  /-- Those that are bound after it. -/
  left : (run mode source env).environment.Holds Value.IsSingle
  /-- Those that are bound before and after each statement and each expression inside, and the
  values of these. -/
  computed : ∀ p, IsProgram source p → ∀ m, Occurs mode (Stmt.nodes p) env m →
    m.environment.Holds Value.IsSingle ∧ (m.outcome mode).environment.Holds Value.IsSingle ∧
      ∀ v, (m.outcome mode).result = .ok v → v.IsSingle
  /-- Those that are shown. -/
  shown : ∀ p, IsProgram source p → ∀ line ∈ outputs (run mode source env).events,
    ∃ m v, Occurs mode (Stmt.nodes p) env m ∧ m.Displays mode v ∧ line = v.display ∧ v.IsSingle
  /-- Those of the literals, which are moreover neither negative nor without a value. -/
  literal : ∀ t ∈ (Lexer.scan source).tokens, t.kind = .number →
    ∃ n, t.literal = some (.number n) ∧ n.IsSingle ∧ n.IsUnsigned

theorem numbersAreSingle_of_reachable (mode : Mode) (source : String) (h : Reachable env) :
    NumbersAreSingle mode source env := by
  have hkept := Evaluation.isKept_isSingle
  have hbound := h.isSingle
  have hstarts : ∀ p, IsProgram source p → ∀ m, Occurs mode (Stmt.nodes p) env m →
      m.Starts Value.IsSingle :=
    fun p hp m hm => hm.starts hkept hbound hp.isSingle
  constructor
  · exact hbound
  · exact isSingle_run hbound
  · intro p hp m hm
    have hshows : Evaluation.Shows mode (fun _ => True) Value.IsSingle Value.IsSingle
        (m.outcome mode) :=
      (hstarts p hp m hm).shows hkept
    exact ⟨(hstarts p hp m hm).environment, hshows.environment, hshows.result⟩
  · intro p hp line hline
    rw [run_of_isProgram hp] at hline
    obtain ⟨m, v, hm, hdisplays, rfl⟩ := Evaluation.exists_displays_of_mem_outputs hline
    exact ⟨m, v, hm, hdisplays, rfl, hdisplays.of_starts hkept (hstarts p hp m hm)⟩
  · exact fun t ht hkind => Lexer.literal_of_number ht hkind

/-- A source that binds a number, and then asks for a name that nothing binds. -/
def asking : String := "var x = 0.1; y;"

theorem numbersAreSingle_after_asking :
    (run (.ofLevel 0) asking .empty).result.isOk = false ∧
      (run (.ofLevel 0) asking .empty).environment =
        ⟨[(.text "x", .number (.ofBits 0x3fb99999a0000000))], []⟩ ∧
      Reachable (run (.ofLevel 0) asking .empty).environment ∧
      NumbersAreSingle (.ofLevel 0) "print -x / 0;"
        (run (.ofLevel 0) asking .empty).environment := by
  have hreachable : Reachable (run (.ofLevel 0) asking .empty).environment :=
    .run .start (.ofLevel 0) asking
  refine ⟨?_, ?_, hreachable, numbersAreSingle_of_reachable (.ofLevel 0) _ hreachable⟩
  · decide +kernel
  · decide +kernel

end Session

end MiniLox
