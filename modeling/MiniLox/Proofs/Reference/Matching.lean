import Mathlib.Data.Nat.Find
import MiniLox.Proofs.Lexing.LongestMatch
import MiniLox.Proofs.Reference.Language
import MiniLox.Reference.Engine

/-!
# Finding matches

`Engine.matchLength?` finds the longest text of a terminal that a source starts with.  For each
terminal there is a condition on the first characters under which it matches at all, and the
longest match is then a run of characters, a spelling, or a number as the scanner reads it.
-/

namespace MiniLox

namespace Reference

open Engine
open Lexer (runLength runLength_of_all runLength_le_append)

variable {kind : TokenKind} {c : Char} {rest text : List Char} {m n : Nat}

/-! ## Runs -/

theorem isBlank_iff : isBlank c ↔ c ∈ [' ', '\t', '\x0c', '\r', '\n'] := by
  simp only [isBlank, Lexer.isBlank, Bool.or_eq_true, beq_iff_eq, List.mem_cons,
    List.not_mem_nil, or_false]
  grind

/-- A run is the longest text of its characters. -/
theorem le_runLength {p : Char → Bool} (hm : m ≤ rest.length) (h : ∀ d ∈ rest.take m, p d) :
    m ≤ runLength p rest := by
  have hrun := runLength_le_append p (rest.take m) (rest.drop m)
  rwa [runLength_of_all h, List.take_append_drop, List.length_take, Nat.min_eq_left hm] at hrun

theorem forall_mem_take_runLength (p : Char → Bool) (rest : List Char) :
    ∀ d ∈ rest.take (runLength p rest), p d := by
  rw [Lexer.take_runLength]
  exact List.all_eq_true.mp List.all_takeWhile

/-! ## Texts of a terminal -/

theorem mem_terminals_iff : kind ∈ terminals ↔
    (kind ∈ words ++ marks ∨ kind = .comment ∨ kind = .blank) ∨
      kind = .number ∨ kind = .text ∨ kind = .identifier := by
  simp only [terminals, ignored, List.mem_append, List.mem_cons, List.not_mem_nil, or_false]

theorem Spells.eq_spelling (h : Spells kind text) (hkind : kind ∈ words ++ marks) :
    text = kind.spelling.toList := by
  cases h with
  | spelled => rfl
  | whole | fraction | text | identifier | comment | blank => exact absurd hkind (by decide)

theorem spells_number (h : Spells .number text) (line : Nat) :
    ∃ c rest t, text = c :: rest ∧ c.isDigit ∧ Lexer.IsLexeme line text t := by
  generalize hkind : TokenKind.number = kind at h
  cases h with
  | spelled hmem => exact absurd (hkind ▸ hmem) (by decide)
  | whole hne hdigits =>
      obtain ⟨c, rest, rfl⟩ := List.exists_cons_of_ne_nil hne
      exact ⟨c, rest, _, rfl, hdigits c List.mem_cons_self, .whole hne hdigits⟩
  | fraction hne hdigits hneplaces hplaces =>
      obtain ⟨c, rest, rfl⟩ := List.exists_cons_of_ne_nil hne
      exact ⟨c, _, _, List.cons_append .., hdigits c List.mem_cons_self,
        .fraction hne hdigits hneplaces hplaces⟩
  | text | identifier | comment | blank => cases hkind

theorem spells_text_iff : Spells .text text ↔ ∃ inside, '"' ∉ inside ∧
    text = '"' :: (inside ++ ['"']) := by
  constructor
  · intro h
    generalize hkind : TokenKind.text = kind at h
    cases h with
    | spelled hmem => exact absurd (hkind ▸ hmem) (by decide)
    | text hinside => exact ⟨_, hinside, rfl⟩
    | whole | fraction | identifier | comment | blank => cases hkind
  · rintro ⟨inside, hinside, rfl⟩
    exact .text hinside

theorem spells_identifier_iff : Spells .identifier (c :: rest) ↔
    Lexer.startsWord c ∧ ∀ d ∈ rest, d.isAlphanum := by
  have hfirst : Lexer.startsWord c ↔ c.isAlpha ∨ c = '_' := by
    rw [Lexer.startsWord, Bool.or_eq_true, beq_iff_eq]
  rw [hfirst]
  constructor
  · intro h
    generalize hkind : TokenKind.identifier = kind, htext : c :: rest = text at h
    cases h with
    | spelled hmem => exact absurd (hkind ▸ hmem) (by decide)
    | identifier hfirst hothers =>
        cases htext
        exact ⟨hfirst, hothers⟩
    | whole | fraction | text | comment | blank => cases hkind
  · rintro ⟨hfirst, hothers⟩
    exact .identifier hfirst hothers

theorem spells_comment_iff : Spells .comment text ↔ ∃ inside, '\n' ∉ inside ∧
    text = '/' :: '/' :: inside := by
  constructor
  · intro h
    generalize hkind : TokenKind.comment = kind at h
    cases h with
    | spelled hmem => exact absurd (hkind ▸ hmem) (by decide)
    | comment hinside => exact ⟨_, hinside, rfl⟩
    | whole | fraction | text | identifier | blank => cases hkind
  · rintro ⟨inside, hinside, rfl⟩
    exact .comment hinside

theorem spells_blank_iff : Spells .blank text ↔ text ≠ [] ∧ ∀ c ∈ text, isBlank c := by
  constructor
  · intro h
    generalize hkind : TokenKind.blank = kind at h
    cases h with
    | spelled hmem => exact absurd (hkind ▸ hmem) (by decide)
    | blank hne hrun => exact ⟨hne, fun c hc => isBlank_iff.mpr (hrun c hc)⟩
    | whole | fraction | text | identifier | comment => cases hkind
  · rintro ⟨hne, hrun⟩
    exact .blank hne fun c hc => isBlank_iff.mp (hrun c hc)

/-! ## Longest matches -/

/-- The longest match of a terminal has this many characters after the first. -/
structure IsLongestMatch (kind : TokenKind) (c : Char) (rest : List Char) (n : Nat) : Prop where
  le : n ≤ rest.length
  isMatch : IsMatch kind (c :: rest.take n) (rest.drop n)
  longest : ∀ m ≤ rest.length, IsMatch kind (c :: rest.take m) (rest.drop m) → m ≤ n

theorem exists_isLongestMatch (hm : m ≤ rest.length)
    (h : IsMatch kind (c :: rest.take m) (rest.drop m)) :
    ∃ n, IsLongestMatch kind c rest n ∧ m ≤ n := by
  classical
  let P (k : Nat) : Prop := IsMatch kind (c :: rest.take k) (rest.drop k)
  have hgreatest : P (Nat.findGreatest P rest.length) := Nat.findGreatest_spec hm h
  refine ⟨Nat.findGreatest P rest.length, ⟨Nat.findGreatest_le _, hgreatest, ?_⟩, ?_⟩
  · intro k hk hmatch
    exact Nat.le_findGreatest hk hmatch
  · exact Nat.le_findGreatest hm h

/-- A terminal is found if the condition under which it matches is known, with the length of
its match. -/
theorem eq_some_iff_isLongestMatch {result : Option Nat} {P : Prop} [Decidable P] {longest : Nat}
    (hresult : result = if P then some longest else none)
    (hlongest : P → IsLongestMatch kind c rest longest)
    (hmatch : ∀ m ≤ rest.length, IsMatch kind (c :: rest.take m) (rest.drop m) → P) :
    result = some n ↔ IsLongestMatch kind c rest n := by
  rw [hresult]
  constructor
  · intro h
    split at h
    · next hP =>
      cases h
      exact hlongest hP
    · cases h
  · intro h
    have hP := hmatch n h.le h.isMatch
    have hle := h.longest longest (hlongest hP).le (hlongest hP).isMatch
    have hge := (hlongest hP).longest n h.le h.isMatch
    rw [if_pos hP, Nat.le_antisymm hge hle]

theorem isMatch_of_not_mem (h : Spells kind text) (hkind : kind ∉ words) (rest : List Char) :
    IsMatch kind text rest :=
  ⟨h, fun hmem => (hkind hmem).elim⟩

theorem not_any_head?_iff {p : Char → Bool} {source : List Char} :
    (!source.head?.any p) = true ↔ ∀ d ∈ source.head?, ¬p d := by
  cases source <;> simp

theorem matchLength?_spelled (hkind : kind ∈ words ++ marks) :
    matchLength? kind c rest = some n ↔ IsLongestMatch kind c rest n := by
  refine eq_some_iff_isLongestMatch (if_pos hkind) ?_ ?_
  · rintro ⟨hspelling, hword⟩
    have hlength := congrArg List.length hspelling
    rw [List.length_cons, List.length_take] at hlength
    refine ⟨by omega, ⟨hspelling ▸ .spelled hkind, fun h => not_any_head?_iff.mp (hword h)⟩, ?_⟩
    intro m hm hmatch
    have hother := congrArg List.length (hmatch.1.eq_spelling hkind)
    rw [List.length_cons, List.length_take] at hother
    omega
  · rintro m hm ⟨hspells, hword⟩
    have hspelling := hspells.eq_spelling hkind
    have hlength : kind.spelling.toList.length - 1 = m := by
      rw [← hspelling, List.length_cons, List.length_take]
      omega
    rw [hlength]
    exact ⟨hspelling.symm, fun h => not_any_head?_iff.mpr (hword h)⟩

theorem matchLength?_number :
    matchLength? .number c rest = some n ↔ IsLongestMatch .number c rest n := by
  refine eq_some_iff_isLongestMatch (if_neg (by decide)) ?_ ?_
  · intro hdigit
    refine ⟨Lexer.numberLength_le rest, isMatch_of_not_mem ?_ (by decide) _, ?_⟩
    · have hdigits : ∀ d ∈ c :: rest.takeWhile Char.isDigit, d.isDigit :=
        List.forall_mem_cons.mpr ⟨hdigit, List.all_eq_true.mp List.all_takeWhile⟩
      rcases Lexer.take_numberLength rest with hwhole | ⟨places, hne, hplaces, hfraction⟩
      · rw [hwhole]
        exact .whole (List.cons_ne_nil _ _) hdigits
      · rw [hfraction, ← List.cons_append]
        exact .fraction (List.cons_ne_nil _ _) hdigits hne hplaces
    · intro m hm hmatch
      obtain ⟨_, _, t, -, -, hlexeme⟩ := spells_number hmatch.1 0
      have hfront : c :: rest.take m <+: c :: rest :=
        List.cons_prefix_cons.mpr ⟨rfl, List.take_prefix m rest⟩
      have hle := Lexer.length_le_of_isLexeme hfront hlexeme
      rw [Lexer.front, Lexer.cut_digit hdigit, List.length_cons, List.length_cons,
        List.length_take, List.length_take] at hle
      omega
  · intro m _ hmatch
    obtain ⟨_, _, _, heq, hdigit, -⟩ := spells_number hmatch.1 0
    cases heq
    exact hdigit

theorem matchLength?_identifier :
    matchLength? .identifier c rest = some n ↔ IsLongestMatch .identifier c rest n := by
  refine eq_some_iff_isLongestMatch (if_neg (by decide)) ?_ ?_
  · intro hword
    refine ⟨Lexer.runLength_le _ _, isMatch_of_not_mem ?_ (by decide) _, ?_⟩
    · exact spells_identifier_iff.mpr ⟨hword, forall_mem_take_runLength _ _⟩
    · intro m hm hmatch
      exact le_runLength hm (spells_identifier_iff.mp hmatch.1).2
  · intro m _ hmatch
    exact (spells_identifier_iff.mp hmatch.1).1

theorem matchLength?_text :
    matchLength? .text c rest = some n ↔ IsLongestMatch .text c rest n := by
  refine eq_some_iff_isLongestMatch (if_neg (by decide)) ?_ ?_
  · rintro ⟨rfl, hmem⟩
    obtain ⟨inside, after, hrest, hinside⟩ := List.eq_append_cons_of_mem hmem
    refine ⟨?_, isMatch_of_not_mem ?_ (by decide) _, ?_⟩
    · rw [hrest, Lexer.runLength_quotation hinside]
      simp
    · rw [hrest, Lexer.runLength_quotation hinside, List.append_cons, List.take_left' (by simp)]
      exact .text hinside
    · intro m hm hmatch
      obtain ⟨inside, hinside, heq⟩ := spells_text_iff.mp hmatch.1
      rw [List.cons.injEq] at heq
      have hrun := Lexer.runLength_quotation hinside (rest.drop m)
      have hlength := congrArg List.length heq.2
      rw [List.append_cons, ← heq.2, List.take_append_drop] at hrun
      rw [List.length_take, List.length_append, List.length_singleton] at hlength
      omega
  · intro m _ hmatch
    obtain ⟨inside, -, heq⟩ := spells_text_iff.mp hmatch.1
    rw [List.cons.injEq] at heq
    refine ⟨heq.1, List.mem_of_mem_take (i := m) ?_⟩
    rw [heq.2]
    exact List.mem_append_right _ List.mem_cons_self

theorem matchLength?_comment :
    matchLength? .comment c rest = some n ↔ IsLongestMatch .comment c rest n := by
  refine eq_some_iff_isLongestMatch (if_neg (by decide)) ?_ ?_
  · rintro ⟨rfl, hhead⟩
    obtain ⟨after, rfl⟩ := List.head?_eq_some_iff.mp hhead
    refine ⟨Lexer.runLength_le _ _, isMatch_of_not_mem ?_ (by decide) _, ?_⟩
    · rw [Lexer.take_runLength, List.takeWhile_cons_of_pos (by decide)]
      refine .comment ?_
      intro hmem
      exact absurd (List.all_eq_true.mp List.all_takeWhile _ hmem) (by decide)
    · intro m hm hmatch
      obtain ⟨inside, hinside, heq⟩ := spells_comment_iff.mp hmatch.1
      rw [List.cons.injEq] at heq
      apply le_runLength hm
      rw [heq.2]
      refine List.forall_mem_cons.mpr ⟨rfl, ?_⟩
      intro d hd
      exact bne_iff_ne.mpr fun heq => hinside (heq ▸ hd)
  · intro m _ hmatch
    obtain ⟨inside, -, heq⟩ := spells_comment_iff.mp hmatch.1
    rw [List.cons.injEq] at heq
    obtain ⟨hc, htake⟩ := heq
    refine ⟨hc, ?_⟩
    rw [← List.take_append_drop m rest, htake]
    rfl

theorem matchLength?_blank :
    matchLength? .blank c rest = some n ↔ IsLongestMatch .blank c rest n := by
  refine eq_some_iff_isLongestMatch (if_neg (by decide)) ?_ ?_
  · intro hblank
    refine ⟨Lexer.runLength_le _ _, isMatch_of_not_mem ?_ (by decide) _, ?_⟩
    · refine spells_blank_iff.mpr ⟨List.cons_ne_nil _ _, ?_⟩
      exact List.forall_mem_cons.mpr ⟨hblank, forall_mem_take_runLength _ _⟩
    · intro m hm hmatch
      exact le_runLength hm (List.forall_mem_cons.mp (spells_blank_iff.mp hmatch.1).2).2
  · intro m _ hmatch
    exact (List.forall_mem_cons.mp (spells_blank_iff.mp hmatch.1).2).1

/-- The longest match of a terminal is found. -/
theorem matchLength?_eq_some_iff (hkind : kind ∈ terminals) :
    matchLength? kind c rest = some n ↔ IsLongestMatch kind c rest n := by
  rcases mem_terminals_iff.mp hkind with (hspelled | rfl | rfl) | rfl | rfl | rfl
  · exact matchLength?_spelled hspelled
  · exact matchLength?_comment
  · exact matchLength?_blank
  · exact matchLength?_number
  · exact matchLength?_text
  · exact matchLength?_identifier

end Reference

end MiniLox
