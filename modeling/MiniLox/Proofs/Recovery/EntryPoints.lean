import MiniLox.Proofs.Recovery.Slices

/-!
# The first declaration of a program

A pass that reads a whole program and one that ends with the first declaration make the same
attempts: each fails, or goes on, on the same slices.  The two differ only where there is no
token at all, since the second makes an attempt even then.
-/

namespace MiniLox

namespace Parser

open Grammar

variable {last start : Nat} {tokens : List Token}

theorem firstDeclaration_of_tree (last : Nat) (t : Tree .declaration) (rest : List Token) :
    firstDeclaration last (t.tokens ++ rest) = (some t.meaning, []) := by
  obtain ⟨_, hread⟩ := t.yields_declaration last rest
  rw [firstDeclaration, hread]
  rfl

theorem firstDeclaration_of_end {failure : Failure}
    (hfail : declaration last tokens = .error failure) (hrest : recover tokens failure = []) :
    firstDeclaration last tokens = (none, [failure.error]) := by
  rw [firstDeclaration, hfail]
  dsimp only
  split
  · rfl
  · next h =>
    rw [hrest] at h
    cases h

theorem firstDeclaration_of_error {failure : Failure} {rest : List Token} (hne : rest ≠ [])
    (hfail : declaration last tokens = .error failure) (hrest : recover tokens failure = rest) :
    firstDeclaration last tokens =
      ((firstDeclaration last rest).1, failure.error :: (firstDeclaration last rest).2) := by
  rw [firstDeclaration, hfail]
  dsimp only
  split
  · next h => exact (hne (hrest.symm.trans h)).elim
  · next h => rw [← h, hrest]

/-- The first declaration is that of the first slice that has one, and the errors are those of
the slices in front of it, or of all slices if none has one. -/
theorem exists_first (last start : Nat) (hne : tokens ≠ []) :
    (∃ before slice after d, slices last start tokens = before ++ slice :: after ∧
        slice.outcome = .ok d ∧ before.filterMap Slice.statement? = [] ∧
        firstDeclaration last tokens = (some d, before.filterMap Slice.error?)) ∨
      (slices last start tokens).filterMap Slice.statement? = [] ∧
        firstDeclaration last tokens =
          (none, (slices last start tokens).filterMap Slice.error?) := by
  induction start, tokens using induction_on_slices last with
  | nil start => exact (hne rfl).elim
  | cons start slice rest htakes ih =>
      rw [htakes.slices_eq]
      cases htakes with
      | tree t =>
          exact Or.inl ⟨[], _, _, t.meaning, rfl, rfl, rfl, firstDeclaration_of_tree last t rest⟩
      | @error failure skipped _ _ hfail hrest =>
          by_cases hend : rest = []
          · rw [hend, slices_nil]
            rw [hend] at hfail hrest
            exact Or.inr ⟨rfl, firstDeclaration_of_end hfail hrest⟩
          · have hfirst := firstDeclaration_of_error hend hfail hrest
            rcases ih hend with ⟨before, slice, after, d, hslices, hread, hnone, ih⟩ | ⟨hnone, ih⟩
            · refine Or.inl ⟨⟨start, skipped, .error failure⟩ :: before, slice, after, d, ?_,
                hread, hnone, ?_⟩
              · rw [hslices]
                rfl
              · rw [hfirst, ih]
                rfl
            · refine Or.inr ⟨hnone, ?_⟩
              rw [hfirst, ih]
              rfl

/-- Without a token there is one attempt, which fails. -/
theorem firstDeclaration_nil (last : Nat) :
    firstDeclaration last [] = (none, [⟨last, .expression⟩]) := by
  have hread : declaration last [] = .error ⟨⟨last, .expression⟩, 0⟩ := by
    cbv
  exact firstDeclaration_of_end hread rfl

/-- The two ways of reading agree.  Where there is a token, the first statement of the program
is the one that is read, with the errors that the slices in front of its own give, and a
program without a statement leaves nothing but the same errors.  Where there is no token the
program is empty, while an expression is missed. -/
theorem parse_first_of_program (all : List Token) :
    let parts := slices (Input.ofTokens all).last 0 (phrase all)
    (phrase all ≠ [] →
      (∀ d others, (Program.parse all).1 = d :: others →
        ∃ before slice after, parts = before ++ slice :: after ∧ slice.outcome = .ok d ∧
          before.filterMap Slice.statement? = [] ∧
          Stmt.parse all = (some d, before.filterMap Slice.error?) ∧
          (Program.parse all).2 =
            before.filterMap Slice.error? ++ after.filterMap Slice.error?) ∧
      ((Program.parse all).1 = [] → Stmt.parse all = (none, (Program.parse all).2))) ∧
    (phrase all = [] →
      Program.parse all = ([], []) ∧
        Stmt.parse all = (none, [⟨(Input.ofTokens all).last, .expression⟩])) := by
  intro parts
  have hprogram : Program.parse all =
      (parts.filterMap Slice.statement?, parts.filterMap Slice.error?) := parse_eq_slices all
  have hfirst : Stmt.parse all = firstDeclaration (Input.ofTokens all).last (phrase all) := by
    rw [Stmt.parse, tokens_ofTokens]
  rw [hprogram, hfirst]
  constructor
  · intro hne
    rcases exists_first (Input.ofTokens all).last 0 hne with
      ⟨before, slice, after, d, hparts, hread, hnone, heq⟩ | ⟨hnone, heq⟩
    · change parts = _ at hparts
      have hstatements : parts.filterMap Slice.statement? =
          d :: after.filterMap Slice.statement? := by
        rw [hparts, List.filterMap_append, hnone, List.nil_append, List.filterMap_cons,
          Slice.statement?, hread]
      have herrors : parts.filterMap Slice.error? =
          before.filterMap Slice.error? ++ after.filterMap Slice.error? := by
        rw [hparts, List.filterMap_append, List.filterMap_cons, Slice.error?, hread]
      constructor
      · intro first others hfirst
        rw [hstatements, List.cons.injEq] at hfirst
        obtain ⟨rfl, -⟩ := hfirst
        exact ⟨before, slice, after, hparts, hread, hnone, heq, herrors⟩
      · intro hempty
        rw [hstatements] at hempty
        cases hempty
    · constructor
      · intro first others hsome
        cases hsome.symm.trans hnone
      · exact fun _ => heq
  · intro hempty
    have hparts : parts = [] := by
      change slices _ 0 (phrase all) = []
      rw [hempty, slices_nil]
    rw [hparts, hempty]
    exact ⟨rfl, firstDeclaration_nil _⟩

/-- A declaration without a name, and a statement behind it. -/
def nameless : List Token :=
  [.simple .varWord (some 1), .simple .semicolon (some 1), .simple .printWord (some 2),
    .simple .nilWord (some 2), .simple .semicolon (some 2)]

theorem parse_first_of_program_nameless :
    Program.parse nameless = ([.print (.literal .nil)], [⟨1, .variableName⟩]) ∧
      (Stmt.parse nameless).1 = some (.print (.literal .nil)) ∧
      (Stmt.parse [.simple .endOfInput (some 3)]) = (none, [⟨3, .expression⟩]) := by
  have hprogram : Program.parse nameless =
      ([.print (.literal .nil)], [⟨1, .variableName⟩]) := by
    decide +kernel
  obtain ⟨hfirst, -⟩ := (parse_first_of_program nameless).1 (by decide)
  obtain ⟨_, _, _, -, -, -, hstatement, -⟩ := hfirst _ _ (congrArg Prod.fst hprogram)
  refine ⟨hprogram, ?_, ((parse_first_of_program _).2 (by decide)).2⟩
  rw [hstatement]

end Parser

end MiniLox
