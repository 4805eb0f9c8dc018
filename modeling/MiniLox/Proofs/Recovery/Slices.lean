import MiniLox.Proofs.Recovery.Earliest

/-!
# How a pass cuts its tokens

A pass over tokens makes one attempt after another to read a declaration.  What an attempt
takes up is a slice of the tokens: the declaration that it reads, or else everything up to
the place from which the pass goes on.  The slices stand in a row and are never empty, so a
pass comes to an end, and an error is told by a token that stands behind those of all errors
before it.
-/

namespace MiniLox

namespace Parser

open Grammar

variable {last start : Nat} {tokens : List Token}

/-! ## Where a pass goes on -/

/-- Whether a pass may go on at a position: behind a semicolon, or in front of a word that
starts a statement, but not at the end. -/
def IsBoundary (tokens : List Token) (q : Nat) : Prop :=
  q < tokens.length ∧
    ((∃ t, tokens[q - 1]? = some t ∧ t.kind = .semicolon) ∨
      ∃ t, tokens[q]? = some t ∧ t.kind ∈ statementStarts)

/-- A pass that has failed at the cursor `p` goes on at the first boundary behind it, and ends
if there is none. -/
def ResumesAt (tokens : List Token) (p q : Nat) : Prop :=
  (p < q ∧ IsBoundary tokens q ∨ q = tokens.length) ∧
    ∀ r, p < r → r < q → ¬IsBoundary tokens r

theorem isBoundary_iff {front after : List Token} {previous t : Token} :
    IsBoundary (front ++ previous :: t :: after) (front.length + 1) ↔
      previous.kind = .semicolon ∨ t.kind ∈ statementStarts := by
  have hprevious : (front ++ previous :: t :: after)[front.length + 1 - 1]? = some previous := by
    rw [Nat.add_sub_cancel, List.getElem?_append_right (Nat.le_refl _), Nat.sub_self]
    rfl
  have hnext : (front ++ previous :: t :: after)[front.length + 1]? = some t := by
    rw [List.getElem?_append_right (Nat.le_add_right _ 1), Nat.add_sub_cancel_left]
    rfl
  have hlt : front.length + 1 < (front ++ previous :: t :: after).length := by
    simp only [List.length_append, List.length_cons]
    omega
  rw [IsBoundary, hprevious, hnext, and_iff_right hlt]
  simp only [Option.some.injEq, exists_eq_left']

theorem resume_eq_drop (front : List Token) (previous : Token) (after : List Token) :
    ∃ q, resume previous after = (front ++ previous :: after).drop q ∧
      front.length < q ∧ q ≤ (front ++ previous :: after).length ∧
      (IsBoundary (front ++ previous :: after) q ∨ q = (front ++ previous :: after).length) ∧
      ∀ r, front.length < r → r < q → ¬IsBoundary (front ++ previous :: after) r := by
  induction after generalizing front previous with
  | nil =>
      refine ⟨(front ++ [previous]).length, ?_, ?_, Nat.le_refl _, Or.inr rfl, ?_⟩
      · rw [resume, List.drop_length]
      · rw [List.length_append, List.length_singleton]
        exact Nat.lt_succ_self _
      · intro r hfront hr
        rw [List.length_append, List.length_singleton] at hr
        omega
  | cons t after ih =>
      rw [resume]
      split
      · next hboundary =>
        refine ⟨front.length + 1, ?_, Nat.lt_succ_self _, ?_,
          Or.inl (isBoundary_iff.mpr hboundary), ?_⟩
        · have hlength : front.length + 1 = (front ++ [previous]).length := by
            rw [List.length_append, List.length_singleton]
          rw [List.append_cons, hlength, List.drop_left]
        · simp only [List.length_append, List.length_cons]
          omega
        · intro r hfront hr
          omega
      · next hnot =>
        obtain ⟨q, hdrop, hfront, hle, hq, hbefore⟩ := ih (front ++ [previous]) t
        rw [List.append_assoc, List.singleton_append] at hdrop hle hq hbefore
        rw [List.length_append, List.length_singleton] at hfront hbefore
        refine ⟨q, hdrop, Nat.lt_of_succ_lt hfront, hle, hq, ?_⟩
        intro r hr hlt
        rcases Nat.eq_or_lt_of_le hr with heq | hgt
        · rw [← heq, isBoundary_iff]
          exact hnot
        · exact hbefore r hgt hlt

/-- Synchronizing from the cursor finds the first boundary behind it. -/
theorem exists_resumesAt (tokens : List Token) {p : Nat} (hp : p ≤ tokens.length) :
    ∃ q, synchronize (tokens.drop p) = tokens.drop q ∧ q ≤ tokens.length ∧
      ResumesAt tokens p q := by
  cases hdrop : tokens.drop p with
  | nil =>
      have hlength : p = tokens.length := by
        have := List.drop_eq_nil_iff.mp hdrop
        omega
      subst hlength
      refine ⟨tokens.length, ?_, Nat.le_refl _, Or.inr rfl, fun r hr hlt => ?_⟩
      · rw [synchronize, List.drop_length]
      · omega
  | cons previous after =>
      have htokens : tokens = tokens.take p ++ previous :: after := by
        rw [← hdrop, List.take_append_drop]
      have hlength : (tokens.take p).length = p := List.length_take_of_le hp
      obtain ⟨q, hresume, hlt, hle, hq, hbefore⟩ :=
        resume_eq_drop (tokens.take p) previous after
      rw [← htokens, hlength] at *
      refine ⟨q, hresume, hle, ?_, hbefore⟩
      exact hq.imp (fun h => ⟨hlt, h⟩) id

/-! ## The tokens that a failure takes up -/

theorem resume_suffix (previous : Token) (tokens : List Token) :
    resume previous tokens <:+ tokens := by
  induction tokens generalizing previous with
  | nil => exact List.suffix_refl _
  | cons t after ih =>
      rw [resume]
      split
      · exact List.suffix_refl _
      · exact (ih t).trans (List.suffix_cons t after)

theorem recover_suffix (tokens : List Token) (failure : Failure) :
    recover tokens failure <:+ tokens := by
  have hdrop := List.drop_suffix (tokens.length - failure.remaining) tokens
  rw [recover]
  generalize tokens.drop (tokens.length - failure.remaining) = left at hdrop ⊢
  match left with
  | [] => exact hdrop
  | t :: after => exact (resume_suffix t after).trans ((List.suffix_cons t after).trans hdrop)

/-- At least one token is passed over after a failure. -/
theorem exists_skipped (failure : Failure) (h : tokens ≠ []) :
    ∃ skipped, skipped ≠ [] ∧ tokens = skipped ++ recover tokens failure := by
  obtain ⟨skipped, htokens⟩ := recover_suffix tokens failure
  refine ⟨skipped, ?_, htokens.symm⟩
  rintro rfl
  have hlt := length_recover_lt h failure
  rw [List.nil_append] at htokens
  rw [htokens] at hlt
  exact Nat.lt_irrefl _ hlt

/-! ## Slices -/

/-- The tokens that a pass takes up at once, the position of the first of them, and what the
attempt to read a declaration there comes to. -/
structure Slice where
  start : Nat
  tokens : List Token
  outcome : Except Failure Stmt

namespace Slice

/-- The position behind the last token. -/
def stop (slice : Slice) : Nat := slice.start + slice.tokens.length

/-- The declaration that is read. -/
def statement? (slice : Slice) : Option Stmt :=
  match slice.outcome with
  | .ok d => some d
  | .error _ => none

/-- The error of an attempt that fails. -/
def error? (slice : Slice) : Option SyntaxError :=
  match slice.outcome with
  | .ok _ => none
  | .error failure => some failure.error

end Slice

/-- The slices of a pass over tokens the first of which has the position `start`. -/
def slices (last start : Nat) (tokens : List Token) : List Slice :=
  match tokens with
  | [] => []
  | t :: after =>
    match declaration last (t :: after) with
    | .ok d =>
      let front := (t :: after).take ((t :: after).length - d.rest.length)
      ⟨start, front, .ok d.value⟩ :: slices last (start + front.length) d.rest
    | .error failure =>
      let rest := recover (t :: after) failure
      let front := (t :: after).take ((t :: after).length - rest.length)
      ⟨start, front, .error failure⟩ :: slices last (start + front.length) rest
termination_by tokens.length
decreasing_by
  · exact d.shorter
  · exact length_recover_lt (List.cons_ne_nil t after) failure

@[simp] theorem slices_nil : slices last start [] = [] := by
  rw [slices]

theorem take_front (front rest : List Token) :
    (front ++ rest).take ((front ++ rest).length - rest.length) = front := by
  rw [List.length_append, Nat.add_sub_cancel, List.take_left]

/-- The slice is what the first attempt of a pass takes up, where `rest` stands behind it. -/
inductive Takes (last start : Nat) : Slice → List Token → Prop where
  | tree (t : Tree .declaration) (rest : List Token) :
      Takes last start ⟨start, t.tokens, .ok t.meaning⟩ rest
  | error {failure : Failure} {skipped rest : List Token} (hne : skipped ≠ [])
      (hfail : declaration last (skipped ++ rest) = .error failure)
      (hrest : recover (skipped ++ rest) failure = rest) :
      Takes last start ⟨start, skipped, .error failure⟩ rest

theorem exists_takes (last start : Nat) (h : tokens ≠ []) :
    ∃ slice rest, tokens = slice.tokens ++ rest ∧ Takes last start slice rest := by
  cases hread : declaration last tokens with
  | ok d =>
      have hyields : Yields (declaration last tokens) d.value d.rest := ⟨d.shorter, hread⟩
      obtain ⟨t, -, htokens⟩ := (derives_of_declaration last _).1 _ _ hyields
      exact ⟨_, d.rest, htokens, .tree t d.rest⟩
  | error failure =>
      obtain ⟨skipped, hne, htokens⟩ := exists_skipped failure h
      refine ⟨⟨start, skipped, .error failure⟩, recover tokens failure, htokens, .error hne ?_ ?_⟩
      · rw [← htokens, hread]
      · rw [← htokens]

namespace Takes

variable {slice : Slice} {rest : List Token}

theorem start_eq (h : Takes last start slice rest) : slice.start = start := by
  cases h with
  | tree => rfl
  | error => rfl

theorem tokens_ne_nil (h : Takes last start slice rest) : slice.tokens ≠ [] := by
  cases h with
  | tree t =>
      obtain ⟨head, tail, htokens, -⟩ := t.begins trivial
      dsimp only
      rw [htokens]
      exact List.cons_ne_nil head tail
  | error hne => exact hne

theorem slices_eq (h : Takes last start slice rest) :
    slices last start (slice.tokens ++ rest) = slice :: slices last slice.stop rest := by
  have hfront := take_front slice.tokens rest
  obtain ⟨head, tail, htokens⟩ := List.exists_cons_of_ne_nil
    (List.append_ne_nil_of_left_ne_nil h.tokens_ne_nil rest)
  rw [htokens] at hfront ⊢
  cases h with
  | tree t =>
      have hyields := t.yields_declaration last rest
      rw [htokens] at hyields
      obtain ⟨_, hread⟩ := hyields
      rw [slices, hread]
      dsimp only
      rw [hfront, Slice.stop]
  | error hne hfail hrest =>
      rw [htokens] at hfail hrest
      rw [slices, hfail]
      dsimp only
      rw [hrest, hfront, Slice.stop]

/-- The first attempt gives a declaration or an error. -/
theorem declarations_eq (h : Takes last start slice rest) :
    declarations last (slice.tokens ++ rest) =
      (slice.statement?.toList ++ (declarations last rest).1,
        slice.error?.toList ++ (declarations last rest).2) := by
  obtain ⟨head, tail, htokens⟩ := List.exists_cons_of_ne_nil
    (List.append_ne_nil_of_left_ne_nil h.tokens_ne_nil rest)
  rw [htokens]
  cases h with
  | tree t =>
      have hyields := t.yields_declaration last rest
      rw [htokens] at hyields
      obtain ⟨_, hread⟩ := hyields
      rw [declarations, hread]
      rfl
  | error hne hfail hrest =>
      rw [htokens] at hfail hrest
      rw [declarations, hfail]
      dsimp only
      rw [hrest]
      rfl

end Takes

/-- A pass takes up one slice after another. -/
@[elab_as_elim]
theorem induction_on_slices {motive : Nat → List Token → Prop} (last start : Nat)
    (tokens : List Token) (nil : ∀ start, motive start [])
    (cons : ∀ start slice rest, Takes last start slice rest → motive slice.stop rest →
      motive start (slice.tokens ++ rest)) : motive start tokens := by
  induction hlength : tokens.length using Nat.strongRecOn generalizing tokens start with
  | ind length ih =>
      by_cases hne : tokens = []
      · rw [hne]
        exact nil start
      · obtain ⟨slice, rest, rfl, htakes⟩ := exists_takes last start hne
        have hpos := List.length_pos_iff.mpr htakes.tokens_ne_nil
        rw [List.length_append] at hlength
        exact cons start slice rest htakes (ih _ (by omega) _ rest rfl)

/-- A pass returns the declarations of its slices and the errors of the others, in order. -/
theorem declarations_eq_slices (last start : Nat) (tokens : List Token) :
    declarations last tokens =
      ((slices last start tokens).filterMap Slice.statement?,
        (slices last start tokens).filterMap Slice.error?) := by
  induction start, tokens using induction_on_slices last with
  | nil start =>
      rw [slices_nil, declarations]
      rfl
  | cons start slice rest htakes ih =>
      rw [htakes.declarations_eq, htakes.slices_eq, ih, List.filterMap_cons, List.filterMap_cons]
      cases slice.statement? <;> cases slice.error? <;> rfl

theorem parse_eq_slices (all : List Token) :
    let parts := slices (Input.ofTokens all).last 0 (phrase all)
    Program.parse all =
      (parts.filterMap Slice.statement?, parts.filterMap Slice.error?) := by
  rw [Program.parse, tokens_ofTokens, declarations_eq_slices _ 0]

end Parser

end MiniLox
