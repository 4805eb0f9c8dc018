import Mathlib.Data.List.Basic
import MiniLox.Proofs.Frontend
import MiniLox.Proofs.Recovery.Slices

/-!
# Panic-mode recovery partitions the tokens

The tokens of a program, up to the first end of input, are cut into slices.  Each of them is
a declaration in one way only, or it starts where an attempt fails and reaches up to the
place from which the pass goes on.  An error is told by a token of its own slice, or by the
end, so the errors come in the order of the tokens that tell them, and for the tokens of a
source in the order of their lines.
-/

namespace MiniLox

namespace Parser

open Grammar

variable {last start : Nat} {tokens : List Token}

/-! ## The slices stand in a row -/

theorem flatMap_slices (last start : Nat) (tokens : List Token) :
    (slices last start tokens).flatMap Slice.tokens = tokens := by
  induction start, tokens using induction_on_slices last with
  | nil start => rw [slices_nil, List.flatMap_nil]
  | cons start slice rest htakes ih => rw [htakes.slices_eq, List.flatMap_cons, ih]

theorem tokens_ne_nil_of_mem_slices {slice : Slice} (h : slice ∈ slices last start tokens) :
    slice.tokens ≠ [] := by
  induction start, tokens using induction_on_slices last with
  | nil start =>
      rw [slices_nil] at h
      cases h
  | cons start first rest htakes ih =>
      rw [htakes.slices_eq] at h
      rcases List.mem_cons.mp h with rfl | h
      · exact htakes.tokens_ne_nil
      · exact ih h

/-- A slice starts where those before it end. -/
theorem start_eq_of_slices_eq {before after : List Slice} {slice : Slice}
    (h : slices last start tokens = before ++ slice :: after) :
    slice.start = start + (before.flatMap Slice.tokens).length := by
  induction start, tokens using induction_on_slices last generalizing before with
  | nil start =>
      rw [slices_nil] at h
      cases (List.append_eq_nil_iff.mp h.symm).2
  | cons start first rest htakes ih =>
      rw [htakes.slices_eq] at h
      match before with
      | [] =>
          rw [List.nil_append, List.cons.injEq] at h
          rw [← h.1]
          exact htakes.start_eq
      | _ :: others =>
          rw [List.cons_append, List.cons.injEq] at h
          obtain ⟨rfl, h⟩ := h
          rw [ih h, List.flatMap_cons, List.length_append, Slice.stop, htakes.start_eq,
            Nat.add_assoc]

theorem bounds_of_mem_slices {slice : Slice} (h : slice ∈ slices last start tokens) :
    start ≤ slice.start ∧ slice.stop ≤ start + tokens.length := by
  induction start, tokens using induction_on_slices last with
  | nil start =>
      rw [slices_nil] at h
      cases h
  | cons start first rest htakes ih =>
      have hstart := htakes.start_eq
      rw [htakes.slices_eq] at h
      rw [List.length_append]
      rcases List.mem_cons.mp h with rfl | h
      · rw [Slice.stop]
        omega
      · have hbounds := ih h
        have hstop : first.stop = first.start + first.tokens.length := rfl
        omega

theorem stop_le_start_of_slices (last start : Nat) (tokens : List Token) :
    (slices last start tokens).Pairwise fun a b => a.stop ≤ b.start := by
  induction start, tokens using induction_on_slices last with
  | nil start =>
      rw [slices_nil]
      exact .nil
  | cons start slice rest htakes ih =>
      rw [htakes.slices_eq]
      exact .cons (fun _ hb => (bounds_of_mem_slices hb).1) ih

/-! ## What a slice is -/

/-- The slice is what the attempt at its position comes to: the one derivation of a
declaration, or all that is passed over up to the place from which the pass goes on. -/
def Slice.IsSound (last : Nat) (tokens : List Token) (slice : Slice) : Prop :=
  match slice.outcome with
  | .ok d =>
    ∃ t : Tree .declaration, t.tokens = slice.tokens ∧ t.meaning = d ∧
      ∀ u : Tree .declaration, u.tokens = slice.tokens → u = t
  | .error failure =>
    declaration last (tokens.drop slice.start) = .error failure ∧
      (slice.start ≤ failure.cursor tokens ∧ failure.cursor tokens ≤ tokens.length) ∧
      ResumesAt tokens (failure.cursor tokens) slice.stop

theorem Slice.IsSound.of_error {slice : Slice} {failure : Failure}
    (h : slice.IsSound last tokens) (houtcome : slice.outcome = .error failure) :
    declaration last (tokens.drop slice.start) = .error failure ∧
      (slice.start ≤ failure.cursor tokens ∧ failure.cursor tokens ≤ tokens.length) ∧
      ResumesAt tokens (failure.cursor tokens) slice.stop := by
  rwa [IsSound, houtcome] at h

theorem remaining_le {failure : Failure} (h : declaration last tokens = .error failure) :
    failure.remaining ≤ tokens.length := by
  obtain ⟨b, rest, rfl, -, rfl⟩ := declaration_eq_error_iff.mp h
  rw [b.remaining_eq, List.length_append]
  split <;> omega

/-- What is passed over after a failure ends where the pass goes on. -/
theorem resumesAt_of_recover {failure : Failure} (before : List Token) {skipped rest : List Token}
    (hle : failure.remaining ≤ (skipped ++ rest).length)
    (hrest : recover (skipped ++ rest) failure = rest) :
    let whole := before ++ (skipped ++ rest)
    (before.length ≤ failure.cursor whole ∧ failure.cursor whole ≤ whole.length) ∧
      ResumesAt whole (failure.cursor whole) (before.length + skipped.length) := by
  intro whole
  have hlength : whole.length = before.length + (skipped ++ rest).length := List.length_append
  have hcursor : failure.cursor whole =
      before.length + ((skipped ++ rest).length - failure.remaining) := by
    rw [Failure.cursor]
    omega
  have hbounds : before.length ≤ failure.cursor whole ∧ failure.cursor whole ≤ whole.length := by
    omega
  refine ⟨hbounds, ?_⟩
  obtain ⟨q, hdrop, hq, hresumes⟩ := exists_resumesAt whole hbounds.2
  have hleft : whole.drop (failure.cursor whole) =
      (skipped ++ rest).drop ((skipped ++ rest).length - failure.remaining) := by
    rw [hcursor, ← List.drop_drop, List.drop_left]
  rw [hleft] at hdrop
  have hend : q = before.length + skipped.length := by
    have hsame : rest.length = whole.length - q := by
      rw [← List.length_drop, ← hdrop, ← recover, hrest]
    have happend : (skipped ++ rest).length = skipped.length + rest.length := List.length_append
    omega
  rwa [hend] at hresumes

theorem isSound_of_mem_slices (before : List Token) {slice : Slice}
    (h : slice ∈ slices last before.length tokens) : slice.IsSound last (before ++ tokens) := by
  induction hstart : before.length, tokens using induction_on_slices last
    generalizing before with
  | nil start =>
      rw [hstart, slices_nil] at h
      cases h
  | cons start first rest htakes ih =>
      rw [hstart, htakes.slices_eq] at h
      rcases List.mem_cons.mp h with rfl | h
      · cases htakes with
        | tree t =>
            refine ⟨t, rfl, rfl, fun u hu => ?_⟩
            have hsame : u.tokens ++ [] = t.tokens ++ [] := by rw [hu]
            exact (u.unique t hsame (stops_nil _) (stops_nil _)).1
        | error hne hfail hrest =>
            obtain ⟨hbounds, hresumes⟩ :=
              resumesAt_of_recover before (remaining_le hfail) hrest
            rw [← hstart]
            refine ⟨?_, hbounds, hresumes⟩
            rw [List.drop_left]
            exact hfail
      · have hstop : (before ++ first.tokens).length = first.stop := by
          rw [List.length_append, hstart, Slice.stop, htakes.start_eq]
        rw [← hstop] at h
        rw [← List.append_assoc]
        exact ih _ h hstop

/-! ## The tokens that tell the errors -/

/-- The position of the token that the error of a slice is told by. -/
def Slice.tag? (tokens : List Token) (slice : Slice) : Option Nat :=
  match slice.outcome with
  | .ok _ => none
  | .error failure => some (failure.tag tokens slice.start)

theorem Slice.tag?_eq_some_iff {slice : Slice} {i : Nat} :
    slice.tag? tokens = some i ↔
      ∃ failure, slice.outcome = .error failure ∧ failure.tag tokens slice.start = i := by
  rw [tag?]
  cases slice.outcome <;> simp

theorem Failure.place_le_cursor (failure : Failure) (tokens : List Token) :
    failure.place tokens ≤ failure.cursor tokens := by
  rw [place]
  split
  · exact Nat.sub_le _ _
  · exact Nat.le_refl _

/-- An error is told by the token at its tag, which the attempt has looked at. -/
theorem exists_told {all before : List Token} {failure : Failure}
    (hsplit : phrase all = before ++ tokens)
    (hfail : declaration (Input.ofTokens all).last tokens = .error failure) :
    let tag := failure.tag (phrase all) before.length
    (before.length ≤ tag ∧ tag ≤ failure.cursor (phrase all)) ∧
      ∃ told, (marked all)[tag]? = some told ∧ failure.error.line = lineOf told := by
  intro tag
  obtain ⟨b, rest, t, others, h⟩ := exists_gapAt hsplit hfail
  have hplace := failure.place_le_cursor (phrase all)
  by_cases hcause : failure.error.cause = .closingParen
  · obtain ⟨j, opening, hhead, ⟨hle, hlt⟩, hopening, -, hline⟩ := h.exists_opening hcause
    have hextract : (phrase all).extract before.length (failure.place (phrase all)) = b.tokens := by
      rw [h.place_eq, hsplit, h.tokens_eq, List.extract_eq_take_drop, List.drop_left,
        Nat.add_sub_cancel_left, List.take_left]
    have htag : tag = j := by
      change failure.tag (phrase all) before.length = j
      rw [Failure.tag, if_pos hcause, hextract, List.headD_eq_head?_getD, hhead, Option.getD_some]
    rw [htag]
    exact ⟨⟨hle, by omega⟩, opening, hopening, hline⟩
  · have htag : tag = failure.place (phrase all) := if_neg hcause
    have hstart := h.place_eq
    rw [htag]
    exact ⟨⟨by omega, hplace⟩, t, h.getElem?_place, h.line_eq_lineOf hcause⟩

section

variable {all : List Token}

theorem exists_told_of_mem_slices {slice : Slice} {failure : Failure}
    (h : slice ∈ slices (Input.ofTokens all).last 0 (phrase all))
    (houtcome : slice.outcome = .error failure) :
    let tag := failure.tag (phrase all) slice.start
    (slice.start ≤ tag ∧ tag ≤ failure.cursor (phrase all)) ∧
      ∃ told, (marked all)[tag]? = some told ∧ failure.error.line = lineOf told := by
  obtain ⟨hfail, hbounds, -⟩ := (isSound_of_mem_slices [] h).of_error houtcome
  rw [List.nil_append] at hfail hbounds
  have hlength : ((phrase all).take slice.start).length = slice.start :=
    List.length_take_of_le (Nat.le_trans hbounds.1 hbounds.2)
  have htold := exists_told (List.take_append_drop slice.start (phrase all)).symm hfail
  rwa [hlength] at htold

/-- The tokens that the errors are told by come in order. -/
theorem tags_increase (all : List Token) :
    ((slices (Input.ofTokens all).last 0 (phrase all)).filterMap
      (Slice.tag? (phrase all))).Pairwise (· < ·) := by
  apply List.pairwise_filterMap.mpr
  apply List.Pairwise.imp_of_mem _ (stop_le_start_of_slices _ 0 (phrase all))
  intro a b ha hb hstop i hi j hj
  obtain ⟨f, hf, rfl⟩ := Slice.tag?_eq_some_iff.mp hi
  obtain ⟨g, hg, rfl⟩ := Slice.tag?_eq_some_iff.mp hj
  obtain ⟨⟨-, hcursor⟩, -⟩ := exists_told_of_mem_slices ha hf
  obtain ⟨⟨hstart, -⟩, -⟩ := exists_told_of_mem_slices hb hg
  obtain ⟨-, -, hresumes, -⟩ := (isSound_of_mem_slices [] ha).of_error hf
  rw [List.nil_append] at hresumes
  -- The first of the two slices does not reach the end, for the other is not empty.
  have hbound : b.start + b.tokens.length ≤ 0 + (phrase all).length := (bounds_of_mem_slices hb).2
  have hpos := List.length_pos_iff.mpr (tokens_ne_nil_of_mem_slices hb)
  omega

/-- The lines of the errors are those of the tokens that they are told by. -/
theorem lines_eq_tags (all : List Token) :
    (Program.parse all).2.map (fun e => some e.line) =
      ((slices (Input.ofTokens all).last 0 (phrase all)).filterMap
        (Slice.tag? (phrase all))).map fun tag => (marked all)[tag]?.map lineOf := by
  rw [parse_eq_slices, List.map_filterMap, List.map_filterMap]
  apply List.filterMap_congr
  intro slice hslice
  rw [Slice.error?, Slice.tag?]
  cases houtcome : slice.outcome with
  | ok => rfl
  | error failure =>
      obtain ⟨-, told, htold, hline⟩ := exists_told_of_mem_slices hslice houtcome
      dsimp only [Option.map_some]
      rw [htold, hline, Option.map_some]

end

/-! ## The lines of a source -/

theorem lines_of_pieces (line : Nat) (source : List Char) :
    (Lexer.pieces line source).Pairwise (·.line ≤ ·.line) ∧
      ∀ p ∈ Lexer.pieces line source, line ≤ p.line := by
  induction line, source using Lexer.pieces.induct with
  | case1 line =>
      rw [Lexer.pieces]
      exact ⟨.nil, fun p hp => absurd hp List.not_mem_nil⟩
  | case2 line c rest _ _ ih =>
      have hnext : line ≤ (Lexer.front line c rest).endLine := Nat.le_add_right _ _
      obtain ⟨hordered, hle⟩ := ih
      rw [Lexer.pieces_cons]
      constructor
      · exact .cons (fun p hp => Nat.le_trans hnext (hle p hp)) hordered
      · intro p hp
        rcases List.mem_cons.mp hp with rfl | hp
        · exact Nat.le_refl _
        · exact Nat.le_trans hnext (hle p hp)

/-- A token that matters stands on the line on which its piece starts. -/
theorem lineOf_eq_of_token? {p : Piece} {t : Token} (h : p.token? = some t)
    (ht : t.isSemantic) : lineOf t = p.line := by
  rw [Piece.token?, Piece.outcome] at h
  cases hshape : p.shape <;> rw [hshape] at h
  case word =>
    dsimp only at h
    split at h <;> cases h <;> rfl
  case comment | blank =>
    cases h
    cases ht
  all_goals cases h <;> rfl

theorem marked_scan (source : String) :
    marked (Lexer.scan source).tokens =
      (Lexer.lex 1 source.toList).1 ++
        [⟨.endOfInput, "", none, some (1 + Lexer.lineEnds source.toList)⟩] := by
  have hsemantic : (Lexer.scan source).tokens.filter Token.isSemantic =
      (Lexer.lex 1 source.toList).1 ++
        [⟨.endOfInput, "", none, some (1 + Lexer.lineEnds source.toList)⟩] := by
    rw [Lexer.scan, List.filter_append]
    rfl
  rw [marked, hsemantic, List.getLast?_concat]
  rfl

/-- Later tokens of a source stand on the same line or below. -/
theorem lines_of_scan (source : String) :
    (marked (Lexer.scan source).tokens).Pairwise (lineOf · ≤ lineOf ·) := by
  rw [marked_scan]
  apply List.pairwise_append.mpr
  refine ⟨?_, List.pairwise_singleton _ _, ?_⟩
  · apply List.pairwise_filter.mpr
    apply List.pairwise_filterMap.mpr
    apply (lines_of_pieces 1 source.toList).1.imp
    intro p q hle t htoken u hutoken ht hu
    rw [lineOf_eq_of_token? htoken ht, lineOf_eq_of_token? hutoken hu]
    exact hle
  · intro t ht u hu
    obtain ⟨n, hline, hle⟩ := Lexer.line_le_of_mem_lex ht
    rw [List.mem_singleton.mp hu, lineOf, lineOf, hline]
    exact hle

/-- The errors of a source come in the order of their lines. -/
theorem errors_in_order (source : String) :
    ((Program.parse (Lexer.scan source).tokens).2.map SyntaxError.line).Pairwise (· ≤ ·) := by
  have hlines := lines_eq_tags (Lexer.scan source).tokens
  have hsorted := List.pairwise_iff_getElem.mp (lines_of_scan source)
  have hordered : ((Program.parse (Lexer.scan source).tokens).2.map
      (fun e => some e.line)).Pairwise fun a b => ∀ m ∈ a, ∀ n ∈ b, m ≤ n := by
    rw [hlines]
    apply List.pairwise_map.mpr
    apply (tags_increase (Lexer.scan source).tokens).imp
    intro i j hlt m hm n hn
    obtain ⟨t, ht, rfl⟩ := Option.map_eq_some_iff.mp hm
    obtain ⟨u, hu, rfl⟩ := Option.map_eq_some_iff.mp hn
    obtain ⟨hi, rfl⟩ := List.getElem?_eq_some_iff.mp ht
    obtain ⟨hj, rfl⟩ := List.getElem?_eq_some_iff.mp hu
    exact hsorted i j hi hj hlt
  apply List.pairwise_map.mpr
  exact (List.pairwise_map.mp hordered).imp fun h => h _ rfl _ rfl

/-! ## The partition -/

theorem length_filterMap_slices_le {α : Type} (last start : Nat) (tokens : List Token)
    (f : Slice → Option α) : ((slices last start tokens).filterMap f).length ≤ tokens.length := by
  apply Nat.le_trans (List.length_filterMap_le _ _)
  induction start, tokens using induction_on_slices last with
  | nil start =>
      rw [slices_nil]
      exact Nat.le_refl _
  | cons start slice rest htakes ih =>
      have hpos := List.length_pos_iff.mpr htakes.tokens_ne_nil
      rw [htakes.slices_eq, List.length_cons, List.length_append]
      omega

/-- Recovery partitions the tokens of a program.  They are cut into slices in a row, none of
them empty, and each is one derivation of a declaration, which is returned, or gives one
error and reaches from where the attempt starts up to where the pass goes on.  So there are
no more errors than tokens, the tokens that tell them come in order, and so do their lines
where the tokens are those of a source. -/
theorem parse_partitions :
    (∀ all : List Token,
      let tokens := phrase all
      let last := (Input.ofTokens all).last
      let parts := slices last 0 tokens
      parts.flatMap Slice.tokens = tokens ∧
        (∀ before slice after, parts = before ++ slice :: after →
          slice.start = (before.flatMap Slice.tokens).length ∧ slice.tokens ≠ [] ∧
            slice.IsSound last tokens) ∧
        Program.parse all =
          (parts.filterMap Slice.statement?, parts.filterMap Slice.error?) ∧
        (Program.parse all).2.length ≤ tokens.length ∧
        (parts.filterMap (Slice.tag? tokens)).Pairwise (· < ·) ∧
        (Program.parse all).2.map (fun e => some e.line) =
          (parts.filterMap (Slice.tag? tokens)).map fun tag => (marked all)[tag]?.map lineOf) ∧
      ∀ source : String,
        ((Program.parse (Lexer.scan source).tokens).2.map SyntaxError.line).Pairwise
          (· ≤ ·) := by
  refine ⟨fun all => ?_, errors_in_order⟩
  intro tokens last parts
  have hparse : Program.parse all =
      (parts.filterMap Slice.statement?, parts.filterMap Slice.error?) := parse_eq_slices all
  refine ⟨flatMap_slices last 0 tokens, ?_, hparse, ?_, tags_increase all, lines_eq_tags all⟩
  · intro before slice after hparts
    have hmem : slice ∈ parts := by
      rw [hparts]
      exact List.mem_append_right _ List.mem_cons_self
    have hstart := start_eq_of_slices_eq hparts
    rw [Nat.zero_add] at hstart
    exact ⟨hstart, tokens_ne_nil_of_mem_slices hmem, isSound_of_mem_slices [] hmem⟩
  · rw [hparse]
    exact length_filterMap_slices_le last 0 tokens Slice.error?

end Parser

end MiniLox
