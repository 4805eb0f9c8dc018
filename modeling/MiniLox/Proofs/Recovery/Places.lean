import Mathlib.Data.List.TakeWhile
import MiniLox.Proofs.Recovery.Causes

/-!
# Where a failure is

A failure is found at a place among the tokens that are looked at, and its error is told
by the line of a token.  That is the token at this place, except for a parenthesis that is
not closed: then it is the innermost one that is open there.
-/

namespace MiniLox

/-! ## The tokens that are looked at -/

namespace Grammar

open MiniLox.Parser

/-- The tokens that matter, with one behind them that marks the end where the last of them
does not.  It stands on the line of the last token. -/
def marked (all : List Token) : List Token :=
  let semantic := all.filter Token.isSemantic
  match semantic.getLast? with
  | some t =>
    if t.kind = .endOfInput then semantic else semantic ++ [⟨.endOfInput, "", none, t.line⟩]
  | none => [⟨.endOfInput, "", none, some 0⟩]

/-- Behind the tokens of a program stands one that marks the end, on the line of the end. -/
theorem exists_marked (all : List Token) :
    ∃ stop more, marked all = phrase all ++ stop :: more ∧ stop.kind = .endOfInput ∧
      lineOf stop = (Input.ofTokens all).last := by
  rw [marked, phrase, Input.ofTokens]
  generalize all.filter Token.isSemantic = semantic
  cases hfind : semantic.find? (·.kind == .endOfInput) with
  | some stop =>
      obtain ⟨hstop, before, more, rfl, hbefore⟩ := List.find?_eq_some_iff_append.mp hfind
      have hkinds : ∀ t ∈ before, (t.kind != .endOfInput) = true := hbefore
      have hphrase : (before ++ stop :: more).takeWhile (·.kind != .endOfInput) = before := by
        rw [List.takeWhile_append_of_pos hkinds, List.takeWhile_cons_of_neg (by simpa using hstop),
          List.append_nil]
      rw [hphrase]
      cases hlast : (before ++ stop :: more).getLast? with
      | none => simp at hlast
      | some t =>
          dsimp only
          split
          · exact ⟨stop, more, rfl, eq_of_beq hstop, rfl⟩
          · exact ⟨stop, more ++ [_], by rw [List.append_assoc, List.cons_append],
              eq_of_beq hstop, rfl⟩
  | none =>
      have hkinds : ∀ t ∈ semantic, (t.kind != .endOfInput) = true := by
        intro t ht
        exact bne_iff_ne.mpr fun h => List.find?_eq_none.mp hfind t ht (beq_iff_eq.mpr h)
      have hphrase : semantic.takeWhile (·.kind != .endOfInput) = semantic :=
        List.takeWhile_eq_self_iff.mpr hkinds
      rw [hphrase]
      cases hlast : semantic.getLast? with
      | none =>
          rw [List.getLast?_eq_none_iff.mp hlast]
          exact ⟨_, [], rfl, rfl, rfl⟩
      | some t =>
          have hkind := bne_iff_ne.mp (hkinds t (List.mem_of_getLast? hlast))
          dsimp only
          rw [if_neg hkind]
          exact ⟨_, [], rfl, rfl, rfl⟩

/-! ## Open parentheses -/

/-- The positions of the parentheses that are open behind some tokens, the innermost first.
The first token has the position `start`, and those of `outer` are open in front of it. -/
def openParens (outer : List Nat) (start : Nat) : List Token → List Nat
  | [] => outer
  | t :: rest =>
    match t.kind with
    | .leftParen => openParens (start :: outer) (start + 1) rest
    | .rightParen => openParens outer.tail (start + 1) rest
    | _ => openParens outer (start + 1) rest

theorem openParens_append (outer : List Nat) (start : Nat) (front rest : List Token) :
    openParens outer start (front ++ rest) =
      openParens (openParens outer start front) (start + front.length) rest := by
  induction front generalizing outer start with
  | nil => rfl
  | cons t front ih =>
      have hstart : start + (t :: front).length = start + 1 + front.length := by
        rw [List.length_cons]
        omega
      rw [List.cons_append, openParens, openParens, hstart]
      split <;> exact ih _ _

theorem openParens_cons {t : Token} (hleft : t.kind ≠ .leftParen) (hright : t.kind ≠ .rightParen)
    (outer : List Nat) (start : Nat) (rest : List Token) :
    openParens outer start (t :: rest) = openParens outer (start + 1) rest := by
  rw [openParens]
  split
  · next h => exact (hleft h).elim
  · next h => exact (hright h).elim
  · rfl

/-- A token that is no parenthesis changes nothing. -/
theorem Terminal.openParens_cons {kinds : List TokenKind} (t : Terminal kinds)
    (hleft : .leftParen ∉ kinds) (hright : .rightParen ∉ kinds) (outer : List Nat) (start : Nat)
    (rest : List Token) :
    openParens outer start (t.token :: rest) = openParens outer (start + 1) rest := by
  apply Grammar.openParens_cons
  · intro h
    exact hleft (h ▸ t.kind_mem)
  · intro h
    exact hright (h ▸ t.kind_mem)

theorem mem_operatorsUpTo {level : Nat} {k : TokenKind} (h : k ∈ operatorsAt level) :
    k ∈ operatorsUpTo topLevel := by
  match level with
  | 0 => cases h
  | 1 | 2 | 3 | 4 =>
      simp only [operatorsAt, List.mem_cons, List.not_mem_nil, or_false] at h
      rcases h with rfl | rfl | rfl | rfl <;> decide
  | _ + 5 => cases h

theorem openParens_operator {below : Nat} (operator : Terminal (operatorsAt (below + 1)))
    (outer : List Nat) (start : Nat) (rest : List Token) :
    openParens outer start (operator.token :: rest) = openParens outer (start + 1) rest := by
  apply operator.openParens_cons
  · exact fun h => absurd (mem_operatorsUpTo h) (by decide)
  · exact fun h => absurd (mem_operatorsUpTo h) (by decide)

/-- In a phrase every parenthesis is closed. -/
theorem Tree.openParens_tokens {s : Symbol} (t : Tree s) (outer : List Nat) (start : Nat) :
    openParens outer start t.tokens = outer := by
  induction t generalizing outer start with
  | nothing => rfl
  | more first others ihFirst ihOthers => rw [tokens, openParens_append, ihFirst, ihOthers]
  | declare word target close =>
      rw [tokens, word.openParens_cons (by decide) (by decide),
        target.openParens_cons (by decide) (by decide),
        close.openParens_cons (by decide) (by decide), openParens]
  | define word target sign value close ih =>
      rw [tokens, word.openParens_cons (by decide) (by decide),
        target.openParens_cons (by decide) (by decide),
        sign.openParens_cons (by decide) (by decide), openParens_append, ih,
        close.openParens_cons (by decide) (by decide), openParens]
  | statement inner ih => exact ih outer start
  | print word value close ih =>
      rw [tokens, word.openParens_cons (by decide) (by decide), openParens_append, ih,
        close.openParens_cons (by decide) (by decide), openParens]
  | block opening body closing close ih =>
      rw [tokens, opening.openParens_cons (by decide) (by decide), openParens_append, ih,
        closing.openParens_cons (by decide) (by decide),
        close.openParens_cons (by decide) (by decide), openParens]
  | evaluate value close ih =>
      rw [tokens, openParens_append, ih, close.openParens_cons (by decide) (by decide), openParens]
  | expression inner ih => exact ih outer start
  | assign target sign value ih =>
      rw [tokens, target.openParens_cons (by decide) (by decide),
        sign.openParens_cons (by decide) (by decide), ih]
  | equality inner ih => exact ih outer start
  | chain first others ihFirst ihOthers => rw [tokens, openParens_append, ihFirst, ihOthers]
  | stop => rfl
  | next operator right others ihRight ihOthers =>
      rw [tokens, openParens_operator, openParens_append, ihRight, ihOthers]
  | unary operator right ih => rw [tokens, operator.openParens_cons (by decide) (by decide), ih]
  | primary inner ih => exact ih outer start
  | literal t => rw [tokens, t.openParens_cons (by decide) (by decide), openParens]
  | grouping opening inner closing ih =>
      rw [tokens, openParens.eq_def]
      simp only [opening.kind_eq]
      rw [openParens_append, ih, openParens.eq_def]
      simp only [closing.kind_eq]
      rfl
  | reference t => rw [tokens, t.openParens_cons (by decide) (by decide), openParens]

end Grammar

/-! ## Places and tags -/

namespace Parser

namespace Failure

/-- The position among all tokens up to which they had been passed over. -/
def cursor (failure : Failure) (tokens : List Token) : Nat := tokens.length - failure.remaining

/-- The position of the token at which something else was expected: an equals sign that has
been passed over, or else the next token. -/
def place (failure : Failure) (tokens : List Token) : Nat :=
  if failure.error.cause = .assignmentTarget then failure.cursor tokens - 1
  else failure.cursor tokens

/-- The position of the token that the error is told by, for an attempt that starts at a
position: that of the innermost open parenthesis if it is not closed, or else the place. -/
def tag (failure : Failure) (tokens : List Token) (start : Nat) : Nat :=
  if failure.error.cause = .closingParen then
    (Grammar.openParens [] start (tokens.extract start (failure.place tokens))).headD 0
  else failure.place tokens

end Failure

end Parser

namespace Grammar

open MiniLox.Parser

variable {s : Symbol} {last : Nat} {rest : List Token}

/-- An equals sign without a target is the first token behind the gap. -/
theorem Broken.begins_equal {b : Broken s} (h : b.Refuses rest)
    (hcause : (b.failure last rest).error.cause = .assignmentTarget) : Begins [.equal] rest := by
  induction b with
  | gap g =>
      cases g with
      | assignmentTarget => exact h
      | _ => cases hcause
  | inside f b ih => exact ih h.2 hcause

theorem Broken.remaining_eq (b : Broken s) :
    (b.failure last rest).remaining =
      if (b.failure last rest).error.cause = .assignmentTarget then rest.length - 1
      else rest.length := by
  induction b with
  | gap g => cases g <;> rfl
  | inside f b ih => exact ih

theorem Broken.line_eq (b : Broken s)
    (hcause : (b.failure last rest).error.cause ≠ .closingParen) :
    (b.failure last rest).error.line = nextLine last rest := by
  induction b with
  | gap g =>
      cases g with
      | closingParen => exact (hcause rfl).elim
      | _ => rfl
  | inside f b ih => exact ih hcause

/-- A parenthesis that is not closed is the innermost one that is open in front of the gap. -/
theorem Broken.exists_opening (b : Broken s)
    (hcause : (b.failure last rest).error.cause = .closingParen) (outer : List Nat) (start : Nat) :
    ∃ j opening, (openParens outer start b.tokens).head? = some (start + j) ∧
      b.tokens[j]? = some opening ∧ opening.kind = .leftParen ∧
      (b.failure last rest).error.line = lineOf opening := by
  induction b generalizing outer start with
  | gap g =>
      cases g with
      | closingParen opening inner =>
          refine ⟨0, opening.token, ?_, rfl, opening.kind_eq, rfl⟩
          rw [tokens, Gap.tokens, openParens.eq_def]
          simp only [opening.kind_eq]
          rw [inner.openParens_tokens]
          rfl
      | _ => cases hcause
  | inside f b ih =>
      obtain ⟨j, opening, hhead, hopening, hkind, hline⟩ :=
        ih hcause (openParens outer start f.tokens) (start + f.tokens.length)
      refine ⟨f.tokens.length + j, opening, ?_, ?_, hkind, hline⟩
      · rw [tokens, openParens_append, hhead, Nat.add_assoc]
      · rw [tokens, List.getElem?_append_right (Nat.le_add_right _ _), Nat.add_sub_cancel_left]
        exact hopening

end Grammar

end MiniLox
