import MiniLox.Token.Lexer

/-!
# The first piece of a source

Which shape the first piece of a source has is decided by its first character, except
for operators, where the next character matters too, and for quotations, which must be
closed.
-/

namespace MiniLox

namespace Lexer

variable {c : Char} {rest : List Char} {k : TokenKind}

/-! ## Runs -/

theorem drop_runLength (p : Char → Bool) (text : List Char) :
    text.drop (runLength p text) = text.dropWhile p :=
  calc text.drop (runLength p text)
      = (text.takeWhile p ++ text.dropWhile p).drop (text.takeWhile p).length := by
        rw [List.takeWhile_append_dropWhile, runLength]
    _ = text.dropWhile p := List.drop_left

theorem take_runLength (p : Char → Bool) (text : List Char) :
    text.take (runLength p text) = text.takeWhile p :=
  calc text.take (runLength p text)
      = (text.takeWhile p ++ text.dropWhile p).take (text.takeWhile p).length := by
        rw [List.takeWhile_append_dropWhile, runLength]
    _ = text.takeWhile p := List.take_left

/-! ## Sorts of characters -/

theorem isBlank_iff : isBlank c ↔ c = ' ' ∨ c = '\t' ∨ c = '\r' ∨ c = '\n' := by
  simp only [isBlank, Bool.or_eq_true, beq_iff_eq, or_assoc]

/-- The characters that start an operator or punctuation mark. -/
def signs : List Char :=
  ['(', ')', '{', '}', ',', '.', '-', '+', ';', '*', '!', '=', '<', '>', '/']

theorem mem_signs_of_single (h : single? c = some k) : c ∈ signs := by
  unfold single? at h
  split at h <;> first | decide | cases h

theorem mem_signs_of_equalSuffixed {k : TokenKind × TokenKind} (h : equalSuffixed? c = some k) :
    c ∈ signs := by
  unfold equalSuffixed? at h
  split at h <;> first | decide | cases h

theorem not_startsWord_of_isDigit (h : c.isDigit) : startsWord c = false := by
  have hle : 48 ≤ c.toNat ∧ c.toNat ≤ 57 := Char.isDigit_iff_toNat.mp h
  have hunderscore : c ≠ '_' := by
    rintro rfl
    exact absurd h (by decide)
  apply Bool.eq_false_iff.mpr
  intro hword
  change (decide ('A'.val ≤ c.val ∧ c.val ≤ 'Z'.val) ||
    (decide ('a'.val ≤ c.val) && decide (c.val ≤ 'z'.val)) || c == '_') = true at hword
  simp only [Bool.or_eq_true, Bool.and_eq_true, decide_eq_true_eq, beq_iff_eq,
    UInt32.le_iff_toNat_le] at hword
  change ((65 ≤ c.toNat ∧ c.toNat ≤ 90) ∨ (97 ≤ c.toNat ∧ c.toNat ≤ 122)) ∨ c = '_' at hword
  rcases hword with (hupper | hlower) | heq
  · omega
  · omega
  · exact hunderscore heq

/-- A character starts no more than one sort of piece. -/
theorem not_mem_of_startsWord (h : startsWord c) :
    c ∉ signs ∧ c ≠ '"' ∧ isBlank c = false ∧ c.isDigit = false := by
  refine ⟨?_, ?_, ?_, ?_⟩
  · intro hmem
    have hall : signs.all fun d => !startsWord d := by decide
    have hc := List.all_eq_true.mp hall c hmem
    rw [h] at hc
    cases hc
  · rintro rfl
    exact absurd h (by decide)
  · apply Bool.eq_false_iff.mpr
    intro hblank
    rcases isBlank_iff.mp hblank with rfl | rfl | rfl | rfl <;> exact absurd h (by decide)
  · apply Bool.eq_false_iff.mpr
    intro hdigit
    rw [not_startsWord_of_isDigit hdigit] at h
    cases h

theorem not_mem_of_isDigit (h : c.isDigit) : c ∉ signs ∧ c ≠ '"' ∧ isBlank c = false := by
  refine ⟨?_, ?_, ?_⟩
  · intro hmem
    have hall : signs.all fun d => !d.isDigit := by decide
    have hc := List.all_eq_true.mp hall c hmem
    rw [h] at hc
    cases hc
  · rintro rfl
    exact absurd h (by decide)
  · apply Bool.eq_false_iff.mpr
    intro hblank
    rcases isBlank_iff.mp hblank with rfl | rfl | rfl | rfl <;> exact absurd h (by decide)

/-- A character that starts no operator is cut by what else it is. -/
theorem cut_of_not_mem_signs (h : c ∉ signs) :
    cut c rest =
      if c = '"' then
        let inside := runLength (· != '"') rest
        if inside < rest.length then (.quotation, inside + 1) else (.openQuotation, inside)
      else if isBlank c then (.blank, runLength isBlank rest)
      else if c.isDigit then (.number, numberLength rest)
      else if startsWord c then (.word, runLength Char.isAlphanum rest)
      else (.unknown, 0) := by
  have hsingle : single? c = none := Option.eq_none_iff_forall_not_mem.mpr fun k hk =>
    h (mem_signs_of_single hk)
  have hequal : equalSuffixed? c = none := Option.eq_none_iff_forall_not_mem.mpr fun k hk =>
    h (mem_signs_of_equalSuffixed hk)
  have hslash : c ≠ '/' := by
    rintro rfl
    exact h (by decide)
  simp only [cut, hsingle, hequal]
  rw [if_neg hslash]

/-! ## Shapes -/

theorem cut_blank (h : isBlank c) : cut c rest = (.blank, runLength isBlank rest) := by
  rcases isBlank_iff.mp h with rfl | rfl | rfl | rfl <;> rfl

theorem cut_comment : cut '/' ('/' :: rest) = (.comment, 1 + runLength (· != '\n') rest) := rfl

theorem cut_word (h : startsWord c) : cut c rest = (.word, runLength Char.isAlphanum rest) := by
  obtain ⟨hsigns, hquote, hblank, hdigit⟩ := not_mem_of_startsWord h
  rw [cut_of_not_mem_signs hsigns, if_neg hquote, hblank, hdigit, h]
  rfl

theorem cut_digit (h : c.isDigit) : cut c rest = (.number, numberLength rest) := by
  obtain ⟨hsigns, hquote, hblank⟩ := not_mem_of_isDigit h
  rw [cut_of_not_mem_signs hsigns, if_neg hquote, hblank, h]
  rfl

theorem cut_unknown (hsigns : c ∉ signs) (hquote : c ≠ '"') (hblank : ¬isBlank c)
    (hdigit : ¬c.isDigit) (hword : ¬startsWord c) : cut c rest = (.unknown, 0) := by
  rw [cut_of_not_mem_signs hsigns, if_neg hquote, if_neg hblank, if_neg hdigit, if_neg hword]

theorem cut_single (h : single? c = some k) : cut c rest = (.fixed k, 0) := by
  simp only [cut, h]

theorem cut_equalSuffixed {plain long : TokenKind} (h : equalSuffixed? c = some (plain, long)) :
    cut c rest = if rest.head? = some '=' then (.fixed long, 1) else (.fixed plain, 0) := by
  have hsingle : single? c = none := by
    unfold equalSuffixed? at h
    split at h <;> first | rfl | cases h
  simp only [cut, hsingle, h]

theorem cut_slash (h : rest.head? ≠ some '/') : cut '/' rest = (.fixed .slash, 0) := by
  match rest with
  | [] => rfl
  | d :: after =>
      have hd : d ≠ '/' := fun heq => h (by rw [heq]; rfl)
      simp [cut, single?, equalSuffixed?, hd]

theorem mem_signs_cases (h : c ∈ signs) :
    (∃ k, single? c = some k) ∨ (∃ k, equalSuffixed? c = some k) ∨ c = '/' := by
  have hall : signs.all fun d => (single? d).isSome ∨ (equalSuffixed? d).isSome ∨ d = '/' := by
    decide
  have hc := List.all_eq_true.mp hall c h
  rw [decide_eq_true_iff] at hc
  rcases hc with hsome | hsome | hslash
  · exact Or.inl (Option.isSome_iff_exists.mp hsome)
  · exact Or.inr (Or.inl (Option.isSome_iff_exists.mp hsome))
  · exact Or.inr (Or.inr hslash)

theorem spelling_of_single (h : single? c = some k) :
    k.spelling = String.ofList [c] ∧ equalSuffixed? c = none := by
  unfold single? at h
  split at h <;> cases h <;> exact ⟨rfl, rfl⟩

theorem spelling_of_equalSuffixed {plain long : TokenKind}
    (h : equalSuffixed? c = some (plain, long)) :
    plain.spelling = String.ofList [c] ∧ long.spelling = String.ofList [c, '='] := by
  unfold equalSuffixed? at h
  split at h <;> cases h <;> exact ⟨rfl, rfl⟩

/-- An operator is as long as possible. -/
theorem cut_eq_fixed {n : Nat} (h : cut c rest = (.fixed k, n)) :
    c ∈ signs ∧ n ≤ rest.length ∧ k.spelling = String.ofList (c :: rest.take n) ∧
      ((equalSuffixed? c).isSome → rest.head? = some '=' → n = 1) := by
  have hmem : c ∈ signs := by
    by_cases hmem : c ∈ signs
    · exact hmem
    · rw [cut_of_not_mem_signs hmem] at h
      dsimp only at h
      repeat' split at h
      all_goals cases h
  refine ⟨hmem, ?_⟩
  rcases mem_signs_cases hmem with ⟨_, hsingle⟩ | ⟨⟨plain, long⟩, hsuffixed⟩ | rfl
  · obtain ⟨hspelling, hnone⟩ := spelling_of_single hsingle
    rw [cut_single hsingle] at h
    cases h
    rw [hnone]
    exact ⟨Nat.zero_le _, hspelling, fun h => nomatch h⟩
  · obtain ⟨hplain, hlong⟩ := spelling_of_equalSuffixed hsuffixed
    rw [cut_equalSuffixed hsuffixed] at h
    by_cases hhead : rest.head? = some '='
    · rw [if_pos hhead] at h
      cases h
      obtain ⟨after, rfl⟩ := List.head?_eq_some_iff.mp hhead
      exact ⟨Nat.le_add_left 1 _, hlong, fun _ _ => rfl⟩
    · rw [if_neg hhead] at h
      cases h
      exact ⟨Nat.zero_le _, hplain, fun _ h => (hhead h).elim⟩
  · by_cases hhead : rest.head? = some '/'
    · obtain ⟨after, rfl⟩ := List.head?_eq_some_iff.mp hhead
      cases h
    · rw [cut_slash hhead] at h
      cases h
      exact ⟨Nat.zero_le _, rfl, fun h => nomatch h⟩

theorem cut_of_mem_signs (h : c ∈ signs) (hcomment : ¬(c = '/' ∧ rest.head? = some '/')) :
    ∃ k n, cut c rest = (.fixed k, n) := by
  rcases mem_signs_cases h with ⟨k, hsingle⟩ | ⟨⟨plain, long⟩, hsuffixed⟩ | rfl
  · exact ⟨k, 0, cut_single hsingle⟩
  · rw [cut_equalSuffixed hsuffixed]
    split
    · exact ⟨long, 1, rfl⟩
    · exact ⟨plain, 0, rfl⟩
  · exact ⟨.slash, 0, cut_slash fun hhead => hcomment ⟨rfl, hhead⟩⟩

/-- Only a blank starts a piece of blanks, and only two slashes start a comment. -/
theorem cut_fst_ne (hblank : ¬isBlank c) (hcomment : ¬(c = '/' ∧ rest.head? = some '/')) :
    (cut c rest).1 ≠ .blank ∧ (cut c rest).1 ≠ .comment := by
  by_cases hsign : c ∈ signs
  · obtain ⟨k, n, hcut⟩ := cut_of_mem_signs hsign hcomment
    rw [hcut]
    exact ⟨nofun, nofun⟩
  · rw [cut_of_not_mem_signs hsign, if_neg hblank]
    dsimp only
    repeat' split
    all_goals exact ⟨nofun, nofun⟩

/-! ## Lengths -/

theorem runLength_le (p : Char → Bool) (text : List Char) : runLength p text ≤ text.length :=
  (List.takeWhile_prefix p).length_le

theorem numberLength_le (text : List Char) : numberLength text ≤ text.length := by
  have hwhole := runLength_le Char.isDigit text
  rw [numberLength]
  split
  · next d after hdrop =>
    have hlength := congrArg List.length hdrop
    have hafter := runLength_le Char.isDigit after
    rw [List.length_drop, List.length_cons, List.length_cons] at hlength
    split <;> omega
  · exact hwhole

theorem cut_snd_le : (cut c rest).2 ≤ rest.length := by
  by_cases hsign : c ∈ signs
  · by_cases hcomment : c = '/' ∧ rest.head? = some '/'
    · obtain ⟨rfl, hhead⟩ := hcomment
      obtain ⟨after, rfl⟩ := List.head?_eq_some_iff.mp hhead
      have hafter := runLength_le (· != '\n') after
      rw [cut_comment, List.length_cons]
      omega
    · obtain ⟨k, n, hcut⟩ := cut_of_mem_signs hsign hcomment
      rw [hcut]
      exact (cut_eq_fixed hcut).2.1
  · have hrun := runLength_le
    rw [cut_of_not_mem_signs hsign]
    dsimp only
    split
    · split
      · next hclosed => exact hclosed
      · exact hrun _ rest
    · split
      · exact hrun _ rest
      · split
        · exact numberLength_le rest
        · split
          · exact hrun _ rest
          · exact Nat.zero_le _

end Lexer

end MiniLox
