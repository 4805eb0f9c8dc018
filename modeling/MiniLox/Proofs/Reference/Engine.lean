import MiniLox.Proofs.Reference.Derivations
import MiniLox.Proofs.Reference.Matching

/-!
# The engine is a parser of the grammar

The terminal that the engine reads at a place is the next one of the language, provided that it
may stand there.  Where a single terminal matches, that is not checked by the engine; a source
that is read as a program with it shows afterwards that it could stand there.
-/

namespace MiniLox

namespace Reference

open Engine

variable {before ts : List Lexeme} {line : Nat} {c : Char} {rest rest' source : List Char}
  {t u : Lexeme} {kind : TokenKind}

/-! ## The preferred terminal -/

theorem Lexeme.Beats.length_le (h : t.Beats u) : u.text.length ≤ t.text.length := by
  rcases h with h | ⟨h, -⟩
  · exact Nat.le_of_lt h
  · exact Nat.le_of_eq h

/-- A terminal that beats another one beats it with a shorter text, too. -/
theorem Lexeme.Beats.anti {v : Lexeme} (h : t.Beats u) (hkind : v.kind = u.kind)
    (hlength : v.text.length ≤ u.text.length) : t.Beats v := by
  rw [Lexeme.Beats, hkind]
  rcases h with h | ⟨h, hpreferred⟩
  · exact Or.inl (by omega)
  · rcases Nat.lt_or_eq_of_le hlength with hlt | heq
    · exact Or.inl (by omega)
    · exact Or.inr ⟨heq.trans h, hpreferred⟩

/-- No two kinds of terminals beat each other. -/
theorem Lexeme.Beats.antisymm (htu : t.Beats u) (hut : u.Beats t) :
    t.kind = u.kind ∧ t.text.length = u.text.length := by
  have hlength : t.text.length = u.text.length := Nat.le_antisymm hut.length_le htu.length_le
  refine ⟨?_, hlength⟩
  rcases htu with hlt | ⟨-, hkind | ⟨hspelled, hpattern⟩⟩
  · omega
  · exact hkind.symm
  · rcases hut with hlt | ⟨-, hkind | ⟨hspelled', -⟩⟩
    · omega
    · exact hkind
    · rw [Option.isNone_iff_eq_none.mp hpattern] at hspelled'
      cases hspelled'

/-! ## Candidates -/

theorem Spells.mem_terminals {text : List Char} (h : Spells kind text) : kind ∈ terminals := by
  cases h with
  | spelled hkind => exact List.mem_append_left _ (List.mem_append_left _ hkind)
  | whole | fraction | text | identifier | comment | blank => decide

theorem Spells.ne_nil {text : List Char} (h : Spells kind text) : text ≠ [] := by
  cases h with
  | spelled hkind =>
      have hall : ∀ kind ∈ words ++ marks, kind.spelling.toList ≠ [] := by decide
      exact hall kind hkind
  | whole hne => exact hne
  | fraction hne => exact List.append_ne_nil_of_left_ne_nil hne _
  | text | identifier | comment => exact List.cons_ne_nil _ _
  | blank hne => exact hne

/-- A candidate is a front of the source that matches. -/
theorem isCandidate_cons_iff : IsCandidate before line (c :: rest) t rest' ↔
    ∃ m ≤ rest.length, t = ⟨t.kind, c :: rest.take m, line⟩ ∧ rest' = rest.drop m ∧
      IsMatch t.kind (c :: rest.take m) (rest.drop m) ∧ MayFollow before t.kind := by
  constructor
  · rintro ⟨happend, hline, hmatch, hfollow⟩
    obtain ⟨kind, text, line⟩ := t
    dsimp only at happend hline hmatch hfollow ⊢
    obtain ⟨d, others, rfl⟩ := List.exists_cons_of_ne_nil hmatch.1.ne_nil
    rw [List.cons_append, List.cons.injEq] at happend
    obtain ⟨rfl, rfl⟩ := happend
    refine ⟨others.length, by simp, ?_, ?_, ?_, hfollow⟩
    · rw [List.take_left, hline]
    · rw [List.drop_left]
    · rwa [List.take_left, List.drop_left]
  · rintro ⟨m, -, ht, rfl, hmatch, hfollow⟩
    rw [ht]
    refine ⟨?_, rfl, hmatch, hfollow⟩
    rw [List.cons_append, List.take_append_drop]

theorem mem_matchesAt_iff {r : Reading Char Lexeme (c :: rest)} : r ∈ matchesAt line c rest ↔
    ∃ n, IsLongestMatch r.value.kind c rest n ∧ r.value = ⟨r.value.kind, c :: rest.take n, line⟩ ∧
      r.rest = rest.drop n := by
  rw [matchesAt, List.mem_filterMap]
  constructor
  · rintro ⟨kind, hkind, h⟩
    obtain ⟨n, hn, rfl⟩ := Option.map_eq_some_iff.mp h
    exact ⟨n, (matchLength?_eq_some_iff hkind).mp hn, rfl, rfl⟩
  · rintro ⟨n, hlongest, hvalue, hrest⟩
    have hkind := hlongest.isMatch.1.mem_terminals
    refine ⟨r.value.kind, hkind, Option.map_eq_some_iff.mpr
      ⟨n, (matchLength?_eq_some_iff hkind).mpr hlongest, ?_⟩⟩
    obtain ⟨value, others, shorter⟩ := r
    dsimp only at hvalue hrest
    subst hrest
    congr 1
    exact hvalue.symm

/-- A match that may stand at its place is a candidate. -/
theorem isCandidate_of_mem {r : Reading Char Lexeme (c :: rest)} (h : r ∈ matchesAt line c rest)
    (hfollow : MayFollow before r.value.kind) :
    IsCandidate before line (c :: rest) r.value r.rest := by
  obtain ⟨n, hlongest, hvalue, hrest⟩ := mem_matchesAt_iff.mp h
  exact isCandidate_cons_iff.mpr ⟨n, hlongest.le, hvalue, hrest, hlongest.isMatch, hfollow⟩

/-- A candidate is not longer than the match of its terminal. -/
theorem exists_mem_of_isCandidate (h : IsCandidate before line (c :: rest) t rest') :
    ∃ r ∈ matchesAt line c rest, r.value.kind = t.kind ∧
      t.text.length ≤ r.value.text.length := by
  obtain ⟨m, hm, ht, -, hmatch, -⟩ := isCandidate_cons_iff.mp h
  obtain ⟨n, hlongest, hle⟩ := exists_isLongestMatch hm hmatch
  refine ⟨⟨⟨t.kind, c :: rest.take n, line⟩, rest.drop n, ?_⟩,
    mem_matchesAt_iff.mpr ⟨n, hlongest, rfl, rfl⟩, rfl, ?_⟩
  · rw [List.length_drop, List.length_cons]
    omega
  · have hn := hlongest.le
    rw [ht]
    simp only [List.length_cons, List.length_take]
    omega

/-- Where two candidates are of one kind and have one length, they are one. -/
theorem IsCandidate.unique {rest'' : List Char} (ht : IsCandidate before line source t rest')
    (hu : IsCandidate before line source u rest'') (hkind : t.kind = u.kind)
    (hlength : t.text.length = u.text.length) : t = u ∧ rest' = rest'' := by
  obtain ⟨htext, hrest⟩ := List.append_inj (ht.append.trans hu.append.symm) hlength
  refine ⟨?_, hrest⟩
  obtain ⟨kind, text, line⟩ := t
  obtain ⟨kind', text', line'⟩ := u
  dsimp only at hkind htext
  have hline : line = line' := ht.line.trans hu.line.symm
  rw [hkind, htext, hline]

/-- There is one next terminal at most. -/
theorem IsNext.unique {rest'' : List Char} (ht : IsNext before line source t rest')
    (hu : IsNext before line source u rest'') : t = u ∧ rest' = rest'' := by
  obtain ⟨hkind, hlength⟩ :=
    (ht.beats u _ hu.isCandidate).antisymm (hu.beats t _ ht.isCandidate)
  exact ht.isCandidate.unique hu.isCandidate hkind hlength

/-! ## The terminal that is read -/

theorem mem_of_mem_choices {r : Reading Char Lexeme (c :: rest)}
    (h : r ∈ choices before line c rest) : r ∈ matchesAt line c rest := by
  rw [choices] at h
  split at h
  · exact h
  · exact List.mem_of_mem_filter h

theorem mem_choices {r : Reading Char Lexeme (c :: rest)} (h : r ∈ matchesAt line c rest)
    (hfollow : MayFollow before r.value.kind) : r ∈ choices before line c rest := by
  rw [choices]
  split
  · exact h
  · exact List.mem_filter.mpr ⟨h, mayFollow_iff.mpr hfollow⟩

/-- A choice may stand at its place, unless there is no other one. -/
theorem mayFollow_or_eq {r s : Reading Char Lexeme (c :: rest)}
    (hr : r ∈ matchesAt line c rest) (hs : s ∈ choices before line c rest) :
    MayFollow before s.value.kind ∨ s = r := by
  rw [choices] at hs
  split at hs
  · next hlength =>
    match matchesAt line c rest, hlength, hr, hs with
    | [_], _, hr, hs =>
        exact Or.inr ((List.mem_singleton.mp hs).trans (List.mem_singleton.mp hr).symm)
  · exact Or.inl (mayFollow_iff.mp (List.mem_filter.mp hs).2)

theorem isNext_of_next? {r : Reading Char Lexeme (c :: rest)}
    (h : next? before line c rest = some r) (hfollow : MayFollow before r.value.kind) :
    IsNext before line (c :: rest) r.value r.rest := by
  have hall := List.find?_some h
  have hmem := mem_of_mem_choices (List.mem_of_find?_eq_some h)
  refine ⟨isCandidate_of_mem hmem hfollow, ?_⟩
  intro u others hu
  obtain ⟨s, hs, hkind, hlength⟩ := exists_mem_of_isCandidate hu
  have hchoice : s ∈ choices before line c rest := mem_choices hs (hkind ▸ hu.mayFollow)
  have hbeats : r.value.Beats s.value := of_decide_eq_true (List.all_eq_true.mp hall s hchoice)
  exact hbeats.anti hkind.symm hlength

theorem exists_next?_of_isNext (h : IsNext before line (c :: rest) t rest') :
    ∃ r, next? before line c rest = some r ∧ r.value = t ∧ r.rest = rest' := by
  obtain ⟨r, hr, hkind, hlength⟩ := exists_mem_of_isCandidate h.isCandidate
  have hcandidate : IsCandidate before line (c :: rest) r.value r.rest :=
    isCandidate_of_mem hr (hkind ▸ h.isCandidate.mayFollow)
  have heq : t = r.value ∧ rest' = r.rest := by
    apply h.isCandidate.unique hcandidate hkind.symm
    exact Nat.le_antisymm hlength (h.beats _ _ hcandidate).length_le
  obtain ⟨rfl, rfl⟩ := heq
  have hbeats : ∀ s ∈ choices before line c rest, r.value.Beats s.value := by
    intro s hs
    rcases mayFollow_or_eq hr hs with hfollow | rfl
    · exact h.beats _ _ (isCandidate_of_mem (mem_of_mem_choices hs) hfollow)
    · exact Or.inr ⟨rfl, Or.inl rfl⟩
  have hchoice : r ∈ choices before line c rest := mem_choices hr h.isCandidate.mayFollow
  have hsome : (next? before line c rest).isSome := by
    refine List.find?_isSome.mpr ⟨r, hchoice, List.all_eq_true.mpr ?_⟩
    intro s hs
    exact decide_eq_true (hbeats s hs)
  obtain ⟨s, hs⟩ := Option.isSome_iff_exists.mp hsome
  have hall := List.find?_some hs
  have hback : s.value.Beats r.value := of_decide_eq_true (List.all_eq_true.mp hall r hchoice)
  obtain ⟨hsame, -⟩ := (hbeats s (List.mem_of_find?_eq_some hs)).antisymm hback
  have hnext := isNext_of_next? hs (hsame ▸ h.isCandidate.mayFollow)
  obtain ⟨hvalue, hrest⟩ := h.unique hnext
  exact ⟨s, hs, hvalue.symm, hrest.symm⟩

/-! ## The terminals of a source -/

theorem IsNext.source_eq (h : IsNext before line source t rest') :
    ∃ c rest, source = c :: rest := by
  apply List.exists_cons_of_ne_nil
  rw [← h.isCandidate.append]
  exact List.append_ne_nil_of_left_ne_nil h.isCandidate.isMatch.1.ne_nil _

theorem lexemes?_of_lexes (h : Lexes before line source ts) :
    lexemes? before line source = some ts := by
  induction h with
  | nil => rw [lexemes?]
  | skip hnext hkind _ ih =>
      obtain ⟨c, others, rfl⟩ := hnext.source_eq
      obtain ⟨r, hr, rfl, rfl⟩ := exists_next?_of_isNext hnext
      rw [lexemes?, hr]
      change (if r.value.kind ∈ ignored then _ else _) = _
      rw [if_pos hkind, ih]
  | cons hnext hkind _ ih =>
      obtain ⟨c, others, rfl⟩ := hnext.source_eq
      obtain ⟨r, hr, rfl, rfl⟩ := exists_next?_of_isNext hnext
      rw [lexemes?, hr]
      change (if r.value.kind ∈ ignored then _ else _) = _
      rw [if_neg hkind, ih]
      rfl

/-- The terminals that are read are those of the source, if a program starts with them. -/
theorem lexes_of_lexemes? {back : List Lexeme} {tree : ParseTree}
    (h : lexemes? before line source = some ts)
    (htree : Derives (.rule .start) (before ++ ts ++ back) [tree]) :
    Lexes before line source ts := by
  induction hlength : source.length using Nat.strongRecOn generalizing before line source ts with
  | ind length ih =>
      match source with
      | [] =>
          rw [lexemes?] at h
          cases h
          exact .nil
      | c :: rest =>
          rw [lexemes?] at h
          obtain ⟨r, hr, h⟩ := Option.bind_eq_some_iff.mp h
          have hshorter := r.shorter
          rw [hlength] at hshorter
          by_cases hkind : r.value.kind ∈ ignored
          · rw [if_pos hkind] at h
            exact .skip (isNext_of_next? hr (Or.inl hkind)) hkind
              (ih _ hshorter h htree rfl)
          · rw [if_neg hkind] at h
            obtain ⟨others, hothers, heq⟩ := Option.bind_eq_some_iff.mp h
            cases heq
            rw [List.append_assoc, List.cons_append] at htree
            refine .cons (isNext_of_next? hr (Or.inr ⟨_, _, tree, rfl, htree⟩)) hkind
              (ih _ hshorter hothers ?_ rfl)
            rwa [List.append_assoc, List.append_assoc, List.singleton_append]

/-- The engine is a parser of the grammar. -/
theorem isLark_parse? : IsLark Engine.parse? := by
  constructor
  · intro source tree h
    obtain ⟨tokens, htokens, h⟩ := Option.bind_eq_some_iff.mp h
    obtain ⟨⟨xs, rest⟩, hfind, hhead⟩ := Option.bind_eq_some_iff.mp h
    have hempty := List.find?_some hfind
    dsimp only at hempty
    obtain ⟨us, rfl, hderives⟩ := derives_of_mem_derivations (List.mem_of_find?_eq_some hfind)
    obtain ⟨found, rfl⟩ := hderives.exists_tree
    cases hhead
    rw [List.isEmpty_iff.mp hempty, List.append_nil] at htokens
    have htree : Derives (.rule .start) ([] ++ us ++ []) [tree] := by
      rwa [List.nil_append, List.append_nil]
    exact ⟨us, lexes_of_lexemes? htokens htree, hderives⟩
  · rintro source tree ⟨tokens, hlexes, hderives⟩
    have hheight : (Phrase.rule .start).height + 32 * tokens.length ≤ heightFor tokens := by
      rw [heightFor]
      change 21 + _ ≤ _
      omega
    have hmem := hderives.mem_derivations rfl [] hheight
    rw [List.append_nil] at hmem
    have hsome : ((derivations (heightFor tokens) (.rule .start) tokens).find?
        (·.2.isEmpty)).isSome := List.find?_isSome.mpr ⟨_, hmem, rfl⟩
    obtain ⟨⟨xs, rest⟩, hfind⟩ := Option.isSome_iff_exists.mp hsome
    obtain ⟨us, -, hfound⟩ := derives_of_mem_derivations (List.mem_of_find?_eq_some hfind)
    obtain ⟨found, rfl⟩ := hfound.exists_tree
    rw [Engine.parse?, lexemes?_of_lexes hlexes, Option.bind_eq_bind, Option.bind_some, hfind]
    rfl

end Reference

end MiniLox
