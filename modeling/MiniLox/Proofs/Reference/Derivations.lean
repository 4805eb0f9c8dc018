import Mathlib.Data.List.Basic
import MiniLox.Proofs.Reference.Language
import MiniLox.Reference.Engine

/-!
# Finding derivations

The derivations that `Engine.derivations` finds are those of the grammar.  That a height
suffices which is linear in the number of terminals has two reasons: what is repeated takes a
terminal each time, and a rule that is applied before any terminal is taken is one of a lower
rank.  Every phrase derives something, hence what a phrase may start with is found by reading
as far as the terminals go.
-/

namespace MiniLox

namespace Reference

open Engine

variable {p q : Phrase} {ts us rest front back : List Lexeme} {xs ys : List ParseTree} {n : Nat}

/-! ## What a derivation takes -/

/-- A bound on the rules that are applied one in the other before a terminal is taken. -/
def Rule.rank : Rule → Nat
  | .primary => 4
  | .unary => 5
  | .factor => 7
  | .term => 9
  | .comparison => 11
  | .equality => 13
  | .assignment => 14
  | .expression => 15
  | .exprStmt | .printStmt | .block | .varDecl => 17
  | .statement => 18
  | .declaration => 19
  | .start => 21

namespace Phrase

/-- Whether a phrase derives no empty list. -/
def isFilled : Phrase → Bool
  | .quoted _ | .named _ => true
  | .rule r => r ≠ .start
  | .seq p q => p.isFilled || q.isFilled
  | .either p q => p.isFilled && q.isFilled
  | .optional _ | .star _ => false

/-- Whether what is repeated takes a terminal each time. -/
def isGuarded : Phrase → Bool
  | .quoted _ | .named _ | .rule _ => true
  | .seq p q | .either p q => p.isGuarded && q.isGuarded
  | .optional p => p.isGuarded
  | .star p => p.isFilled && p.isGuarded

/-- A bound on the height of the derivations of a phrase, with each terminal counted apart. -/
def height : Phrase → Nat
  | .quoted _ | .named _ => 1
  | .rule r => r.rank
  | .seq p q => 1 + max p.height (if p.isFilled then q.height - 32 else q.height)
  | .either p q => 1 + max p.height q.height
  | .optional p | .star p => 1 + p.height

end Phrase

theorem Rule.alternatives_bounded (r : Rule) : ∀ a ∈ r.alternatives,
    a.phrase.isGuarded ∧ (r ≠ .start → a.phrase.isFilled) ∧ a.phrase.height < r.rank := by
  cases r <;> decide

theorem Phrase.height_pos (p : Phrase) : 0 < p.height := by
  cases p with
  | rule r => cases r <;> decide
  | quoted | named => exact Nat.one_pos
  | seq | either | optional | star => exact Nat.lt_add_right _ Nat.one_pos

theorem Phrase.exists_eq_succ {m : Nat} (h : p.height + m ≤ n) : ∃ below, n = below + 1 := by
  have hpos := p.height_pos
  exact ⟨n - 1, by omega⟩

theorem Derives.ne_nil (h : Derives p ts xs) (hp : p.isFilled) : ts ≠ [] := by
  induction h with
  | quoted => exact List.cons_ne_nil _ _
  | named => exact List.cons_ne_nil _ _
  | @rule r a _ _ ha _ ih => exact ih ((r.alternatives_bounded a ha).2.1 (of_decide_eq_true hp))
  | seq _ _ ihp ihq =>
      rw [Phrase.isFilled, Bool.or_eq_true] at hp
      rcases hp with hp | hq
      · exact List.append_ne_nil_of_left_ne_nil (ihp hp) _
      · exact List.append_ne_nil_of_right_ne_nil _ (ihq hq)
  | left _ ih => exact ih (Bool.and_eq_true_iff.mp hp).1
  | right _ ih => exact ih (Bool.and_eq_true_iff.mp hp).2
  | absent => cases hp
  | present => cases hp
  | stop => cases hp
  | more => cases hp

/-- The kinds of the terminals of a phrase itself. -/
def Phrase.kinds : Phrase → List TokenKind
  | .quoted kind | .named kind => [kind]
  | .rule _ => []
  | .seq p q | .either p q => p.kinds ++ q.kinds
  | .optional p | .star p => p.kinds

/-- Only the terminals of the grammar are derived. -/
theorem Derives.kind_mem (h : Derives p ts xs) (hp : ∀ k ∈ p.kinds, k ∈ terminals) :
    ∀ t ∈ ts, t.kind ∈ terminals := by
  induction h with
  | quoted t => exact List.forall_mem_singleton.mpr (hp _ List.mem_cons_self)
  | named t => exact List.forall_mem_singleton.mpr (hp _ List.mem_cons_self)
  | @rule r a _ _ ha _ ih =>
      have hall : ∀ a ∈ r.alternatives, ∀ k ∈ a.phrase.kinds, k ∈ terminals := by
        cases r <;> decide
      exact ih (hall a ha)
  | seq _ _ ihp ihq =>
      obtain ⟨hp, hq⟩ := List.forall_mem_append.mp hp
      exact List.forall_mem_append.mpr ⟨ihp hp, ihq hq⟩
  | left _ ih => exact ih (List.forall_mem_append.mp hp).1
  | right _ ih => exact ih (List.forall_mem_append.mp hp).2
  | absent => exact List.forall_mem_nil _
  | present _ ih => exact ih hp
  | stop => exact List.forall_mem_nil _
  | more _ _ ihp ihmore => exact List.forall_mem_append.mpr ⟨ihp hp, ihmore hp⟩

/-! ## All derivations are found -/

theorem derives_of_mem_derivations (h : (xs, rest) ∈ derivations n p ts) :
    ∃ us, ts = us ++ rest ∧ Derives p us xs := by
  induction n generalizing p ts xs rest with
  | zero => cases h
  | succ below ih =>
      match p with
      | .quoted kind =>
          match ts with
          | [] => cases h
          | t :: others =>
              rw [derivations] at h
              split at h
              · next hkind =>
                cases List.mem_singleton.mp h
                exact ⟨[t], rfl, hkind ▸ .quoted t⟩
              · cases h
      | .named kind =>
          match ts with
          | [] => cases h
          | t :: others =>
              rw [derivations] at h
              split at h
              · next hkind =>
                cases List.mem_singleton.mp h
                exact ⟨[t], rfl, hkind ▸ .named t⟩
              · cases h
      | .rule r =>
          rw [derivations] at h
          obtain ⟨a, ha, h⟩ := List.mem_flatMap.mp h
          obtain ⟨⟨ys, _⟩, hmem, heq⟩ := List.mem_map.mp h
          cases heq
          obtain ⟨us, hus, hderives⟩ := ih hmem
          exact ⟨us, hus, .rule ha hderives⟩
      | .seq p q =>
          rw [derivations] at h
          obtain ⟨⟨ys, mid⟩, hp, h⟩ := List.mem_flatMap.mp h
          obtain ⟨⟨zs, _⟩, hq, heq⟩ := List.mem_map.mp h
          cases heq
          obtain ⟨us, rfl, hfirst⟩ := ih hp
          obtain ⟨vs, rfl, hsecond⟩ := ih hq
          exact ⟨us ++ vs, (List.append_assoc ..).symm, .seq hfirst hsecond⟩
      | .either p q =>
          rw [derivations] at h
          rcases List.mem_append.mp h with h | h
          · obtain ⟨us, hus, hderives⟩ := ih h
            exact ⟨us, hus, .left hderives⟩
          · obtain ⟨us, hus, hderives⟩ := ih h
            exact ⟨us, hus, .right hderives⟩
      | .optional p =>
          rw [derivations] at h
          rcases List.mem_cons.mp h with h | h
          · cases h
            exact ⟨[], rfl, .absent⟩
          · obtain ⟨us, hus, hderives⟩ := ih h
            exact ⟨us, hus, .present hderives⟩
      | .star p =>
          rw [derivations] at h
          rcases List.mem_cons.mp h with h | h
          · cases h
            exact ⟨[], rfl, .stop⟩
          · obtain ⟨⟨ys, mid⟩, hp, h⟩ := List.mem_flatMap.mp h
            obtain ⟨⟨zs, _⟩, hmore, heq⟩ := List.mem_map.mp h
            cases heq
            obtain ⟨us, rfl, hfirst⟩ := ih hp
            obtain ⟨vs, rfl, hothers⟩ := ih hmore
            exact ⟨us ++ vs, (List.append_assoc ..).symm, .more hfirst hothers⟩

/-- A derivation is found at every height that its phrase and its terminals allow. -/
theorem Derives.mem_derivations (h : Derives p ts xs) (hp : p.isGuarded) (rest : List Lexeme)
    (hn : p.height + 32 * ts.length ≤ n) : (xs, rest) ∈ derivations n p (ts ++ rest) := by
  obtain ⟨below, rfl⟩ := p.exists_eq_succ hn
  induction h generalizing below rest with
  | quoted t => simp [derivations]
  | named t => simp [derivations]
  | @rule r a ts xs ha _ ih =>
      obtain ⟨hguarded, -, hrank⟩ := r.alternatives_bounded a ha
      rw [Phrase.height] at hn
      have hbelow : a.phrase.height + 32 * ts.length ≤ below := by omega
      obtain ⟨lower, rfl⟩ := a.phrase.exists_eq_succ hbelow
      rw [derivations]
      exact List.mem_flatMap.mpr
        ⟨a, ha, List.mem_map.mpr ⟨_, ih hguarded rest lower hbelow, rfl⟩⟩
  | @seq p q ts us xs ys hderives _ ihp ihq =>
      rw [Phrase.isGuarded, Bool.and_eq_true] at hp
      rw [Phrase.height, List.length_append] at hn
      have hfirst : p.height + 32 * ts.length ≤ below := by omega
      -- Where the first part takes a terminal, the second part may be as much higher.
      have hsecond : q.height + 32 * us.length ≤ below := by
        split at hn
        · next hfilled =>
          have hpos := List.length_pos_iff.mpr (hderives.ne_nil hfilled)
          omega
        · omega
      obtain ⟨lower, rfl⟩ := p.exists_eq_succ hfirst
      rw [derivations, List.append_assoc]
      exact List.mem_flatMap.mpr ⟨_, ihp hp.1 (us ++ rest) lower hfirst,
        List.mem_map.mpr ⟨_, ihq hp.2 rest lower hsecond, rfl⟩⟩
  | @left p q ts xs _ ih =>
      rw [Phrase.isGuarded, Bool.and_eq_true] at hp
      rw [Phrase.height] at hn
      have hbelow : p.height + 32 * ts.length ≤ below := by omega
      obtain ⟨lower, rfl⟩ := p.exists_eq_succ hbelow
      rw [derivations]
      exact List.mem_append_left _ (ih hp.1 rest lower hbelow)
  | @right p q ts xs _ ih =>
      rw [Phrase.isGuarded, Bool.and_eq_true] at hp
      rw [Phrase.height] at hn
      have hbelow : q.height + 32 * ts.length ≤ below := by omega
      obtain ⟨lower, rfl⟩ := q.exists_eq_succ hbelow
      rw [derivations]
      exact List.mem_append_right _ (ih hp.2 rest lower hbelow)
  | absent =>
      rw [derivations]
      exact List.mem_cons_self
  | @present p ts xs _ ih =>
      rw [Phrase.height] at hn
      have hbelow : p.height + 32 * ts.length ≤ below := by omega
      obtain ⟨lower, rfl⟩ := p.exists_eq_succ hbelow
      rw [derivations]
      exact List.mem_cons_of_mem _ (ih hp rest lower hbelow)
  | stop =>
      rw [derivations]
      exact List.mem_cons_self
  | @more p ts us xs ys hderives _ ihp ihmore =>
      obtain ⟨hfilled, hguarded⟩ := Bool.and_eq_true_iff.mp hp
      have hpos := List.length_pos_iff.mpr (hderives.ne_nil hfilled)
      rw [Phrase.height, List.length_append] at hn
      have hfirst : p.height + 32 * ts.length ≤ below := by omega
      have hsecond : (Phrase.star p).height + 32 * us.length ≤ below := by
        rw [Phrase.height]
        omega
      obtain ⟨lower, rfl⟩ := p.exists_eq_succ hfirst
      rw [derivations, List.append_assoc]
      exact List.mem_cons_of_mem _ (List.mem_flatMap.mpr
        ⟨_, ihp hguarded (us ++ rest) lower hfirst,
          List.mem_map.mpr ⟨_, ihmore hp rest lower hsecond, rfl⟩⟩)

/-! ## What a phrase may start with -/

/-- A phrase derives something. -/
def Phrase.IsProductive (p : Phrase) : Prop := ∃ ts xs, Derives p ts xs

namespace Phrase.IsProductive

theorem quoted (kind : TokenKind) : (Phrase.quoted kind).IsProductive :=
  ⟨_, _, .quoted ⟨kind, [], 0⟩⟩

theorem named (kind : TokenKind) : (Phrase.named kind).IsProductive :=
  ⟨_, _, .named ⟨kind, [], 0⟩⟩

theorem rule {r : Rule} {a : Alternative} (ha : a ∈ r.alternatives)
    (h : a.phrase.IsProductive) : (Phrase.rule r).IsProductive := by
  obtain ⟨ts, xs, h⟩ := h
  exact ⟨ts, _, .rule ha h⟩

theorem seq (hp : p.IsProductive) (hq : q.IsProductive) : (Phrase.seq p q).IsProductive := by
  obtain ⟨ts, xs, hp⟩ := hp
  obtain ⟨us, ys, hq⟩ := hq
  exact ⟨_, _, .seq hp hq⟩

theorem left (h : p.IsProductive) : (Phrase.either p q).IsProductive := by
  obtain ⟨ts, xs, h⟩ := h
  exact ⟨ts, xs, .left h⟩

theorem optional : (Phrase.optional p).IsProductive := ⟨_, _, .absent⟩

theorem star : (Phrase.star p).IsProductive := ⟨_, _, .stop⟩

/-- Every rule derives something. -/
theorem of_rule (r : Rule) : (Phrase.rule r).IsProductive := by
  have hprimary : (Phrase.rule .primary).IsProductive := rule (.head _) (named .number)
  have hunary : (Phrase.rule .unary).IsProductive := rule (.tail _ (.head _)) hprimary
  have hfactor : (Phrase.rule .factor).IsProductive := rule (.head _) (seq hunary star)
  have hterm : (Phrase.rule .term).IsProductive := rule (.head _) (seq hfactor star)
  have hcomparison : (Phrase.rule .comparison).IsProductive := rule (.head _) (seq hterm star)
  have hequality : (Phrase.rule .equality).IsProductive := rule (.head _) (seq hcomparison star)
  have hassignment : (Phrase.rule .assignment).IsProductive := rule (.tail _ (.head _)) hequality
  have hexpression : (Phrase.rule .expression).IsProductive := rule (.head _) hassignment
  have hclosed : (Phrase.seq (.rule .expression) (.quoted .semicolon)).IsProductive :=
    seq hexpression (quoted _)
  have hexprStmt : (Phrase.rule .exprStmt).IsProductive := rule (.head _) hclosed
  have hvarDecl : (Phrase.rule .varDecl).IsProductive :=
    rule (.head _) (seq (quoted _) (seq (named _) (seq optional (quoted _))))
  cases r with
  | start => exact rule (.head _) star
  | declaration => exact rule (.head _) hvarDecl
  | varDecl => exact hvarDecl
  | statement => exact rule (.tail _ (.tail _ (.head _))) hexprStmt
  | printStmt => exact rule (.head _) (seq (quoted _) hclosed)
  | block => exact rule (.head _) (seq (quoted _) (seq star (seq (quoted _) (quoted _))))
  | exprStmt => exact hexprStmt
  | expression => exact hexpression
  | assignment => exact hassignment
  | equality => exact hequality
  | comparison => exact hcomparison
  | term => exact hterm
  | factor => exact hfactor
  | unary => exact hunary
  | primary => exact hprimary

end Phrase.IsProductive

theorem Phrase.isProductive (p : Phrase) : p.IsProductive := by
  induction p with
  | quoted kind => exact .quoted kind
  | named kind => exact .named kind
  | rule r => exact .of_rule r
  | seq _ _ ihp ihq => exact ihp.seq ihq
  | either _ _ ihp => exact ihp.left
  | optional => exact .optional
  | star => exact .star

theorem exists_derives_of_mayStart (h : mayStart n p front) :
    ∃ back xs, Derives p (front ++ back) xs := by
  induction n generalizing p front with
  | zero => cases h
  | succ below ih =>
      unfold mayStart at h
      rcases Bool.or_eq_true_iff.mp h with hempty | h
      · rw [List.isEmpty_iff.mp hempty]
        exact p.isProductive
      · match p with
        | .quoted kind =>
            obtain ⟨t, rfl, rfl⟩ := List.map_eq_singleton_iff.mp (of_decide_eq_true h)
            exact ⟨[], _, .quoted t⟩
        | .named kind =>
            obtain ⟨t, rfl, rfl⟩ := List.map_eq_singleton_iff.mp (of_decide_eq_true h)
            exact ⟨[], _, .named t⟩
        | .rule r =>
            obtain ⟨a, ha, h⟩ := List.any_eq_true.mp h
            obtain ⟨back, xs, h⟩ := ih h
            exact ⟨back, _, .rule ha h⟩
        | .seq p q =>
            rcases Bool.or_eq_true_iff.mp h with h | h
            · obtain ⟨back, xs, hp⟩ := ih h
              obtain ⟨us, ys, hq⟩ := q.isProductive
              refine ⟨back ++ us, xs ++ ys, ?_⟩
              rw [← List.append_assoc]
              exact .seq hp hq
            · obtain ⟨⟨xs, rest⟩, hmem, hrest⟩ := List.any_eq_true.mp h
              obtain ⟨us, rfl, hp⟩ := derives_of_mem_derivations hmem
              obtain ⟨back, ys, hq⟩ := ih hrest
              refine ⟨back, xs ++ ys, ?_⟩
              rw [List.append_assoc]
              exact .seq hp hq
        | .either p q =>
            rcases Bool.or_eq_true_iff.mp h with h | h
            · obtain ⟨back, xs, h⟩ := ih h
              exact ⟨back, xs, .left h⟩
            · obtain ⟨back, xs, h⟩ := ih h
              exact ⟨back, xs, .right h⟩
        | .optional p =>
            obtain ⟨back, xs, h⟩ := ih h
            exact ⟨back, xs, .present h⟩
        | .star p =>
            rcases Bool.or_eq_true_iff.mp h with h | h
            · obtain ⟨back, xs, hp⟩ := ih h
              refine ⟨back ++ [], xs ++ [], ?_⟩
              rw [← List.append_assoc]
              exact .more hp .stop
            · obtain ⟨⟨xs, rest⟩, hmem, hrest⟩ := List.any_eq_true.mp h
              obtain ⟨us, rfl, hp⟩ := derives_of_mem_derivations hmem
              obtain ⟨back, ys, hmore⟩ := ih hrest
              refine ⟨back, xs ++ ys, ?_⟩
              rw [List.append_assoc]
              exact .more hp hmore

theorem Derives.mayStart (h : Derives p ts xs) (hp : p.isGuarded) (hts : ts = front ++ back)
    (hn : p.height + 32 * front.length ≤ n) : Engine.mayStart n p front := by
  obtain ⟨below, rfl⟩ := p.exists_eq_succ hn
  induction h generalizing below front back with
  | quoted t =>
      rcases List.singleton_eq_append_iff.mp hts with ⟨rfl, -⟩ | ⟨rfl, -⟩ <;>
        simp [Engine.mayStart]
  | named t =>
      rcases List.singleton_eq_append_iff.mp hts with ⟨rfl, -⟩ | ⟨rfl, -⟩ <;>
        simp [Engine.mayStart]
  | @rule r a ts xs ha _ ih =>
      obtain ⟨hguarded, -, hrank⟩ := r.alternatives_bounded a ha
      rw [Phrase.height] at hn
      have hbelow : a.phrase.height + 32 * front.length ≤ below := by omega
      obtain ⟨lower, rfl⟩ := a.phrase.exists_eq_succ hbelow
      rw [Engine.mayStart, Bool.or_eq_true]
      exact Or.inr (List.any_eq_true.mpr ⟨a, ha, ih hguarded hts lower hbelow⟩)
  | @seq p q ts us xs ys hderives _ ihp ihq =>
      rw [Phrase.isGuarded, Bool.and_eq_true] at hp
      rw [Phrase.height] at hn
      rw [Engine.mayStart, Bool.or_eq_true, Bool.or_eq_true]
      rcases List.append_eq_append_iff.mp hts with ⟨middle, rfl, hus⟩ | ⟨middle, rfl, -⟩
      · rw [List.length_append] at hn
        have hfirst : p.height + 32 * ts.length ≤ below := by omega
        have hsecond : q.height + 32 * middle.length ≤ below := by
          split at hn
          · next hfilled =>
            have hpos := List.length_pos_iff.mpr (hderives.ne_nil hfilled)
            omega
          · omega
        obtain ⟨lower, rfl⟩ := p.exists_eq_succ hfirst
        exact Or.inr (Or.inr (List.any_eq_true.mpr
          ⟨_, hderives.mem_derivations hp.1 middle hfirst, ihq hp.2 hus lower hsecond⟩))
      · have hfirst : p.height + 32 * front.length ≤ below := by omega
        obtain ⟨lower, rfl⟩ := p.exists_eq_succ hfirst
        exact Or.inr (Or.inl (ihp hp.1 rfl lower hfirst))
  | @left p q ts xs _ ih =>
      rw [Phrase.isGuarded, Bool.and_eq_true] at hp
      rw [Phrase.height] at hn
      have hbelow : p.height + 32 * front.length ≤ below := by omega
      obtain ⟨lower, rfl⟩ := p.exists_eq_succ hbelow
      rw [Engine.mayStart, Bool.or_eq_true, Bool.or_eq_true]
      exact Or.inr (Or.inl (ih hp.1 hts lower hbelow))
  | @right p q ts xs _ ih =>
      rw [Phrase.isGuarded, Bool.and_eq_true] at hp
      rw [Phrase.height] at hn
      have hbelow : q.height + 32 * front.length ≤ below := by omega
      obtain ⟨lower, rfl⟩ := q.exists_eq_succ hbelow
      rw [Engine.mayStart, Bool.or_eq_true, Bool.or_eq_true]
      exact Or.inr (Or.inr (ih hp.2 hts lower hbelow))
  | absent =>
      rw [(List.nil_eq_append_iff.mp hts).1]
      rfl
  | @present p ts xs _ ih =>
      rw [Phrase.height] at hn
      have hbelow : p.height + 32 * front.length ≤ below := by omega
      obtain ⟨lower, rfl⟩ := p.exists_eq_succ hbelow
      rw [Engine.mayStart, Bool.or_eq_true]
      exact Or.inr (ih hp hts lower hbelow)
  | stop =>
      rw [(List.nil_eq_append_iff.mp hts).1]
      rfl
  | @more p ts us xs ys hderives _ ihp ihmore =>
      obtain ⟨hfilled, hguarded⟩ := Bool.and_eq_true_iff.mp hp
      have hpos := List.length_pos_iff.mpr (hderives.ne_nil hfilled)
      rw [Phrase.height] at hn
      rw [Engine.mayStart, Bool.or_eq_true, Bool.or_eq_true]
      rcases List.append_eq_append_iff.mp hts with ⟨middle, rfl, hus⟩ | ⟨middle, rfl, -⟩
      · rw [List.length_append] at hn
        have hfirst : p.height + 32 * ts.length ≤ below := by omega
        have hsecond : (Phrase.star p).height + 32 * middle.length ≤ below := by
          rw [Phrase.height]
          omega
        obtain ⟨lower, rfl⟩ := p.exists_eq_succ hfirst
        exact Or.inr (Or.inr (List.any_eq_true.mpr
          ⟨_, hderives.mem_derivations hguarded middle hfirst, ihmore hp hus lower hsecond⟩))
      · have hfirst : p.height + 32 * front.length ≤ below := by omega
        obtain ⟨lower, rfl⟩ := p.exists_eq_succ hfirst
        exact Or.inr (Or.inl (ihp hguarded rfl lower hfirst))

/-- What a phrase derives depends on the kinds of the terminals only. -/
theorem Derives.exists_of_kinds (h : Derives p ts xs)
    (hus : us.map Lexeme.kind = ts.map Lexeme.kind) : ∃ ys, Derives p us ys := by
  induction h generalizing us with
  | quoted t =>
      obtain ⟨u, rfl, hkind⟩ := List.map_eq_singleton_iff.mp hus
      exact ⟨[], hkind ▸ .quoted u⟩
  | named t =>
      obtain ⟨u, rfl, hkind⟩ := List.map_eq_singleton_iff.mp hus
      exact ⟨[.leaf u], hkind ▸ .named u⟩
  | rule ha _ ih =>
      obtain ⟨ys, h⟩ := ih hus
      exact ⟨_, .rule ha h⟩
  | seq _ _ ihp ihq =>
      rw [List.map_append] at hus
      obtain ⟨us, vs, rfl, hus, hvs⟩ := List.map_eq_append_iff.mp hus
      obtain ⟨ys, hp⟩ := ihp hus
      obtain ⟨zs, hq⟩ := ihq hvs
      exact ⟨ys ++ zs, .seq hp hq⟩
  | left _ ih =>
      obtain ⟨ys, h⟩ := ih hus
      exact ⟨ys, .left h⟩
  | right _ ih =>
      obtain ⟨ys, h⟩ := ih hus
      exact ⟨ys, .right h⟩
  | absent =>
      rw [List.map_eq_nil_iff.mp hus]
      exact ⟨[], .absent⟩
  | present _ ih =>
      obtain ⟨ys, h⟩ := ih hus
      exact ⟨ys, .present h⟩
  | stop =>
      rw [List.map_eq_nil_iff.mp hus]
      exact ⟨[], .stop⟩
  | more _ _ ihp ihmore =>
      rw [List.map_append] at hus
      obtain ⟨us, vs, rfl, hus, hvs⟩ := List.map_eq_append_iff.mp hus
      obtain ⟨ys, hp⟩ := ihp hus
      obtain ⟨zs, hmore⟩ := ihmore hvs
      exact ⟨ys ++ zs, .more hp hmore⟩

theorem Derives.exists_tree {r : Rule} (h : Derives (.rule r) ts xs) : ∃ tree, xs = [tree] := by
  cases h with
  | rule => exact ⟨_, rfl⟩

/-- What may stand behind some terminals is found. -/
theorem mayFollow_iff {before : List Lexeme} {kind : TokenKind} :
    mayFollow before kind ↔ MayFollow before kind := by
  rw [mayFollow, MayFollow, Bool.or_eq_true, decide_eq_true_iff]
  apply or_congr_right
  constructor
  · intro h
    obtain ⟨after, xs, h⟩ := exists_derives_of_mayStart h
    obtain ⟨tree, rfl⟩ := h.exists_tree
    rw [List.append_assoc, List.singleton_append] at h
    exact ⟨_, after, tree, rfl, h⟩
  · rintro ⟨t, after, tree, rfl, h⟩
    have hkinds : (before ++ ⟨t.kind, [], 0⟩ :: after).map Lexeme.kind =
        (before ++ t :: after).map Lexeme.kind := by
      simp
    obtain ⟨xs, h⟩ := h.exists_of_kinds hkinds
    refine h.mayStart rfl (List.append_cons _ _ _) ?_
    rw [heightFor]
    change 21 + _ ≤ _
    omega

end Reference

end MiniLox
