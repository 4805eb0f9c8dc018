import MiniLox.Proofs.Grammar.Exchanging
import MiniLox.Proofs.Recovery.Failing

/-!
# Reading other tokens of the same kinds

What is read from tokens is decided by their kinds alone.  When every token is exchanged for one
of the same kind and with the same literal, then what is read holds the new tokens in the place
of the old ones, and the same errors are found in the same places.  The line that an error tells
may differ, and nothing else of it.
-/

namespace MiniLox

namespace Parser

open Grammar

variable {α β γ δ : Type} {g : Token → Token} {f : α → β} {f' : γ → δ} {last last' : Nat}
  {tokens others input input' : List Token}

/-! ## Results -/

/-- What is read from other tokens has other tokens in it, and so has the rest.  What cannot be
read fails for the same cause at the same place. -/
inductive Corresponds (g : Token → Token) (f : α → β) :
    Result α tokens → Result β others → Prop where
  | ok {value : α} {rest : List Token} (h : rest.length < tokens.length)
      (h' : (rest.map g).length < others.length) :
      Corresponds g f (.ok ⟨value, rest, h⟩) (.ok ⟨f value, rest.map g, h'⟩)
  | error {failure failure' : Failure} (hcause : failure'.error.cause = failure.error.cause)
      (hremaining : failure'.remaining = failure.remaining) :
      Corresponds g f (.error failure) (.error failure')

namespace Corresponds

variable {x : Result α tokens} {y : Result β others}

theorem bind {k : Reading Token α tokens → Result γ input}
    {k' : Reading Token β others → Result δ input'} (h : Corresponds g f x y)
    (hk : ∀ value rest rest' h h', rest' = rest.map g →
      Corresponds g f' (k ⟨value, rest, h⟩) (k' ⟨f value, rest', h'⟩)) :
    Corresponds g f' (x >>= k) (y >>= k') := by
  cases h with
  | ok h h' => exact hk _ _ _ h h' rfl
  | error hcause hremaining => exact .error hcause hremaining

theorem map {k : Reading Token α tokens → Reading Token γ input}
    {k' : Reading Token β others → Reading Token δ input'} (h : Corresponds g f x y)
    (hk : ∀ value rest rest' h h', rest' = rest.map g →
      Corresponds g f' (.ok (k ⟨value, rest, h⟩)) (.ok (k' ⟨f value, rest', h'⟩))) :
    Corresponds g f' (x.map k) (y.map k') := by
  cases h with
  | ok h h' => exact hk _ _ _ h h' rfl
  | error hcause hremaining => exact .error hcause hremaining

theorem of_fail {cause : SyntaxCause} (h : others.length = tokens.length) :
    Corresponds g f (fail last cause tokens : Result α input)
      (fail last' cause others : Result β input') :=
  .error rfl h

end Corresponds

theorem corresponds_expect (hg : KeepsKinds g) (kind : TokenKind) (cause : SyntaxCause)
    (tokens : List Token) :
    Corresponds g g (expect last kind cause tokens) (expect last' kind cause (tokens.map g)) := by
  cases tokens with
  | nil => exact .of_fail rfl
  | cons t after =>
      change Corresponds g g _ (expect last' kind cause (g t :: after.map g))
      rw [expect, expect, hg.kind]
      split
      · exact .ok _ _
      · exact .of_fail (congrArg Nat.succ (List.length_map g))

theorem corresponds_closedBy (hg : KeepsKinds g) (kind : TokenKind) (cause : SyntaxCause)
    {value : α} {rest rest' : List Token} (h : rest.length < input.length)
    (h' : rest'.length < input'.length) (hrest : rest' = rest.map g) :
    Corresponds g f (closedBy last kind cause ⟨value, rest, h⟩)
      (closedBy last' kind cause ⟨f value, rest', h'⟩) := by
  subst hrest
  refine (corresponds_expect hg kind cause rest).map fun t after after' _ _ hafter => ?_
  subst hafter
  exact .ok _ _

/-! ## Expressions -/

mutual

theorem corresponds_assignment (hg : KeepsKinds g) (last last' : Nat) (tokens : List Token) :
    Corresponds g (Expr.mapTokens g) (assignment last tokens)
      (assignment last' (tokens.map g)) := by
  rw [assignment, assignment]
  refine (corresponds_operand hg last last' topLevel tokens).bind
    fun left rest rest' h h' hrest => ?_
  cases rest with
  | nil =>
      obtain rfl : rest' = [] := hrest
      exact .ok _ _
  | cons t after =>
      obtain rfl : rest' = g t :: after.map g := hrest
      have hafter : after.length < tokens.length := Nat.lt_of_succ_lt h
      by_cases hkind : t.kind = .equal
      · dsimp only
        rw [if_pos hkind, if_pos ((hg.kind t).trans hkind)]
        cases left with
        | «variable» name =>
            refine (corresponds_assignment hg last last' after).bind
              fun value rest rest' _ _ hrest => ?_
            subst hrest
            exact .ok _ _
        | _ => exact .error rfl (List.length_map g)
      · dsimp only
        rw [if_neg hkind, if_neg ((hg.kind t).symm ▸ hkind)]
        exact .ok _ _
termination_by 16 * tokens.length + topLevel + 3

theorem corresponds_operand (hg : KeepsKinds g) (last last' level : Nat) (tokens : List Token) :
    Corresponds g (Expr.mapTokens g) (operand last level tokens)
      (operand last' level (tokens.map g)) := by
  cases level with
  | zero =>
      rw [operand_zero, operand_zero]
      exact corresponds_unary hg last last' tokens
  | succ below =>
      rw [operand, operand]
      refine (corresponds_operand hg last last' below tokens).bind
        fun first rest rest' h h' hrest => ?_
      subst hrest
      exact corresponds_operands hg last last' below first rest _ _ h h'
termination_by 16 * tokens.length + level + 2
decreasing_by all_goals subst_vars; omega

theorem corresponds_operands (hg : KeepsKinds g) (last last' below : Nat) (left : Expr)
    (tokens input input' : List Token) (h : tokens.length < input.length)
    (h' : (tokens.map g).length < input'.length) :
    Corresponds g (Expr.mapTokens g) (operands last below left tokens input h)
      (operands last' below (left.mapTokens g) (tokens.map g) input' h') := by
  cases tokens with
  | nil =>
      rw [operands]
      change Corresponds g _ _ (operands last' below _ [] input' h')
      rw [operands]
      exact .ok _ _
  | cons t after =>
      change Corresponds g _ _ (operands last' below _ (g t :: after.map g) input' h')
      rw [operands, operands, hg.kind]
      split
      · refine (corresponds_operand hg last last' below after).bind
          fun right rest rest' _ _ hrest => ?_
        subst hrest
        exact corresponds_operands hg last last' below (.binary left t right) rest _ _ _ _
      · exact .ok _ _
termination_by 16 * tokens.length + below + 3
decreasing_by all_goals subst_vars; simp only [topLevel, List.length_cons] at *; omega

theorem corresponds_unary (hg : KeepsKinds g) (last last' : Nat) (tokens : List Token) :
    Corresponds g (Expr.mapTokens g) (unary last tokens) (unary last' (tokens.map g)) := by
  cases tokens with
  | nil =>
      rw [unary]
      change Corresponds g _ _ (unary last' [])
      rw [unary]
      exact corresponds_primary hg last last' []
  | cons t after =>
      change Corresponds g _ _ (unary last' (g t :: after.map g))
      rw [unary, unary, hg.kind]
      split
      · refine (corresponds_unary hg last last' after).bind fun right rest rest' _ _ hrest => ?_
        subst hrest
        exact .ok _ _
      · exact corresponds_primary hg last last' (t :: after)
termination_by 16 * tokens.length + 1
decreasing_by all_goals subst_vars; simp only [topLevel, List.length_cons] at *; omega

theorem corresponds_primary (hg : KeepsKinds g) (last last' : Nat) (tokens : List Token) :
    Corresponds g (Expr.mapTokens g) (primary last tokens) (primary last' (tokens.map g)) := by
  cases tokens with
  | nil =>
      change Corresponds g _ _ (primary last' [])
      rw [primary_eq_fail (stops_nil _), primary_eq_fail (stops_nil _)]
      exact .of_fail rfl
  | cons t after =>
      change Corresponds g _ _ (primary last' (g t :: after.map g))
      by_cases hliteral : t.kind ∈ literalKinds
      · rw [primary_literal hliteral, primary_literal (hg.kind t ▸ hliteral),
          mapTokens_literalExpr hg]
        exact .ok _ _
      by_cases hname : t.kind = .identifier
      · rw [primary_identifier hname, primary_identifier ((hg.kind t).trans hname)]
        exact .ok _ _
      by_cases hparen : t.kind = .leftParen
      · rw [primary.eq_def, primary.eq_def]
        simp only [hparen, (hg.kind t).trans hparen]
        refine (corresponds_assignment hg last last' after).bind
          fun inner rest rest' h h' hrest => ?_
        cases rest with
        | nil =>
            obtain rfl : rest' = [] := hrest
            exact .error rfl rfl
        | cons close outside =>
            obtain rfl : rest' = g close :: outside.map g := hrest
            dsimp only
            rw [hg.kind]
            split
            · exact .ok _ _
            · exact .error rfl (congrArg Nat.succ (List.length_map g))
      · have hstops : t.kind ∉ primaryStarts := by
          intro hmem
          rcases List.mem_append.mp hmem with h | h
          · exact hliteral h
          · rcases List.mem_cons.mp h with h | h
            · exact hparen h
            · exact hname (List.mem_singleton.mp h)
        rw [primary_eq_fail (stops_cons_iff.mpr hstops),
          primary_eq_fail (stops_cons_iff.mpr ((hg.kind t).symm ▸ hstops))]
        exact .of_fail (congrArg Nat.succ (List.length_map g))
termination_by 16 * tokens.length
decreasing_by all_goals subst_vars; simp only [topLevel, List.length_cons] at *; omega

end

/-! ## Statements -/

theorem corresponds_initializer (hg : KeepsKinds g) {name : Token} {rest rest' : List Token}
    (h : rest.length < tokens.length) (h' : rest'.length < others.length)
    (hrest : rest' = rest.map g) :
    Corresponds g (Stmt.mapTokens g) (initializer last ⟨name, rest, h⟩)
      (initializer last' ⟨g name, rest', h'⟩) := by
  cases rest with
  | nil =>
      obtain rfl : rest' = [] := hrest
      exact .ok _ _
  | cons t after =>
      obtain rfl : rest' = g t :: after.map g := hrest
      rw [initializer, initializer]
      dsimp only
      rw [hg.kind]
      split
      · refine (corresponds_assignment hg last last' after).map fun value rest rest' _ _ hrest => ?_
        subst hrest
        exact .ok _ _
      · exact .ok _ _

theorem corresponds_binding (hg : KeepsKinds g) (tokens : List Token) :
    Corresponds g (Stmt.mapTokens g) (binding last tokens) (binding last' (tokens.map g)) := by
  rw [binding, binding]
  refine (corresponds_expect hg .identifier .variableName tokens).bind
    fun name rest rest' h h' hrest => ?_
  refine (corresponds_initializer hg h h' hrest).bind fun d after after' _ _ hafter => ?_
  exact corresponds_closedBy hg _ _ _ _ hafter

/-- What is read in two steps, the second of which closes it. -/
theorem Corresponds.close {x : Result α tokens} {y : Result β others} (hg : KeepsKinds g)
    (h : Corresponds g f x y) (kind : TokenKind) (cause : SyntaxCause)
    {k : Reading Token α tokens → Reading Token γ input}
    {k' : Reading Token β others → Reading Token δ input'}
    (hk : ∀ value rest rest' h h', rest' = rest.map g →
      Corresponds g f' (.ok (k ⟨value, rest, h⟩)) (.ok (k' ⟨f value, rest', h'⟩))) :
    Corresponds g f' (x >>= fun r => closedBy last kind cause r >>= fun done => pure (k done))
      (y >>= fun r => closedBy last' kind cause r >>= fun done => pure (k' done)) := by
  refine h.bind fun value rest rest' h h' hrest => ?_
  exact (corresponds_closedBy hg kind cause h h' hrest).bind hk

mutual

theorem corresponds_declaration (hg : KeepsKinds g) (last last' : Nat) (tokens : List Token) :
    Corresponds g (Stmt.mapTokens g) (declaration last tokens)
      (declaration last' (tokens.map g)) := by
  cases tokens with
  | nil =>
      change Corresponds g _ _ (declaration last' [])
      rw [declaration, declaration]
      refine (corresponds_assignment hg last last' []).close hg _ _
        fun e rest rest' _ _ hrest => ?_
      subst hrest
      exact .ok _ _
  | cons t after =>
      change Corresponds g _ _ (declaration last' (g t :: after.map g))
      rw [declaration.eq_def, declaration.eq_def]
      dsimp only
      rw [hg.kind]
      split
      · refine (corresponds_binding hg after).map fun d rest rest' _ _ hrest => ?_
        subst hrest
        exact .ok _ _
      · refine (corresponds_assignment hg last last' after).close hg _ _
          fun e rest rest' _ _ hrest => ?_
        subst hrest
        exact .ok _ _
      · refine (corresponds_statements hg last last' after).close hg _ _
          fun body rest rest' _ _ hrest => ?_
        subst hrest
        exact .ok _ _
      · refine (corresponds_assignment hg last last' (t :: after)).close hg _ _
          fun e rest rest' _ _ hrest => ?_
        subst hrest
        exact .ok _ _
termination_by 2 * tokens.length
decreasing_by all_goals subst_vars; simp only [List.length_cons] at *; omega

theorem corresponds_statements (hg : KeepsKinds g) (last last' : Nat) (tokens : List Token) :
    Corresponds g (Program.mapTokens g) (statements last tokens)
      (statements last' (tokens.map g)) := by
  cases tokens with
  | nil =>
      change Corresponds g _ _ (statements last' [])
      rw [statements, statements]
      exact .of_fail rfl
  | cons t after =>
      change Corresponds g _ _ (statements last' (g t :: after.map g))
      rw [statements, statements, hg.kind]
      split
      · exact .ok _ _
      · refine (corresponds_declaration hg last last' (t :: after)).bind
          fun first rest rest' h _ hrest => ?_
        subst hrest
        refine (corresponds_statements hg last last' rest).bind fun body rest rest' _ _ hrest => ?_
        subst hrest
        exact .ok _ _
termination_by 2 * tokens.length + 1
decreasing_by all_goals subst_vars; simp only [List.length_cons] at *; omega

end

/-! ## Recovery -/

theorem map_resume (hg : KeepsKinds g) (previous : Token) (tokens : List Token) :
    resume (g previous) (tokens.map g) = (resume previous tokens).map g := by
  induction tokens generalizing previous with
  | nil => rfl
  | cons t after ih =>
      rw [List.map_cons, resume, resume, hg.kind, hg.kind]
      split
      · rfl
      · exact ih t

theorem map_recover (hg : KeepsKinds g) {failure failure' : Failure} (tokens : List Token)
    (h : failure'.remaining = failure.remaining) :
    recover (tokens.map g) failure' = (recover tokens failure).map g := by
  rw [recover, recover, h, List.length_map, ← List.map_drop]
  cases tokens.drop (tokens.length - failure.remaining) with
  | nil => rfl
  | cons t after => exact map_resume hg t after

/-- A pass over other tokens of the same kinds finds the same declarations, with the other
tokens in them, and errors for the same causes. -/
theorem declarations_map (hg : KeepsKinds g) (last last' : Nat) (tokens : List Token) :
    (declarations last' (tokens.map g)).1 = Program.mapTokens g (declarations last tokens).1 ∧
      (declarations last' (tokens.map g)).2.map SyntaxError.cause =
        (declarations last tokens).2.map SyntaxError.cause := by
  induction hlength : tokens.length using Nat.strongRecOn generalizing tokens with
  | ind length ih =>
      cases tokens with
      | nil =>
          change (declarations last' []).1 = _ ∧ (declarations last' []).2.map _ = _
          rw [declarations, declarations]
          exact ⟨rfl, rfl⟩
      | cons t after =>
          have hread := corresponds_declaration hg last last' (t :: after)
          have hshorter := length_recover_lt (List.cons_ne_nil t after)
          change (declarations last' (g t :: after.map g)).1 = _ ∧
            (declarations last' (g t :: after.map g)).2.map _ = _
          change Corresponds g _ _ (declaration last' (g t :: after.map g)) at hread
          rw [declarations, declarations]
          generalize declaration last (t :: after) = result at hread ⊢
          generalize declaration last' (g t :: after.map g) = result' at hread ⊢
          cases hread with
          | @ok d rest h _ =>
              obtain ⟨hstatements, hcauses⟩ := ih _ (hlength ▸ h) rest rfl
              exact ⟨congrArg (d.mapTokens g :: ·) hstatements, hcauses⟩
          | @error failure failure' hcause hremaining =>
              obtain ⟨hstatements, hcauses⟩ := ih _ (hlength ▸ hshorter failure) _ rfl
              -- Both passes go on at the same place behind the error.
              have hrecover : recover (g t :: after.map g) failure' =
                  (recover (t :: after) failure).map g := map_recover hg (t :: after) hremaining
              dsimp only
              rw [hrecover, List.map_cons, List.map_cons, hcause, hcauses]
              exact ⟨hstatements, rfl⟩

end Parser

end MiniLox
