import MiniLox.Proofs.Scoping.Simulation

/-!
# A program and its flattening run in step

An action of a program and the corresponding action of its flattening agree when they
write the same output, end in the same result, and leave the chain of scopes and the
flat scope related.  After an error the chain may stand anywhere inside the statement
that failed, but the blocks around the statement are still there.
-/

namespace MiniLox

namespace Scoping

open Evaluation

/-- The outcome of an action and of the corresponding action of the flat program agree;
`after` are the blocks around the place that was reached. -/
structure Agree {α : Type} (fresh : Nat → String → String) (after : List Frame)
    (o o' : Outcome Fault α) : Prop where
  output : outputs o'.events = outputs o.events
  result : o'.result = o.result
  holds : ∃ flat frames, o'.environment = ⟨flat, []⟩ ∧
    Holds fresh flat frames o.environment.scopes ∧ frames.length = after.length ∧
      ∀ a, o.result = .ok a → frames = after

namespace Agree

variable {α β : Type} {fresh : Nat → String → String} {flat : Scope}
  {after last : List Frame} {env env' : Environment}

theorem of_quiet {o o' : Outcome Fault α} {r : Except Fault α} (h : Quiet o env r)
    (h' : Quiet o' ⟨flat, []⟩ r) (hholds : Holds fresh flat after env.scopes) :
    Agree fresh after o o' := by
  constructor
  · rw [h.output, h'.output]
  · rw [h.result, h'.result]
  · refine ⟨flat, after, h'.environment, ?_, rfl, fun _ _ => rfl⟩
    rw [h.environment]
    exact hholds

theorem bind {x x' : Action Fault α} {f f' : α → Action Fault β}
    (hx : Agree fresh after (x env) (x' env')) (hlength : after.length = last.length)
    (hf : ∀ a env₁ flat₁, Holds fresh flat₁ after env₁.scopes →
      Agree fresh last (f a env₁) (f' a ⟨flat₁, []⟩)) :
    Agree fresh last ((x >>= f) env) ((x' >>= f') env') := by
  obtain ⟨flat, frames, henv, hholds, hframes, hafter⟩ := hx.holds
  cases hresult : (x env).result with
  | error fault =>
      have hresult' : (x' env').result = .error fault := hx.result.trans hresult
      rw [Action.bind_error hresult, Action.bind_error hresult']
      refine ⟨hx.output, rfl, flat, frames, henv, hholds, hframes.trans hlength, ?_⟩
      intro a ha
      cases ha
  | ok a =>
      have hresult' : (x' env').result = .ok a := hx.result.trans hresult
      rw [hafter a hresult] at hholds
      have hrest := hf a _ flat hholds
      rw [Action.bind_ok hresult, Action.bind_ok hresult', henv]
      refine ⟨?_, hrest.result, hrest.holds⟩
      simp only [outputs_append, hx.output, hrest.output]

theorem pure (a : α) (h : Holds fresh flat after env.scopes) :
    Agree fresh after ((Pure.pure a : Action Fault α) env)
      ((Pure.pure a : Action Fault α) ⟨flat, []⟩) :=
  of_quiet (Quiet.pure a) (Quiet.pure a) h

end Agree

variable {fresh : Nat → String → String} {flat : Scope} {frames : List Frame}
  {env : Environment} {mode : Mode}

/-! ## Names -/

theorem lexeme_respell (t : Token) :
    (respell fresh frames t).lexeme = spelling fresh frames t.lexeme := by
  rw [respell, spelling]
  cases spelling? fresh frames t.lexeme <;> rfl

/-- A name that the flat scope does not bind is written as in the program. -/
theorem respell_of_unbound {scopes : List Scope} {t : Token}
    (h : Holds fresh flat frames scopes)
    (hnone : flat.get? (.text (spelling fresh frames t.lexeme)) = none) :
    respell fresh frames t = t := by
  have hspelling : spelling? fresh frames t.lexeme = none := by
    induction frames generalizing scopes with
    | nil => rfl
    | cons f frames ih =>
        match scopes with
        | s :: scopes =>
            obtain ⟨hframe, hrest⟩ := h
            by_cases hmem : t.lexeme ∈ f.declared
            · rw [spelling_cons_of_mem hmem] at hnone
              have hbound := hframe.bound _ hmem
              rw [hnone] at hbound
              cases hbound
            · rw [spelling_cons_of_not_mem hmem] at hnone
              rw [spelling?, List.find?_cons_of_neg (by simpa using hmem)]
              exact ih hrest hnone
  rw [respell, hspelling]

theorem agree_lookup (h : Holds fresh flat frames env.scopes) {name : Token}
    (hname : IsOld fresh name.lexeme) :
    Agree fresh frames (lookup name.mark env)
      (lookup (respell fresh frames name).mark ⟨flat, []⟩) := by
  have hget : env.get? (.text name.lexeme) =
      flat.get? (.text (spelling fresh frames name.lexeme)) :=
    h.get? hname
  cases hvalue : flat.get? (.text (spelling fresh frames name.lexeme)) with
  | none =>
      rw [hvalue] at hget
      have hrespell := respell_of_unbound h hvalue
      refine Agree.of_quiet (quiet_lookup_none hget) ?_ h
      rw [← lexeme_respell, ← Environment.get?_global, hrespell] at hvalue
      rw [hrespell]
      exact quiet_lookup_none hvalue
  | some v =>
      rw [hvalue] at hget
      rw [← lexeme_respell, ← Environment.get?_global] at hvalue
      exact Agree.of_quiet (quiet_lookup_some hget) (quiet_lookup_some hvalue) h

theorem agree_assign (hmode : mode.trace = .memory) (hsep : Separates fresh)
    (h : Holds fresh flat frames env.scopes) (hdistinct : (frames.map Frame.block).Nodup)
    {name : Token} (hname : IsOld fresh name.lexeme) (v : Value) :
    Agree fresh frames (assign mode name.mark v env)
      (assign mode (respell fresh frames name).mark v ⟨flat, []⟩) := by
  have hglobal : Environment.assign? ⟨flat, []⟩ (.text (spelling fresh frames name.lexeme)) v =
      if (flat.get? (.text (spelling fresh frames name.lexeme))).isSome then
        some ⟨flat.bind (.text (spelling fresh frames name.lexeme)) v, []⟩ else none :=
    Environment.assign?_global flat
  cases hvalue : flat.get? (.text (spelling fresh frames name.lexeme)) with
  | none =>
      rw [hvalue, if_neg (by decide), ← lexeme_respell] at hglobal
      have hassign : env.assign? (.text name.lexeme) v = none := by
        rw [Environment.assign?, h.assignIn_none hname hvalue]
      have hrespell := respell_of_unbound h hvalue
      refine Agree.of_quiet (quiet_assign_none hassign) ?_ h
      rw [hrespell] at hglobal ⊢
      exact quiet_assign_none hglobal
  | some w =>
      have hsome : (flat.get? (.text (spelling fresh frames name.lexeme))).isSome := by
        rw [hvalue]
        rfl
      rw [if_pos hsome, ← lexeme_respell] at hglobal
      obtain ⟨scopes, hassignIn, hholds⟩ := h.assignIn_some (v := v) hsep hname hdistinct hsome
      cases scopes with
      | nil => cases frames <;> exact hholds.elim
      | cons current enclosing =>
          have hassign : env.assign? (.text name.lexeme) v = some ⟨current, enclosing⟩ := by
            rw [Environment.assign?, hassignIn]
          rw [← lexeme_respell] at hholds
          exact Agree.of_quiet (quiet_assign_some hmode hassign)
            (quiet_assign_some hmode hglobal) hholds

theorem agree_define (hmode : mode.trace = .memory) (hsep : Separates fresh)
    (h : Holds fresh flat frames env.scopes) (hdistinct : (frames.map Frame.block).Nodup)
    (name : Token) (e : Option Expr) (v : Value) :
    Agree fresh (framesAfter (.declare name e) frames) (define mode name.mark v env)
      (define mode (respell fresh (framesAfter (.declare name e) frames) name).mark v
        ⟨flat, []⟩) := by
  apply Agree.of_quiet (quiet_define hmode name v) (quiet_define hmode _ v)
  rw [lexeme_respell]
  exact h.declare hsep hdistinct

/-! ## Expressions -/

theorem agree_evaluate (hmode : mode.trace = .memory) (hsep : Separates fresh)
    (hdistinct : (frames.map Frame.block).Nodup) (e : Expr) (hnames : ∀ x ∈ e.names, IsOld fresh x)
    (h : Holds fresh flat frames env.scopes) :
    Agree fresh frames (evaluate mode e.node env)
      (evaluate mode (respellExpr fresh frames e).node ⟨flat, []⟩) := by
  induction e generalizing env flat with
  | literal v => exact Agree.pure v h
  | blank => exact Agree.of_quiet ⟨rfl, rfl, rfl⟩ ⟨rfl, rfl, rfl⟩ h
  | grouping e ih => exact ih hnames h
  | unary op e ih =>
      apply (ih hnames h).bind rfl
      intro v env₁ flat₁ h₁
      exact Agree.of_quiet (quiet_unary hmode _ v) (quiet_unary hmode _ v) h₁
  | binary l op r ihl ihr =>
      refine (ihl (fun x hx => hnames x (List.mem_append_left _ hx)) h).bind rfl ?_
      intro a env₁ flat₁ h₁
      refine (ihr (fun x hx => hnames x (List.mem_append_right _ hx)) h₁).bind rfl ?_
      intro b env₂ flat₂ h₂
      exact Agree.of_quiet (quiet_binary hmode _ a b) (quiet_binary hmode _ a b) h₂
  | «variable» name => exact agree_lookup h (hnames _ List.mem_cons_self)
  | assign name e ih =>
      refine (ih (fun x hx => hnames x (List.mem_cons_of_mem _ hx)) h).bind rfl ?_
      intro v env₁ flat₁ h₁
      exact agree_assign hmode hsep h₁ hdistinct (hnames _ List.mem_cons_self) v

end Scoping

end MiniLox
