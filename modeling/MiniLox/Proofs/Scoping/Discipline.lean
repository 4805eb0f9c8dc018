import MiniLox.Proofs.Execution.Streams
import MiniLox.Proofs.Scoping.Rebinding

/-!
# Scopes are left as they were found

A statement ends in the scope in which it began, whether it fails or not.  What it may have
changed in the scopes that were there before are the values of names that are assigned
somewhere in it; a declaration that is made also binds its own name in the current scope.  The
declarations in a block are made in the scope of the block, which is gone afterwards.

A declaration is made when it succeeds.  It is also made when its line of trace is refused: the
name is bound before the line is written, and stays bound when the declaration then fails.

The lines of trace tell the same.  Every block that is entered is left, and what is written in
between belongs to the depth inside it, also where an error ends the block.
-/

namespace MiniLox

mutual

/-- The names of the assignments in a node. -/
def Node.targets : Node → List Key
  | .null | .literal _ | .blank | .variable _ => []
  | .list items => Node.targetsAll items
  | .grouping e | .unary _ e | .expression e | .print e | .declare _ e => e.targets
  | .binary l _ r => l.targets ++ r.targets
  | .assign name e => name.lexeme.key?.toList ++ e.targets
  | .block statements => Node.targetsAll statements

/-- The names of the assignments in nodes. -/
def Node.targetsAll : List Node → List Key
  | [] => []
  | n :: rest => n.targets ++ Node.targetsAll rest

end

/-- The node is a declaration of a name. -/
def Node.Declares (n : Node) (key : Key) : Prop :=
  ∃ name e, n = .declare name e ∧ name.lexeme.key? = some key

namespace Event

/-- The line is one of those between which a block is carried out. -/
def IsBorder (event : Event) : Prop := ∃ depth, event = entering depth ∨ event = leaving depth

theorem not_isBorder_output (line : Text) : ¬(output line).IsBorder := by
  rintro ⟨depth, h | h⟩ <;> cases h

theorem not_isBorder_trace {level : Nat} (h : level ≠ 2) (line : Text) :
    ¬(trace level line).IsBorder := by
  rintro ⟨depth, hborder | hborder⟩ <;> exact h (Event.trace.inj hborder).1

theorem not_isBorder_of_head {line : Text} {c : Char} (hhead : line.points.head? = some (.char c))
    (henter : c ≠ 'e') (hleave : c ≠ 'l') : ¬(trace 2 line).IsBorder := by
  rintro ⟨depth, h | h⟩
  · rw [(Event.trace.inj h).2] at hhead
    simp only [Text.points_ofString, String.toList_append] at hhead
    exact henter (CodePoint.char.inj (Option.some.inj hhead)).symm
  · rw [(Event.trace.inj h).2] at hhead
    simp only [Text.points_ofString, String.toList_append] at hhead
    exact hleave (CodePoint.char.inj (Option.some.inj hhead)).symm

end Event

/-- The borders of blocks among the lines that are written at a depth are properly nested. -/
inductive Nested : Nat → List Event → Prop where
  | nil (depth : Nat) : Nested depth []
  | line {depth : Nat} {event : Event} {rest : List Event} (hevent : ¬event.IsBorder)
      (hrest : Nested depth rest) : Nested depth (event :: rest)
  | block {depth : Nat} {inner rest : List Event} (hinner : Nested (depth + 1) inner)
      (hrest : Nested depth rest) :
      Nested depth (.entering (depth + 1) :: inner ++ .leaving depth :: rest)

namespace Nested

variable {depth : Nat} {a b : List Event}

theorem append (ha : Nested depth a) (hb : Nested depth b) : Nested depth (a ++ b) := by
  induction ha with
  | nil => exact hb
  | line hevent _ ih => exact .line hevent (ih hb)
  | @block _ inner rest hinner _ _ ih =>
      rw [List.append_assoc]
      exact .block hinner (ih hb)

theorem single {event : Event} (h : ¬event.IsBorder) : Nested depth [event] :=
  .line h (.nil depth)

end Nested

namespace Scoping

open Evaluation

variable {α β : Type} {mode : Mode} {level : Nat} {targets : List Key} {env : Environment}

/-! ## What actions keep -/

/-- What is left of the scopes in an environment: those around the current one are rebound, and
the current one is related to what it was.  The borders of blocks are nested. -/
structure Keeps (level : Nat) (related : Scope → Scope → Prop) (targets : List Key)
    (env : Environment) (o : Outcome Fault α) : Prop where
  current : related env.current o.environment.current
  around : env.ReboundAround targets o.environment
  nested : 2 ≤ level → Nested env.depth o.events

namespace Keeps

variable {R S Q : Scope → Scope → Prop} {x : Action Fault α} {f : α → Action Fault β}

theorem imp {o : Outcome Fault α} (hRS : ∀ a b, R a b → S a b) (h : Keeps level R targets env o) :
    Keeps level S targets env o :=
  ⟨hRS _ _ h.current, h.around, h.nested⟩

theorem bind_ok {a : α} (hRS : ∀ s t u, R s t → S t u → Q s u)
    (hx : Keeps level R targets env (x env)) (ha : (x env).result = .ok a)
    (hf : Keeps level S targets (x env).environment (f a (x env).environment)) :
    Keeps level Q targets env ((x >>= f) env) := by
  rw [Action.bind_ok ha]
  refine ⟨hRS _ _ _ hx.current hf.current, hx.around.trans hf.around, ?_⟩
  intro hlevel
  have hsecond := hf.nested hlevel
  rw [hx.around.depth_eq] at hsecond
  exact (hx.nested hlevel).append hsecond

theorem bind_error {fault : Fault} (hx : Keeps level R targets env (x env))
    (hfault : (x env).result = .error fault) :
    Keeps level R targets env ((x >>= f) env) := by
  rw [Action.bind_error hfault]
  exact ⟨hx.current, hx.around, hx.nested⟩

section

variable [IsPreorder Scope R]

theorem bind (hx : Keeps level R targets env (x env))
    (hf : ∀ a, (x env).result = .ok a →
      Keeps level R targets (x env).environment (f a (x env).environment)) :
    Keeps level R targets env ((x >>= f) env) := by
  cases h : (x env).result with
  | ok a => exact bind_ok (S := R) (fun _ _ _ => trans_of R) hx h (hf a h)
  | error fault => exact bind_error hx h

/-- An action that changes no scope. -/
theorem still {o : Outcome Fault α} (henv : o.environment = env)
    (hevents : Nested env.depth o.events) : Keeps level R targets env o := by
  refine ⟨?_, ?_, fun _ => hevents⟩
  · rw [henv]
    exact refl env.current
  · rw [henv]
    exact .refl targets env

end

end Keeps

/-! ## Operators and names -/

section

variable {R : Scope → Scope → Prop} [IsPreorder Scope R]

theorem keeps_lift (r : Except Fault α) : Keeps level R targets env (Action.lift r env) :=
  .still rfl (.nil _)

theorem keeps_fail (fault : Fault) :
    Keeps level R targets env (Action.fail fault env : Outcome Fault α) :=
  .still rfl (.nil _)

theorem keeps_pure (a : α) : Keeps level R targets env ((pure a : Action Fault α) env) :=
  .still rfl (.nil _)

theorem keeps_environment : Keeps level R targets env (Action.environment env) :=
  .still rfl (.nil _)

theorem keeps_put {event : Event} (h : ¬event.IsBorder) :
    Keeps level R targets env (Action.put mode event env) := by
  rw [Action.put]
  split
  · exact .still rfl (.single h)
  · exact keeps_fail _

theorem keeps_output (line : Text) : Keeps level R targets env (Action.output mode line env) :=
  keeps_put (Event.not_isBorder_output line)

theorem keeps_trace {lineLevel : Nat} {line : Text}
    (h : ¬(Event.trace lineLevel line).IsBorder) :
    Keeps level R targets env (Action.trace mode lineLevel line env) := by
  rw [Action.trace]
  split
  · exact keeps_put h
  · exact keeps_pure ()

theorem keeps_unary (operator : Mark) (right : Value) :
    Keeps level R targets env (unary mode operator right env) := by
  apply (keeps_lift _).bind
  intro v _
  exact (keeps_trace (Event.not_isBorder_trace (by decide) _)).bind fun _ _ => keeps_pure v

theorem keeps_binary (operator : Mark) (left right : Value) :
    Keeps level R targets env (binary mode operator left right env) := by
  apply (keeps_lift _).bind
  intro v _
  exact (keeps_trace (Event.not_isBorder_trace (by decide) _)).bind fun _ _ => keeps_pure v

theorem keeps_lookup (name : Mark) : Keeps level R targets env (lookup name env) := by
  apply (keeps_lift _).bind
  intro key _
  apply keeps_environment.bind
  intro e _
  cases e.get? key with
  | some v => exact keeps_pure v
  | none => exact keeps_fail _

end

theorem nameOf_eq_ok_iff {name : Mark} {key : Key} :
    nameOf name = .ok key ↔ name.lexeme.key? = some key := by
  rw [nameOf]
  cases name.lexeme.key? with
  | none => constructor <;> rintro ⟨⟩
  | some k => exact Except.ok.injEq k key ▸ Option.some.injEq k key ▸ Iff.rfl

/-- An assignment rebinds the scopes, at the name that it assigns. -/
theorem keeps_assign {name : Mark} {v : Value} (hname : name.lexeme.key?.toList ⊆ targets) :
    Keeps level (Scope.Rebound targets) targets env (assign mode name v env) := by
  cases hkey : nameOf name with
  | error fault =>
      rw [assign, hkey]
      exact keeps_fail fault
  | ok key =>
      have hsubset : [key] ⊆ targets := by
        rw [nameOf_eq_ok_iff.mp hkey] at hname
        exact hname
      rw [assign_of_nameOf hkey]
      cases hassign : env.assign? key v with
      | none => exact keeps_fail _
      | some after =>
          obtain ⟨hcurrent, haround⟩ := Environment.rebound_assign? hassign
          have hmodify : Keeps level (Scope.Rebound targets) targets env
              (Action.modify (fun _ => after) env) :=
            ⟨hcurrent.mono hsubset, haround.mono hsubset, fun _ => .nil _⟩
          apply hmodify.bind
          intro _ _
          exact (keeps_trace (Event.not_isBorder_of_head (c := 'a') rfl (by decide)
            (by decide))).bind fun _ _ => keeps_pure v

/-- The result of a definition that has been made: it succeeds, unless its line of trace is
refused. -/
inductive EndsDefinition (mode : Mode) (name : Mark) (a : α) : Except Fault α → Prop where
  | ok : EndsDefinition mode name a (.ok a)
  | refused {v : Value} {depth : Nat} (h : mode.takes (.defining name v depth) = false) :
      EndsDefinition mode name a (.error (.unwritable (.defining name v depth)))

theorem EndsDefinition.map {name : Mark} {a : α} {r : Except Fault α}
    (h : EndsDefinition mode name a r) (f : α → β) :
    EndsDefinition mode name (f a) (r.map f) := by
  cases h with
  | ok => exact .ok
  | refused h => exact .refused h

theorem endsDefinition_trace (name : Mark) (v : Value) (depth : Nat) :
    EndsDefinition mode name ()
      (Action.trace mode 2 (Event.defining name v depth).line env).result := by
  rw [Action.trace]
  split
  · by_cases h : mode.takes (.defining name v depth)
    · have hput : Action.put mode (.trace 2 (Event.defining name v depth).line) =
          Action.write [.defining name v depth] := Action.put_of_takes h
      rw [hput]
      exact .ok
    · have hput : Action.put mode (.trace 2 (Event.defining name v depth).line) =
          Action.fail (.unwritable (.defining name v depth)) := Action.put_of_not_takes h
      rw [hput]
      exact .refused (Bool.eq_false_iff.mpr h)
  · exact .ok

/-- A definition fails without a change, or binds the name in the current scope. -/
theorem keeps_define (name : Mark) (v : Value) :
    (∃ fault, define mode name v env = ⟨[], env, .error fault⟩) ∨
      ∃ key, name.lexeme.key? = some key ∧
        EndsDefinition mode name () (define mode name v env).result ∧
        Keeps level (fun a b => b = a.bind key v) targets env (define mode name v env) := by
  rw [define]
  cases hkey : nameOf name with
  | error fault => exact Or.inl ⟨fault, rfl⟩
  | ok key =>
      refine Or.inr ⟨key, nameOf_eq_ok_iff.mp hkey, endsDefinition_trace name v _, ?_⟩
      have hmodify : Keeps level (fun a b => b = a.bind key v) targets env
          (Action.modify (fun e => e.define key v) env) :=
        ⟨rfl, .refl _ _, fun _ => .nil _⟩
      apply (keeps_lift (R := Eq) (.ok key)).bind_ok (fun a b c hab hbc => hab ▸ hbc) rfl
      apply hmodify.bind_ok (S := Eq) (fun a b c hab hbc => hbc ▸ hab) rfl
      apply keeps_environment.bind
      intro e _
      exact keeps_trace (Event.not_isBorder_of_head (c := 'd') rfl (by decide) (by decide))

/-! ## Expressions -/

theorem keeps_evaluate : (n : Node) → n.targets ⊆ targets → (env : Environment) →
    Keeps level (Scope.Rebound targets) targets env (evaluate mode n env)
  | .literal v, _, _ => keeps_pure v
  | .grouping e, h, env => keeps_evaluate e h env
  | .variable name, _, _ => keeps_lookup name
  | .assign name e, h, env => by
      rw [Node.targets, List.append_subset] at h
      exact (keeps_evaluate e h.2 env).bind fun _ _ => keeps_assign h.1
  | .unary op e, h, env => (keeps_evaluate e h env).bind fun v _ => keeps_unary op v
  | .binary l op r, h, env => by
      rw [Node.targets, List.append_subset] at h
      apply (keeps_evaluate l h.1 env).bind
      intro v _
      exact (keeps_evaluate r h.2 _).bind fun w _ => keeps_binary op v w
  | .null, _, _ | .blank, _, _ | .list _, _, _ | .expression _, _, _ | .print _, _, _
  | .declare _ _, _, _ | .block _, _, _ => keeps_fail _

/-! ## Statements -/

/-- Whatever becomes of the scope inside, the scopes outside of it are rebound. -/
theorem keeps_inScope {body : Action Fault α}
    (h : Keeps mode.level (fun _ _ => True) targets env.enter (body env.enter)) :
    Keeps mode.level (Scope.Rebound targets) targets env (inScope mode body env) := by
  obtain ⟨hcurrent, haround⟩ := Environment.rebound_leave h.around
  refine ⟨hcurrent, haround, ?_⟩
  intro hlevel
  rw [events_inScope body hlevel]
  exact .block (h.nested hlevel) (.nil _)

/-- A declaration has been made: it has succeeded, or its line of trace has been refused. -/
def IsMade (mode : Mode) (n : Node) (o : Outcome Fault Value) : Prop :=
  ∃ name e, n = .declare name e ∧ EndsDefinition mode name .nil o.result

/-- What a statement leaves of the scopes: they are rebound, and a declaration that is made has
then bound its name in the current one. -/
inductive Leaves (mode : Mode) (targets : List Key) (n : Node) (env : Environment)
    (o : Outcome Fault Value) : Prop where
  | rebound (h : Keeps mode.level (Scope.Rebound targets) targets env o)
  | declared {key : Key} {v : Value} (hname : n.Declares key) (hmade : IsMade mode n o)
      (h : Keeps mode.level (fun a c => ∃ b, Scope.Rebound targets a b ∧ c = b.bind key v)
        targets env o)

theorem Leaves.around {n : Node} {o : Outcome Fault Value} (h : Leaves mode targets n env o) :
    Keeps mode.level (fun _ _ => True) targets env o := by
  cases h with
  | rebound h => exact h.imp fun _ _ _ => trivial
  | declared _ _ h => exact h.imp fun _ _ _ => trivial

theorem leaves_declare (name : Mark) (e : Node) {x : Action Fault Value}
    (hx : Keeps mode.level (Scope.Rebound targets) targets env (x env)) :
    Leaves mode targets (.declare name e) env
      ((x >>= fun v => define mode name v >>= fun _ => pure .nil) env) := by
  cases hv : (x env).result with
  | error fault => exact .rebound (hx.bind_error hv)
  | ok v =>
      rcases @keeps_define mode mode.level targets (x env).environment name v with
        ⟨fault, hdefine⟩ | ⟨key, hkey, hends, hdefine⟩
      · refine .rebound (hx.bind fun w hw => ?_)
        cases hv.symm.trans hw
        refine Keeps.bind_error ?_ (congrArg Outcome.result hdefine)
        rw [hdefine]
        exact keeps_fail fault
      · refine .declared (v := v) ⟨name, e, rfl, hkey⟩ ⟨name, e, rfl, ?_⟩ ?_
        · rw [Action.bind_ok hv, Action.bind_pure_apply]
          exact hends.map fun _ => Value.nil
        · apply hx.bind_ok (fun a b c hab hbc => ⟨b, hab, hbc⟩) hv
          rw [Action.bind_pure_apply]
          exact ⟨hdefine.current, hdefine.around, hdefine.nested⟩

mutual

theorem leaves_interpret : (n : Node) → n.targets ⊆ targets → (env : Environment) →
    Leaves mode targets n env (interpret mode n env)
  | .expression e, h, env => .rebound (keeps_evaluate e h env)
  | .print e, h, env => by
      refine .rebound ((keeps_evaluate e h env).bind fun v _ => ?_)
      exact (keeps_output v.display).bind fun _ _ => keeps_pure Value.nil
  | .declare name e, h, env => by
      by_cases hnull : e = .null
      · subst hnull
        have hnil : Keeps mode.level (Scope.Rebound targets) targets env
            ((pure Value.nil : Action Fault Value) env) :=
          keeps_pure Value.nil
        have hdeclare := leaves_declare name .null hnil
        rw [pure_bind] at hdeclare
        exact hdeclare
      · rw [interpret_declare_of_ne hnull]
        exact leaves_declare name e (keeps_evaluate e h env)
  | .block statements, h, env => by
      have hinside := keeps_inScope (keeps_interpretAll statements h env.enter)
      exact .rebound (hinside.bind fun _ _ => keeps_pure Value.nil)
  | .null, _, _ | .blank, _, _ | .list _, _, _ | .literal _, _, _ | .grouping _, _, _
  | .unary _ _, _, _ | .binary _ _ _, _, _ | .variable _, _, _ | .assign _ _, _, _ =>
      .rebound (keeps_fail _)

theorem keeps_interpretAll : (statements : List Node) →
    Node.targetsAll statements ⊆ targets → (env : Environment) →
    Keeps mode.level (fun _ _ => True) targets env (interpretAll mode statements env)
  | [], _, _ => (keeps_pure (R := Eq) ()).imp fun _ _ _ => trivial
  | s :: rest, h, env => by
      rw [Node.targetsAll, List.append_subset] at h
      have hfirst := (leaves_interpret s h.1 env).around
      cases hresult : (interpret mode s env).result with
      | error fault => exact hfirst.bind_error hresult
      | ok v => exact hfirst.bind_ok (fun _ _ _ _ => id) hresult (keeps_interpretAll rest h.2 _)

end

/-! ## The discipline -/

/-- The scopes after a node has been carried out, and the lines about blocks, as they follow
from the node, the scopes before, and whether a declaration has been made. -/
structure IsDisciplined (made : Prop) (level : Nat) (n : Node) (env : Environment)
    (o : Outcome Fault Value) : Prop where
  /-- The current scope is the one that was current, as deep as it was. -/
  depth_eq : o.environment.depth = env.depth
  /-- The scopes around it bind the names that they bound. -/
  names_around : o.environment.enclosing.map Scope.names = env.enclosing.map Scope.names
  /-- So does the current scope, unless a declaration has been made and its name is new. -/
  names_current : o.environment.current.names = env.current.names ∨
    ∃ key, n.Declares key ∧ made ∧ key ∉ env.current.names ∧
      o.environment.current.names = env.current.names ++ [key]
  /-- Values have changed for names that are assigned somewhere in the node, and in the current
  scope for the name of a declaration that has been made. -/
  value_changed : ∀ {i : Nat} {before after : Scope} {key : Key},
    env.scopes[i]? = some before → o.environment.scopes[i]? = some after →
      after.get? key ≠ before.get? key →
        key ∈ n.targets ∨ i = 0 ∧ n.Declares key ∧ made
  /-- Every block that was entered was left, at the same depth. -/
  nested : 2 ≤ level → Nested env.depth o.events
  /-- What a block has written stands between its borders. -/
  events_block : 2 ≤ level → ∀ statements, n = .block statements → ∃ inner,
    o.events = .entering (env.depth + 1) :: inner ++ [.leaving env.depth] ∧
      Nested (env.depth + 1) inner

theorem IsDisciplined.of_rebound {made : Prop} {n : Node} {o : Outcome Fault Value}
    (h : Keeps level (Scope.Rebound n.targets) n.targets env o)
    (hblock : 2 ≤ level → ∀ statements, n = .block statements → ∃ inner,
      o.events = .entering (env.depth + 1) :: inner ++ [.leaving env.depth] ∧
        Nested (env.depth + 1) inner) :
    IsDisciplined made level n env o where
  depth_eq := h.around.depth_eq
  names_around := h.around.names_eq
  names_current := Or.inl h.current.names_eq
  value_changed := by
    intro i before after key hbefore hafter hchanged
    have hscopes : List.Forall₂ (Scope.Rebound n.targets) env.scopes o.environment.scopes :=
      .cons h.current h.around
    by_contra hkey
    exact hchanged ((Scope.rebound_of_getElem? hscopes hbefore hafter).get?_eq key
      fun hmem => hkey (Or.inl hmem))
  nested := h.nested
  events_block := hblock

theorem IsDisciplined.of_declared {made : Prop} {n : Node} {o : Outcome Fault Value} {key : Key}
    {v : Value} (hname : n.Declares key) (hmade : made)
    (h : Keeps level (fun a c => ∃ b, Scope.Rebound n.targets a b ∧ c = b.bind key v)
      n.targets env o) :
    IsDisciplined made level n env o where
  depth_eq := h.around.depth_eq
  names_around := h.around.names_eq
  names_current := by
    obtain ⟨b, hb, hcurrent⟩ := h.current
    have hnames : o.environment.current.names =
        if key ∈ env.current.names then env.current.names else env.current.names ++ [key] := by
      rw [hcurrent, Scope.names_bind, hb.names_eq]
    by_cases hmem : key ∈ env.current.names
    · exact Or.inl (hnames.trans (if_pos hmem))
    · exact Or.inr ⟨key, hname, hmade, hmem, hnames.trans (if_neg hmem)⟩
  value_changed := by
    intro i before after other hbefore hafter hchanged
    by_contra hother
    rw [not_or] at hother
    cases i with
    | zero =>
        obtain ⟨b, hb, hcurrent⟩ := h.current
        have hne : other ≠ key := by
          rintro rfl
          exact hother.2 ⟨rfl, hname, hmade⟩
        cases hbefore
        cases hafter
        rw [hcurrent, Scope.get?_bind_of_ne hne] at hchanged
        exact hchanged (hb.get?_eq other hother.1)
    | succ i =>
        have hscope := Scope.rebound_of_getElem? h.around (i := i) hbefore hafter
        exact hchanged (hscope.get?_eq other hother.1)
  nested := h.nested
  events_block := by
    rintro - statements rfl
    obtain ⟨_, _, heq, -⟩ := hname
    cases heq

theorem events_block (statements : List Node) (h : 2 ≤ mode.level) :
    (interpret mode (.block statements) env).events =
      .entering (env.depth + 1) :: (interpretAll mode statements env.enter).events ++
        [.leaving env.depth] := by
  rw [interpret, Action.bind_pure_apply]
  exact events_inScope _ h

/-- Whatever a statement is, and whether it fails or not, the scopes are left as they were
found, but for the name of a declaration that has been made. -/
theorem interpret_isDisciplined (mode : Mode) (n : Node) (env : Environment) :
    IsDisciplined (IsMade mode n (interpret mode n env)) mode.level n env
      (interpret mode n env) := by
  have hleaves : Leaves mode n.targets n env (interpret mode n env) :=
    leaves_interpret n (List.Subset.refl _) env
  cases hleaves with
  | declared hname hmade h => exact .of_declared hname hmade h
  | rebound h =>
      refine .of_rebound h ?_
      rintro hlevel statements rfl
      refine ⟨_, events_block statements hlevel, ?_⟩
      exact (keeps_interpretAll statements (List.Subset.refl _) env.enter).nested hlevel

/-- A declaration that has failed can have added its name. -/
theorem refused_declaration_not_disciplined :
    let o := interpret (.utf8 2) Text.loneHalf.declaration .empty
    ¬IsDisciplined (o.result.isOk = true) 2 Text.loneHalf.declaration .empty o := by
  intro o hdisciplined
  rcases hdisciplined.names_current with hnames | ⟨_, _, hok, -⟩
  · cases hnames
  · cases hok

end Scoping

end MiniLox
