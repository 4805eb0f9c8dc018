import MiniLox.Proofs.Evaluation

/-!
# Runs that write less

Of two runs of the same program, one may write fewer lines of trace than the other, and write to
streams that take more lines.  It then does what the other does, without the lines that are left
out, unless the other is stopped: its stream refuses a line that the first run does not write, or
that the stream of the first run takes.

To follow another run in this way is compatible with actions in sequence, so it need only be
checked where a line is written.
-/

namespace MiniLox

/-- What an action did, with no lines but those that are kept. -/
def Outcome.keeping {ε α : Type} (kept : Event → Bool) (o : Outcome ε α) : Outcome ε α :=
  { o with events := o.events.filter kept }

/-- A run in the first mode writes those lines of a run in the second that are kept, and its
streams take them if those of the second do. -/
structure Mode.Narrows (low high : Mode) (kept : Event → Bool) : Prop where
  output : ∀ line, kept (.output line) = true
  trace : ∀ level line, level ≤ low.level ↔ level ≤ high.level ∧ kept (.trace level line) = true
  takes : ∀ event, kept event = true → high.takes event = true → low.takes event = true

namespace Evaluation

variable {α β : Type} {low high : Mode} {kept : Event → Bool}

/-- A run in the second mode ended at a line that stops no run in the first. -/
def StopsAlone (low high : Mode) (kept : Event → Bool) (o : Outcome Fault α) : Prop :=
  ∃ event, o.result = .error (.unwritable event) ∧ high.takes event = false ∧
    (kept event = true → low.takes event = true)

/-- In every environment, the second action is stopped alone, or the first does what it does,
without the lines that are left out. -/
def Follows (low high : Mode) (kept : Event → Bool) (x y : Action Fault α) : Prop :=
  ∀ env, StopsAlone low high kept (y env) ∨ (y env).keeping kept = x env

/-! ## Actions -/

namespace Follows

variable {x y : Action Fault α}

theorem of_silent (h : ∀ env, (x env).events = []) : Follows low high kept x x := by
  intro env
  right
  rw [Outcome.keeping, h env]
  exact congrArg (fun events => (⟨events, _, _⟩ : Outcome Fault α)) (h env).symm

theorem pure (a : α) : Follows low high kept (Pure.pure a) (Pure.pure a) :=
  .of_silent fun _ => rfl

theorem lift (r : Except Fault α) : Follows low high kept (Action.lift r) (Action.lift r) :=
  .of_silent fun _ => rfl

theorem fail (fault : Fault) :
    Follows low high kept (Action.fail fault : Action Fault α) (Action.fail fault) :=
  .of_silent fun _ => rfl

theorem environment : Follows low high kept Action.environment Action.environment :=
  .of_silent fun _ => rfl

theorem modify (f : Environment → Environment) :
    Follows low high kept (Action.modify f) (Action.modify f) :=
  .of_silent fun _ => rfl

theorem bind {f g : α → Action Fault β} (hx : Follows low high kept x y)
    (hf : ∀ a, Follows low high kept (f a) (g a)) :
    Follows low high kept (x >>= f) (y >>= g) := by
  intro env
  rcases hx env with ⟨event, hresult, hevent⟩ | hkept
  · left
    rw [Action.bind_error hresult]
    exact ⟨event, rfl, hevent⟩
  · have hresult : (x env).result = (y env).result := (congrArg Outcome.result hkept).symm
    have henv : (x env).environment = (y env).environment :=
      (congrArg Outcome.environment hkept).symm
    have hevents : (x env).events = (y env).events.filter kept :=
      (congrArg Outcome.events hkept).symm
    cases hy : (y env).result with
    | error fault =>
        right
        rw [Action.bind_error hy, Action.bind_error (hresult.trans hy), hevents, henv]
        rfl
    | ok a =>
        rw [Action.bind_ok hy, Action.bind_ok (hresult.trans hy), hevents, henv]
        rcases hf a (y env).environment with hstops | hrest
        · exact Or.inl hstops
        · right
          rw [← hrest, Outcome.keeping, List.filter_append]
          rfl

theorem put (h : low.Narrows high kept) {event : Event} (hkept : kept event = true) :
    Follows low high kept (Action.put low event) (Action.put high event) := by
  intro env
  by_cases hhigh : high.takes event
  · right
    rw [Action.put_of_takes hhigh, Action.put_of_takes (h.takes event hkept hhigh)]
    exact congrArg (fun events => (⟨events, env, .ok ()⟩ : Outcome Fault Unit))
      (List.filter_cons_of_pos hkept)
  · rw [Action.put_of_not_takes hhigh]
    by_cases hlow : low.takes event
    · exact Or.inl ⟨event, rfl, Bool.eq_false_iff.mpr hhigh, fun _ => hlow⟩
    · rw [Action.put_of_not_takes hlow]
      exact Or.inr rfl

theorem output (h : low.Narrows high kept) (line : Text) :
    Follows low high kept (Action.output low line) (Action.output high line) :=
  put h (h.output line)

theorem trace (h : low.Narrows high kept) (level : Nat) (line : Text) :
    Follows low high kept (Action.trace low level line) (Action.trace high level line) := by
  rw [Action.trace, Action.trace]
  by_cases hlow : level ≤ low.level
  · obtain ⟨hhigh, hkept⟩ := (h.trace level line).mp hlow
    rw [if_pos hlow, if_pos hhigh]
    exact put h hkept
  · rw [if_neg hlow]
    by_cases hhigh : level ≤ high.level
    · have hnot : kept (.trace level line) = false :=
        Bool.eq_false_iff.mpr fun hkept => hlow ((h.trace level line).mpr ⟨hhigh, hkept⟩)
      rw [if_pos hhigh]
      intro env
      by_cases htakes : high.takes (.trace level line)
      · right
        rw [Action.put_of_takes htakes]
        exact congrArg (fun events => (⟨events, env, .ok ()⟩ : Outcome Fault Unit))
          (List.filter_cons_of_neg (Bool.eq_false_iff.mp hnot))
      · left
        rw [Action.put_of_not_takes htakes]
        refine ⟨_, rfl, Bool.eq_false_iff.mpr htakes, ?_⟩
        exact fun hkept => absurd (hnot.symm.trans hkept) Bool.false_ne_true
    · rw [if_neg hhigh]
      exact pure ()

end Follows

/-! ## Operators and names -/

theorem follows_unary (h : low.Narrows high kept) (op : Mark) (v : Value) :
    Follows low high kept (unary low op v) (unary high op v) :=
  (Follows.lift _).bind fun w => (Follows.trace h _ _).bind fun _ => .pure w

theorem follows_binary (h : low.Narrows high kept) (op : Mark) (v w : Value) :
    Follows low high kept (binary low op v w) (binary high op v w) :=
  (Follows.lift _).bind fun u => (Follows.trace h _ _).bind fun _ => .pure u

theorem follows_lookup (name : Mark) : Follows low high kept (lookup name) (lookup name) := by
  apply Follows.of_silent
  intro env
  cases hname : nameOf name with
  | error fault =>
      rw [lookup, hname]
      rfl
  | ok key =>
      rw [lookup_of_nameOf hname]
      cases env.get? key <;> rfl

theorem follows_assign (h : low.Narrows high kept) (name : Mark) (v : Value) :
    Follows low high kept (assign low name v) (assign high name v) := by
  apply (Follows.lift _).bind
  intro key
  apply Follows.environment.bind
  intro env
  cases env.assign? key v with
  | none => exact .fail _
  | some after =>
      exact (Follows.modify _).bind fun _ => (Follows.trace h _ _).bind fun _ => .pure v

theorem follows_define (h : low.Narrows high kept) (name : Mark) (v : Value) :
    Follows low high kept (define low name v) (define high name v) := by
  apply (Follows.lift _).bind
  intro key
  apply (Follows.modify _).bind
  intro _
  exact Follows.environment.bind fun _ => .trace h _ _

/-! ## Expressions and statements -/

theorem follows_evaluate (h : low.Narrows high kept) :
    (n : Node) → Follows low high kept (evaluate low n) (evaluate high n)
  | .literal v => .pure v
  | .grouping e => follows_evaluate h e
  | .variable name => follows_lookup name
  | .assign name e => (follows_evaluate h e).bind fun v => follows_assign h name v
  | .unary op e => (follows_evaluate h e).bind fun v => follows_unary h op v
  | .binary l op r => (follows_evaluate h l).bind fun v =>
      (follows_evaluate h r).bind fun w => follows_binary h op v w
  | .null | .blank | .list _ | .expression _ | .print _ | .declare _ _ | .block _ => .fail _

/-- The lines around a block are refused by no stream. -/
theorem follows_inScope (h : low.Narrows high kept) {x y : Action Fault α}
    (hbody : Follows low high kept x y) :
    Follows low high kept (inScope low x) (inScope high y) := by
  have hborder : ∀ (line : String) (env : Environment),
      (Action.trace high 2 line env).events.filter kept = (Action.trace low 2 line env).events := by
    intro line env
    rcases Follows.trace h 2 line env with ⟨_, hresult, -⟩ | heq
    · rw [Action.trace_plain] at hresult
      cases hresult
    · exact congrArg Outcome.events heq
  intro env
  rcases hbody env.enter with hstops | heq
  · exact Or.inl hstops
  · right
    rw [inScope, inScope, ← heq]
    simp only [Outcome.keeping, List.filter_append, hborder]

mutual

theorem follows_interpret (h : low.Narrows high kept) :
    (n : Node) → Follows low high kept (interpret low n) (interpret high n)
  | .expression e => follows_evaluate h e
  | .print e => (follows_evaluate h e).bind fun v => (Follows.output h v.display).bind fun _ =>
      .pure Value.nil
  | .declare name e => by
      by_cases hnull : e = .null
      · subst hnull
        exact (follows_define h name .nil).bind fun _ => .pure Value.nil
      · rw [interpret_declare_of_ne hnull, interpret_declare_of_ne hnull]
        exact (follows_evaluate h e).bind fun v => (follows_define h name v).bind fun _ =>
          .pure Value.nil
  | .block statements =>
      (follows_inScope h (follows_interpretAll h statements)).bind fun _ => .pure Value.nil
  | .null | .blank | .list _ | .literal _ | .grouping _ | .unary _ _ | .binary _ _ _
  | .variable _ | .assign _ _ => .fail _

theorem follows_interpretAll (h : low.Narrows high kept) :
    (statements : List Node) →
      Follows low high kept (interpretAll low statements) (interpretAll high statements)
  | [] => .pure ()
  | s :: rest => (follows_interpret h s).bind fun _ => follows_interpretAll h rest

end

/-! ## Programs -/

theorem follows_step (h : low.Narrows high kept) (n : Node) :
    Follows low high kept (step low n) (step high n) :=
  (Follows.trace h _ _).bind fun _ => follows_interpret h n

theorem follows_execute (h : low.Narrows high kept) (statements : List Node) :
    Follows low high kept (execute low statements) (execute high statements) := by
  induction statements with
  | nil => exact .pure ()
  | cons s rest ih =>
      apply (follows_step h s).bind
      intro v
      cases isExpressionStatement s with
      | true => exact (Follows.output h v.display).bind fun _ => ih
      | false => exact ih

theorem follows_executeAll (h : low.Narrows high kept) (statements : List Node) :
    Follows low high kept (executeAll low statements) (executeAll high statements) := by
  rw [executeAll, executeAll]
  generalize Value.nil = last
  induction statements generalizing last with
  | nil => exact .pure last
  | cons s rest ih =>
      rw [List.foldlM_cons, List.foldlM_cons]
      exact (follows_step h s).bind ih

end Evaluation

end MiniLox
