import Mathlib.Logic.Relation
import MiniLox.Proofs.Evaluation

/-!
# The moments of a run

A run consists of smaller ones.  To carry out a statement is to evaluate its expression, or to
carry out the statements inside it; to evaluate an expression is to evaluate its operands.  A
moment is one of these small runs: a node, what is done with it, and the environment in which
that begins.

An operand or a statement begins in the environment that those before it have left, and only if
they have ended without a fault.  A moment that ends in a fault therefore ends every moment of
which it is a part, and a run fails where one of its moments does.
-/

namespace MiniLox

namespace Evaluation

/-- A node that is carried out or evaluated in an environment. -/
structure Moment where
  activity : Activity
  environment : Environment
  node : Node

namespace Moment

/-- What happens at a moment. -/
def outcome (mode : Mode) (m : Moment) : Outcome Fault Value :=
  match m.activity with
  | .interpret => interpret mode m.node m.environment
  | .evaluate => evaluate mode m.node m.environment

/-- The second moment is a part of the first, and no part of another part. -/
inductive Enters (mode : Mode) : Moment → Moment → Prop where
  | expression (env : Environment) (e : Node) :
      Enters mode ⟨.interpret, env, .expression e⟩ ⟨.evaluate, env, e⟩
  | print (env : Environment) (e : Node) :
      Enters mode ⟨.interpret, env, .print e⟩ ⟨.evaluate, env, e⟩
  | initializer (env : Environment) (name : Mark) {e : Node} (he : e ≠ .null) :
      Enters mode ⟨.interpret, env, .declare name e⟩ ⟨.evaluate, env, e⟩
  | statement (env : Environment) {before : List Node} (s : Node) (after : List Node)
      (hbefore : (interpretAll mode before env.enter).result = .ok ()) :
      Enters mode ⟨.interpret, env, .block (before ++ s :: after)⟩
        ⟨.interpret, (interpretAll mode before env.enter).environment, s⟩
  | grouping (env : Environment) (e : Node) :
      Enters mode ⟨.evaluate, env, .grouping e⟩ ⟨.evaluate, env, e⟩
  | value (env : Environment) (name : Mark) (e : Node) :
      Enters mode ⟨.evaluate, env, .assign name e⟩ ⟨.evaluate, env, e⟩
  | operand (env : Environment) (op : Mark) (e : Node) :
      Enters mode ⟨.evaluate, env, .unary op e⟩ ⟨.evaluate, env, e⟩
  | left (env : Environment) (l : Node) (op : Mark) (r : Node) :
      Enters mode ⟨.evaluate, env, .binary l op r⟩ ⟨.evaluate, env, l⟩
  | right (env : Environment) {l : Node} (op : Mark) (r : Node) {v : Value}
      (hleft : (evaluate mode l env).result = .ok v) :
      Enters mode ⟨.evaluate, env, .binary l op r⟩
        ⟨.evaluate, (evaluate mode l env).environment, r⟩

/-- The second moment is the first or a part of it. -/
def Reaches (mode : Mode) : Moment → Moment → Prop := Relation.ReflTransGen (Enters mode)

variable {mode : Mode} {m n : Moment} {fault : Fault}

/-- A moment has the fault of its parts. -/
theorem Enters.outcome_error (h : Enters mode m n)
    (hfault : (n.outcome mode).result = .error fault) :
    (m.outcome mode).result = .error fault := by
  cases h with
  | expression => exact hfault
  | print => exact Action.bind_eq_error_iff.mpr (Or.inl hfault)
  | initializer env name he =>
      change (interpret mode (.declare name _) env).result = _
      rw [interpret_declare_of_ne he]
      exact Action.bind_eq_error_iff.mpr (Or.inl hfault)
  | statement env s after hbefore =>
      apply Action.bind_eq_error_iff.mpr
      left
      change (interpretAll mode (_ ++ s :: after) env.enter).result = _
      rw [interpretAll_append]
      refine Action.bind_eq_error_iff.mpr (Or.inr ⟨(), hbefore, ?_⟩)
      exact Action.bind_eq_error_iff.mpr (Or.inl hfault)
  | grouping => exact hfault
  | value => exact Action.bind_eq_error_iff.mpr (Or.inl hfault)
  | operand => exact Action.bind_eq_error_iff.mpr (Or.inl hfault)
  | left => exact Action.bind_eq_error_iff.mpr (Or.inl hfault)
  | right env op r hleft =>
      apply Action.bind_eq_error_iff.mpr
      exact Or.inr ⟨_, hleft, Action.bind_eq_error_iff.mpr (Or.inl hfault)⟩

theorem Reaches.outcome_error (h : Reaches mode m n)
    (hfault : (n.outcome mode).result = .error fault) :
    (m.outcome mode).result = .error fault := by
  induction h using Relation.ReflTransGen.head_induction_on with
  | refl => exact hfault
  | head hfirst _ ih => exact hfirst.outcome_error ih

/-- The node of a part is a part of the node. -/
theorem Enters.sizeOf_lt (h : Enters mode m n) : sizeOf n.node < sizeOf m.node := by
  cases h with
  | @statement env before s after hbefore =>
      have hmem : s ∈ before ++ s :: after := List.mem_append_right _ List.mem_cons_self
      have hlt := List.sizeOf_lt_of_mem hmem
      simp only [Node.block.sizeOf_spec]
      omega
  | _ =>
      simp only [Node.expression.sizeOf_spec, Node.print.sizeOf_spec, Node.declare.sizeOf_spec,
        Node.grouping.sizeOf_spec, Node.assign.sizeOf_spec, Node.unary.sizeOf_spec,
        Node.binary.sizeOf_spec]
      omega

end Moment

/-! ## Statements in order -/

variable {mode : Mode} {env : Environment} {fault : Fault}

/-- Where statements are carried out in order, something that a run has only if one of its parts
has it comes from one of the statements, and those before it have not failed. -/
theorem exists_split {run : List Node → Action Fault Unit} (hnil : run [] = pure ())
    (happend : ∀ a b, run (a ++ b) = run a >>= fun _ => run b) {P : Outcome Fault Unit → Prop}
    (hpure : ∀ env, ¬P ((pure () : Action Fault Unit) env))
    (hbind : ∀ (x y : Action Fault Unit) env, P ((x >>= fun _ => y) env) →
      P (x env) ∨ (x env).result = .ok () ∧ P (y (x env).environment))
    {statements : List Node} (h : P (run statements env)) :
    ∃ before s after, statements = before ++ s :: after ∧ (run before env).result = .ok () ∧
      P (run [s] (run before env).environment) := by
  induction statements generalizing env with
  | nil =>
      rw [hnil] at h
      exact (hpure env h).elim
  | cons s rest ih =>
      have hcons : ∀ others, run (s :: others) = run [s] >>= fun _ => run others := happend [s]
      rw [hcons] at h
      rcases hbind _ _ env h with h | ⟨hfirst, h⟩
      · refine ⟨[], s, rest, rfl, ?_, ?_⟩
        · rw [hnil]
          rfl
        · rw [hnil]
          exact h
      · obtain ⟨before, t, after, rfl, hbefore, hlast⟩ := ih h
        refine ⟨s :: before, t, after, rfl, ?_, ?_⟩
        · rw [hcons, Action.bind_ok hfirst]
          exact hbefore
        · rw [hcons, Action.bind_ok hfirst]
          exact hlast

/-- The run of statements in order fails where the first of them does that fails. -/
theorem error_iff_exists_split {run : List Node → Action Fault Unit} (hnil : run [] = pure ())
    (happend : ∀ a b, run (a ++ b) = run a >>= fun _ => run b) (statements : List Node) :
    (run statements env).result = .error fault ↔
      ∃ before s after, statements = before ++ s :: after ∧ (run before env).result = .ok () ∧
        (run [s] (run before env).environment).result = .error fault := by
  constructor
  · intro h
    refine exists_split hnil happend (P := fun o => o.result = .error fault) (fun _ => nofun) ?_ h
    intro x y env h
    rcases Action.bind_eq_error_iff.mp h with h | ⟨_, hfirst, h⟩
    · exact Or.inl h
    · exact Or.inr ⟨hfirst, h⟩
  · rintro ⟨before, s, after, rfl, hbefore, h⟩
    have hcons : run (s :: after) = run [s] >>= fun _ => run after := happend [s] after
    rw [happend, hcons]
    exact Action.bind_eq_error_iff.mpr
      (Or.inr ⟨(), hbefore, Action.bind_eq_error_iff.mpr (Or.inl h)⟩)

theorem interpretAll_eq_error_iff_exists (statements : List Node) :
    (interpretAll mode statements env).result = .error fault ↔
      ∃ before s after, statements = before ++ s :: after ∧
        (interpretAll mode before env).result = .ok () ∧
          (interpret mode s (interpretAll mode before env).environment).result =
            .error fault := by
  have hsingle : ∀ s env', (interpretAll mode [s] env').result = .error fault ↔
      (interpret mode s env').result = .error fault := by
    intro s env'
    rw [interpretAll, Action.bind_eq_error_iff, or_iff_left]
    rintro ⟨_, -, h⟩
    cases h
  rw [error_iff_exists_split rfl interpretAll_append]
  simp only [hsingle]

theorem execute_eq_error_iff_exists (hwritten : ∀ event, fault ≠ .unwritable event)
    (statements : List Node) :
    (execute mode statements env).result = .error fault ↔
      ∃ before s after, statements = before ++ s :: after ∧
        (execute mode before env).result = .ok () ∧
          (interpret mode s (execute mode before env).environment).result =
            .error fault := by
  have hsingle : ∀ s env', (execute mode [s] env').result = .error fault ↔
      (interpret mode s env').result = .error fault := by
    intro s env'
    rw [execute, Action.bind_eq_error_iff, step_apply, or_iff_left]
    rintro ⟨v, -, h⟩
    generalize isExpressionStatement s = shown at h
    cases shown with
    | true =>
        rcases Action.bind_eq_error_iff.mp h with h | ⟨_, -, h⟩
        · exact hwritten _ (Action.put_eq_error h)
        · cases h
    | false => cases h
  rw [error_iff_exists_split rfl execute_append]
  simp only [hsingle]

/-- A moment of the run of a program in an environment. -/
def Occurs (mode : Mode) (statements : List Node) (env : Environment) (m : Moment) : Prop :=
  ∃ before s after, statements = before ++ s :: after ∧
    (execute mode before env).result = .ok () ∧
      Moment.Reaches mode ⟨.interpret, (execute mode before env).environment, s⟩ m

end Evaluation

end MiniLox
