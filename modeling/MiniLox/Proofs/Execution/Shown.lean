import MiniLox.Proofs.Execution.Lines
import MiniLox.Proofs.Execution.Moments

/-!
# What a run shows

Every line of output is written at a moment of the run: it is the value that a statement has
printed there, or the value of an expression statement of the program.  A property of values
that holds at the beginning and that the operators keep therefore holds of every value that is
shown, as it does of every value that is computed on the way.
-/

namespace MiniLox

theorem Node.literalsAll_append (a b : List Node) :
    Node.literalsAll (a ++ b) = Node.literalsAll a ++ Node.literalsAll b := by
  induction a with
  | nil => rfl
  | cons n rest ih =>
      rw [List.cons_append, Node.literalsAll, Node.literalsAll, ih, List.append_assoc]

namespace Evaluation

variable {mode : Mode} {env : Environment} {line : Text} {Q : Value → Prop}

/-! ## Values at moments -/

namespace Moment

variable {m n : Moment}

/-- The values that are there when a moment begins have a property: those that are bound, and
those of the literals that it is about to read. -/
structure Starts (Q : Value → Prop) (m : Moment) : Prop where
  environment : m.environment.Holds Q
  literals : ∀ v ∈ m.node.literals, Q v

theorem Starts.shows (hkept : IsKept Q) (h : m.Starts Q) :
    Shows mode (fun _ => True) Q Q (m.outcome mode) := by
  obtain ⟨activity, env, n⟩ := m
  have hmarks : ∀ mark ∈ n.marks, True := fun _ _ => trivial
  cases activity with
  | interpret => exact upholds_interpret hkept n hmarks h.literals env h.environment
  | evaluate => exact upholds_evaluate hkept n hmarks h.literals env h.environment

/-- What holds when a moment begins holds when its parts begin. -/
theorem Enters.starts (hkept : IsKept Q) (h : Enters mode m n) (hm : m.Starts Q) :
    n.Starts Q := by
  obtain ⟨henv, hliterals⟩ := hm
  cases h with
  | @statement env before s after _ =>
      change ∀ v ∈ Node.literalsAll (before ++ s :: after), Q v at hliterals
      rw [Node.literalsAll_append] at hliterals
      obtain ⟨hbefore, hrest⟩ := List.forall_mem_append.mp hliterals
      have hshows : Shows mode (fun _ => True) Q (fun _ => True)
          (interpretAll mode before env.enter) :=
        upholds_interpretAll hkept before (fun _ _ => trivial) hbefore env.enter henv.enter
      exact ⟨hshows.environment, (List.forall_mem_append.mp hrest).1⟩
  | left env l op r => exact ⟨henv, (List.forall_mem_append.mp hliterals).1⟩
  | @right env l op r _ _ =>
      obtain ⟨hl, hr⟩ := List.forall_mem_append.mp hliterals
      have hshows : Shows mode (fun _ => True) Q Q (evaluate mode l env) :=
        upholds_evaluate hkept l (fun _ _ => trivial) hl env henv
      exact ⟨hshows.environment, hr⟩
  | _ => exact ⟨henv, hliterals⟩

theorem Reaches.starts (hkept : IsKept Q) (h : Reaches mode m n) (hm : m.Starts Q) :
    n.Starts Q := by
  induction h with
  | refl => exact hm
  | tail _ hlast ih => exact hlast.starts hkept ih

end Moment

theorem Occurs.starts (hkept : IsKept Q) {statements : List Node} {m : Moment}
    (henv : env.Holds Q) (hliterals : ∀ v ∈ Node.literalsAll statements, Q v)
    (h : Occurs mode statements env m) : m.Starts Q := by
  obtain ⟨before, s, after, rfl, -, hreaches⟩ := h
  rw [Node.literalsAll_append] at hliterals
  obtain ⟨hbefore, hrest⟩ := List.forall_mem_append.mp hliterals
  have hshows : Shows mode (fun _ => True) Q (fun _ => True) (execute mode before env) :=
    upholds_execute hkept before (fun _ _ => trivial) hbefore env henv
  exact hreaches.starts hkept ⟨hshows.environment, (List.forall_mem_append.mp hrest).1⟩

/-! ## Lines of output -/

/-- The value that a statement prints, or that of an expression statement. -/
inductive Moment.Displays (mode : Mode) : Moment → Value → Prop where
  | print {env : Environment} {e : Node} {v : Value}
      (h : (evaluate mode e env).result = .ok v) :
      Displays mode ⟨.interpret, env, .print e⟩ v
  | expression {env : Environment} {e : Node} {v : Value}
      (h : (evaluate mode e env).result = .ok v) :
      Displays mode ⟨.interpret, env, .expression e⟩ v

theorem outputs_bind_eq_nil {α β : Type} {x : Action Fault α} {f : α → Action Fault β}
    (hx : outputs (x env).events = [])
    (hf : ∀ a, (x env).result = .ok a → outputs (f a (x env).environment).events = []) :
    outputs ((x >>= f) env).events = [] := by
  cases h : (x env).result with
  | error fault =>
      rw [Action.bind_error h]
      exact hx
  | ok a =>
      rw [Action.bind_ok h, outputs_append, hx, hf a h, List.append_nil]

theorem outputs_lookup (name : Mark) : outputs (lookup name env).events = [] := by
  cases hname : nameOf name with
  | error fault =>
      rw [lookup, hname]
      rfl
  | ok key =>
      rw [lookup_of_nameOf hname]
      cases env.get? key <;> rfl

theorem outputs_assign (name : Mark) (v : Value) :
    outputs (assign mode name v env).events = [] := by
  cases hname : nameOf name with
  | error fault =>
      rw [assign, hname]
      rfl
  | ok key =>
      rw [assign_of_nameOf hname]
      cases env.assign? key v with
      | none => rfl
      | some after =>
          exact outputs_bind_eq_nil rfl fun _ _ =>
            outputs_bind_eq_nil (Action.outputs_trace mode 2 _) fun _ _ => rfl

theorem outputs_define (name : Mark) (v : Value) :
    outputs (define mode name v env).events = [] := by
  rw [define]
  cases nameOf name with
  | error fault => rfl
  | ok key =>
      exact outputs_bind_eq_nil rfl fun _ _ => outputs_bind_eq_nil rfl fun _ _ =>
        outputs_bind_eq_nil rfl fun _ _ => Action.outputs_trace mode 2 _

/-- Expressions write no output. -/
theorem outputs_evaluate : (n : Node) → (env : Environment) →
    outputs (evaluate mode n env).events = []
  | .literal _, _ => rfl
  | .grouping e, env => outputs_evaluate e env
  | .variable name, _ => outputs_lookup name
  | .assign name e, env =>
      outputs_bind_eq_nil (outputs_evaluate e env) fun v _ => outputs_assign name v
  | .unary _ e, env =>
      outputs_bind_eq_nil (outputs_evaluate e env) fun _ _ => outputs_bind_eq_nil rfl fun _ _ =>
        outputs_bind_eq_nil (Action.outputs_trace mode 3 _) fun _ _ => rfl
  | .binary l _ r, env =>
      outputs_bind_eq_nil (outputs_evaluate l env) fun _ _ =>
        outputs_bind_eq_nil (outputs_evaluate r _) fun _ _ => outputs_bind_eq_nil rfl fun _ _ =>
          outputs_bind_eq_nil (Action.outputs_trace mode 3 _) fun _ _ => rfl
  | .null, _ | .blank, _ | .list _, _ | .expression _, _ | .print _, _ | .declare _ _, _
  | .block _, _ => rfl

/-- To write a line of output is to write that line or nothing. -/
theorem eq_of_mem_outputs_output {α : Type} {text : Text} {a : α}
    (h : line ∈ outputs ((do
      Action.output mode text
      return a : Action Fault α) env).events) : line = text := by
  rw [Action.bind_pure_apply, Action.output, Action.put] at h
  split at h
  · exact List.mem_singleton.mp h
  · cases h

/-- Where statements are carried out in order, each line of output is written by one of them,
and those before it have not failed. -/
theorem exists_split_of_mem_outputs {run : List Node → Action Fault Unit}
    (hnil : run [] = pure ()) (happend : ∀ a b, run (a ++ b) = run a >>= fun _ => run b)
    {statements : List Node} (h : line ∈ outputs (run statements env).events) :
    ∃ before s after, statements = before ++ s :: after ∧ (run before env).result = .ok () ∧
      line ∈ outputs (run [s] (run before env).environment).events := by
  refine exists_split hnil happend (P := fun o => line ∈ outputs o.events) (fun _ => nofun) ?_ h
  intro x y env h
  cases hfirst : (x env).result with
  | error fault =>
      rw [Action.bind_error hfirst] at h
      exact Or.inl h
  | ok _ =>
      rw [Action.bind_ok hfirst, outputs_append] at h
      rcases List.mem_append.mp h with h | h
      · exact Or.inl h
      · exact Or.inr ⟨rfl, h⟩

/-- A statement writes the output of one of its parts, or prints a value. -/
theorem Moment.exists_displays_of_interpret {n : Node}
    (h : line ∈ outputs (interpret mode n env).events) :
    ∃ m v, Reaches mode ⟨.interpret, env, n⟩ m ∧ m.Displays mode v ∧ line = v.display := by
  induction hsize : sizeOf n using Nat.strongRecOn generalizing n env with
  | ind size ih =>
      cases n with
      | expression e =>
          rw [interpret, outputs_evaluate] at h
          cases h
      | print e =>
          rw [interpret] at h
          cases hv : (evaluate mode e env).result with
          | error fault =>
              rw [Action.bind_error hv, outputs_evaluate] at h
              cases h
          | ok v =>
              rw [Action.bind_ok hv, outputs_append, outputs_evaluate, List.nil_append] at h
              exact ⟨_, v, .refl, .print hv, eq_of_mem_outputs_output h⟩
      | declare name e =>
          have hnil : outputs (interpret mode (.declare name e) env).events = [] := by
            by_cases hnull : e = .null
            · subst hnull
              exact outputs_bind_eq_nil (outputs_define name .nil) fun _ _ => rfl
            · rw [interpret_declare_of_ne hnull]
              exact outputs_bind_eq_nil (outputs_evaluate e env) fun v _ =>
                outputs_bind_eq_nil (outputs_define name v) fun _ _ => rfl
          rw [hnil] at h
          cases h
      | block statements =>
          have hinside : line ∈ outputs (interpretAll mode statements env.enter).events := by
            rw [interpret, Action.bind_pure_apply, inScope] at h
            simp only [outputs_append, Action.outputs_trace, List.nil_append,
              List.append_nil] at h
            exact h
          obtain ⟨before, s, after, rfl, hbefore, hline⟩ :=
            exists_split_of_mem_outputs rfl interpretAll_append hinside
          rw [interpretAll, interpretAll, Action.bind_pure_apply] at hline
          have henters := Enters.statement env s after hbefore
          obtain ⟨m, v, hreaches, hdisplays, rfl⟩ :=
            ih (sizeOf s) (hsize ▸ henters.sizeOf_lt) hline rfl
          exact ⟨m, v, hreaches.head henters, hdisplays, rfl⟩
      | _ => cases h

/-- Each line of output of a program is the display of a value, at a moment of its run. -/
theorem exists_displays_of_mem_outputs {statements : List Node}
    (h : line ∈ outputs (execute mode statements env).events) :
    ∃ m v, Occurs mode statements env m ∧ m.Displays mode v ∧ line = v.display := by
  obtain ⟨before, s, after, rfl, hbefore, hline⟩ :=
    exists_split_of_mem_outputs rfl execute_append h
  have hoccurs : ∀ {m}, Moment.Reaches mode
      ⟨.interpret, (execute mode before env).environment, s⟩ m →
        Occurs mode (before ++ s :: after) env m :=
    fun hreaches => ⟨before, s, after, rfl, hbefore, hreaches⟩
  generalize (execute mode before env).environment = env' at hline hoccurs
  have hinside : line ∈ outputs (interpret mode s env').events →
      ∃ m v, Occurs mode (before ++ s :: after) env m ∧ m.Displays mode v ∧
        line = v.display := by
    intro h
    obtain ⟨m, v, hreaches, hdisplays, rfl⟩ := Moment.exists_displays_of_interpret h
    exact ⟨m, v, hoccurs hreaches, hdisplays, rfl⟩
  have hstep : outputs (step mode s env').events = outputs (interpret mode s env').events := by
    rw [step_apply, outputs_append, Action.outputs_trace mode 1 _, List.nil_append]
  rw [execute] at hline
  cases hresult : (interpret mode s env').result with
  | error fault =>
      rw [Action.bind_error (by rw [step_apply, hresult]), hstep] at hline
      exact hinside hline
  | ok v =>
      rw [Action.bind_ok (by rw [step_apply, hresult]), outputs_append, hstep] at hline
      rcases List.mem_append.mp hline with hline | hline
      · exact hinside hline
      · cases s with
        | expression e =>
            exact ⟨_, v, hoccurs .refl, .expression hresult, eq_of_mem_outputs_output hline⟩
        | _ => cases hline

/-- The value that is shown at a moment has the property of the values that are there. -/
theorem Moment.Displays.of_starts {m : Moment} {v : Value} (hkept : IsKept Q)
    (hm : m.Starts Q) (h : m.Displays mode v) : Q v := by
  have hshows : ∀ e : Node, (∀ w ∈ e.literals, Q w) →
      Shows mode (fun _ => True) Q Q (evaluate mode e m.environment) :=
    fun e hliterals => upholds_evaluate hkept e (fun _ _ => trivial) hliterals _ hm.environment
  cases h with
  | @print _ e _ hv => exact (hshows e hm.literals).result v hv
  | @expression _ e _ hv => exact (hshows e hm.literals).result v hv

end Evaluation

end MiniLox
