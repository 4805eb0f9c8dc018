import MiniLox.Proofs.Evaluation

/-!
# The values and the lines of a run

A run makes values out of the literals of a program by its operators, and nowhere else.  A
property of values that holds of the literals and that the operators keep therefore holds of
all values that a run computes, binds and shows, and of those in its trace.  The names and the
operators in the trace are those of the program.

A line that is refused is a line like those that are written.  It is a line of the level of the
run, and its stream does not take it.
-/

namespace MiniLox

/-- Whether a run at a level writes a line. -/
def Event.isWrittenAt (level : Nat) : Event → Bool
  | .output _ => true
  | .trace lineLevel _ => decide (lineLevel ≤ level)

/-! ## Literals, names and bindings -/

mutual

/-- The values of the literals in a node. -/
def Node.literals : Node → List Value
  | .null | .blank | .variable _ => []
  | .literal v => [v]
  | .list items => Node.literalsAll items
  | .grouping e | .unary _ e | .assign _ e | .expression e | .print e | .declare _ e =>
    e.literals
  | .binary l _ r => l.literals ++ r.literals
  | .block statements => Node.literalsAll statements

/-- The values of the literals in nodes. -/
def Node.literalsAll : List Node → List Value
  | [] => []
  | n :: rest => n.literals ++ Node.literalsAll rest

end

mutual

/-- The tokens in a node: its operators and its names. -/
def Node.marks : Node → List Mark
  | .null | .blank | .literal _ => []
  | .variable name => [name]
  | .list items => Node.marksAll items
  | .grouping e | .expression e | .print e => e.marks
  | .unary op e => op :: e.marks
  | .assign name e | .declare name e => name :: e.marks
  | .binary l op r => op :: (l.marks ++ r.marks)
  | .block statements => Node.marksAll statements

/-- The tokens in nodes. -/
def Node.marksAll : List Node → List Mark
  | [] => []
  | n :: rest => n.marks ++ Node.marksAll rest

end

variable {P : Mark → Prop} {Q : Value → Prop}

/-- All values in a scope have a property. -/
def Scope.Holds (Q : Value → Prop) (scope : Scope) : Prop := ∀ binding ∈ scope, Q binding.2

/-- All values in all scopes have a property. -/
def Environment.Holds (Q : Value → Prop) (e : Environment) : Prop :=
  ∀ scope ∈ e.scopes, scope.Holds Q

namespace Scope

variable {name : Key} {v : Value} {scope : Scope}

theorem Holds.of_get? (h : scope.Holds Q) (hget : scope.get? name = some v) : Q v := by
  induction scope with
  | nil => cases hget
  | cons binding rest ih =>
      obtain ⟨key, w⟩ := binding
      rw [get?_cons] at hget
      split at hget
      · cases hget
        exact h _ List.mem_cons_self
      · exact ih (fun b hb => h b (List.mem_cons_of_mem _ hb)) hget

theorem Holds.bind (h : scope.Holds Q) (hv : Q v) : (scope.bind name v).Holds Q := by
  induction scope with
  | nil => exact List.forall_mem_singleton.mpr hv
  | cons binding rest ih =>
      obtain ⟨key, w⟩ := binding
      obtain ⟨hfirst, hrest⟩ := List.forall_mem_cons.mp h
      rw [Scope.bind]
      split
      · exact List.forall_mem_cons.mpr ⟨hv, hrest⟩
      · exact List.forall_mem_cons.mpr ⟨hfirst, ih hrest⟩

end Scope

namespace Environment

variable {name : Key} {v : Value} {e f : Environment}

theorem holds_empty : empty.Holds Q :=
  List.forall_mem_singleton.mpr (List.forall_mem_nil _)

theorem Holds.of_get? (h : e.Holds Q) (hget : e.get? name = some v) : Q v := by
  obtain ⟨scope, hscope, hv⟩ := List.exists_of_findSome?_eq_some hget
  exact (h scope hscope).of_get? hv

theorem Holds.define (h : e.Holds Q) (hv : Q v) : (e.define name v).Holds Q := by
  obtain ⟨hcurrent, henclosing⟩ := List.forall_mem_cons.mp h
  exact List.forall_mem_cons.mpr ⟨hcurrent.bind hv, henclosing⟩

theorem holds_of_assignIn {scopes after : List Scope} (h : ∀ scope ∈ scopes, scope.Holds Q)
    (hv : Q v) (hassign : assignIn name v scopes = some after) :
    ∀ scope ∈ after, scope.Holds Q := by
  induction scopes generalizing after with
  | nil => cases hassign
  | cons scope outer ih =>
      obtain ⟨hfirst, houter⟩ := List.forall_mem_cons.mp h
      rw [assignIn] at hassign
      split at hassign
      · cases hassign
        exact List.forall_mem_cons.mpr ⟨hfirst.bind hv, houter⟩
      · obtain ⟨rest, hrest, rfl⟩ := Option.map_eq_some_iff.mp hassign
        exact List.forall_mem_cons.mpr ⟨hfirst, ih houter hrest⟩

theorem Holds.of_assign? (h : e.Holds Q) (hv : Q v) (hassign : e.assign? name v = some f) :
    f.Holds Q := by
  rw [assign?] at hassign
  split at hassign
  · next hscopes =>
    cases hassign
    exact holds_of_assignIn h hv hscopes
  · cases hassign

theorem Holds.enter (h : e.Holds Q) : e.enter.Holds Q :=
  List.forall_mem_cons.mpr ⟨List.forall_mem_nil _, h⟩

theorem Holds.leave (h : e.Holds Q) : e.leave.Holds Q := by
  obtain ⟨current, enclosing⟩ := e
  cases enclosing with
  | nil => exact h
  | cons outer rest => exact (List.forall_mem_cons.mp h).2

end Environment

namespace Evaluation

variable {mode : Mode}

/-- A property of values that nil has and that the operators keep. -/
structure IsKept (Q : Value → Prop) : Prop where
  nil : Q .nil
  unary : ∀ {op : Mark} {v w : Value}, Q v → unaryResult op v = .ok w → Q w
  binary : ∀ {op : Mark} {v w u : Value}, Q v → Q w → binaryResult op v w = .ok u → Q u

/-- The lines that a run can write, each with its level, if its tokens have a property and its
values another. -/
inductive IsLine (P : Mark → Prop) (Q : Value → Prop) : Event → Prop where
  | output {v : Value} (h : Q v) : IsLine P Q (.output v.display)
  | execute (n : Node) : IsLine P Q (.trace 1 s!"execute {n.kindName}")
  | define {name : Mark} {v : Value} (hname : P name) (h : Q v) (depth : Nat) :
      IsLine P Q (.defining name v depth)
  | assign {name : Mark} {v : Value} (hname : P name) (h : Q v) :
      IsLine P Q (.trace 2 ("assign " ++ name.lexeme.display ++ " = " ++ v.display))
  | enter (depth : Nat) : IsLine P Q (.entering depth)
  | leave (depth : Nat) : IsLine P Q (.leaving depth)
  | unary {op : Mark} {v w : Value} (hop : P op) (hv : Q v) (h : unaryResult op v = .ok w) :
      IsLine P Q (.trace 3 (op.lexeme.display ++ v.display ++ " -> " ++ w.display))
  | binary {op : Mark} {v w u : Value} (hop : P op) (hv : Q v) (hw : Q w)
      (h : binaryResult op v w = .ok u) :
      IsLine P Q (.trace 3 (v.display ++ " " ++ op.lexeme.display ++ " " ++ w.display ++ " -> " ++
        u.display))

/-- A line that is refused in a run: one of the level of the run that its stream does not take. -/
structure IsRefused (mode : Mode) (P : Mark → Prop) (Q : Value → Prop) (event : Event) :
    Prop where
  line : IsLine P Q event
  written : event.isWrittenAt mode.level = true
  takes : mode.takes event = false

/-- What became of an action has the properties: the lines it wrote or was refused, the
bindings it left, and the value it gave. -/
structure Shows {α : Type} (mode : Mode) (P : Mark → Prop) (Q : Value → Prop) (given : α → Prop)
    (o : Outcome Fault α) : Prop where
  events : ∀ event ∈ o.events, IsLine P Q event
  environment : o.environment.Holds Q
  result : ∀ a, o.result = .ok a → given a
  refused : ∀ event, o.result = .error (.unwritable event) → IsRefused mode P Q event

/-- An action that shows the properties in every environment whose values have theirs. -/
def Upholds {α : Type} (mode : Mode) (P : Mark → Prop) (Q : Value → Prop) (given : α → Prop)
    (x : Action Fault α) : Prop :=
  ∀ env, env.Holds Q → Shows mode P Q given (x env)

/-! ## Actions -/

namespace Upholds

variable {α β : Type} {R : α → Prop} {S : β → Prop}

theorem bind {x : Action Fault α} {f : α → Action Fault β} (hx : Upholds mode P Q R x)
    (hf : ∀ a, R a → Upholds mode P Q S (f a)) : Upholds mode P Q S (x >>= f) := by
  intro env henv
  obtain ⟨hevents, henvironment, hresult, hrefused⟩ := hx env henv
  cases h : (x env).result with
  | error fault =>
      rw [Action.bind_error h]
      refine ⟨hevents, henvironment, nofun, ?_⟩
      rintro event ⟨⟩
      exact hrefused event h
  | ok a =>
      have hsecond := hf a (hresult a h) _ henvironment
      rw [Action.bind_ok h]
      exact ⟨List.forall_mem_append.mpr ⟨hevents, hsecond.events⟩, hsecond.environment,
        hsecond.result, hsecond.refused⟩

theorem pure {a : α} (h : R a) : Upholds mode P Q R (pure a) :=
  fun _ henv => ⟨List.forall_mem_nil _, henv, fun _ ha => Except.ok.inj ha ▸ h, nofun⟩

theorem fail {fault : Fault} (h : ∀ event, fault ≠ .unwritable event) :
    Upholds mode P Q R (Action.fail fault) :=
  fun _ henv => ⟨List.forall_mem_nil _, henv, nofun,
    fun event he => (h event (Except.error.inj he)).elim⟩

theorem lift {r : Except Fault α} (h : ∀ a, r = .ok a → R a)
    (hr : ∀ event, r ≠ .error (.unwritable event)) : Upholds mode P Q R (Action.lift r) :=
  fun _ henv => ⟨List.forall_mem_nil _, henv, h, fun event he => (hr event he).elim⟩

theorem environment : Upholds mode P Q (Environment.Holds Q) Action.environment :=
  fun _ henv => ⟨List.forall_mem_nil _, henv, fun _ h => Except.ok.inj h ▸ henv, nofun⟩

theorem modify {f : Environment → Environment} (h : ∀ env, env.Holds Q → (f env).Holds Q) :
    Upholds mode P Q (fun _ => True) (Action.modify f) :=
  fun env henv => ⟨List.forall_mem_nil _, h env henv, fun _ _ => trivial, nofun⟩

theorem put {event : Event} (h : IsLine P Q event) (hlevel : event.isWrittenAt mode.level) :
    Upholds mode P Q (fun _ => True) (Action.put mode event) := by
  intro env henv
  by_cases htakes : mode.takes event
  · rw [Action.put_of_takes htakes]
    exact ⟨List.forall_mem_singleton.mpr h, henv, fun _ _ => trivial, nofun⟩
  · rw [Action.put_of_not_takes htakes]
    refine ⟨List.forall_mem_nil _, henv, nofun, ?_⟩
    rintro _ ⟨⟩
    exact ⟨h, hlevel, Bool.eq_false_iff.mpr htakes⟩

theorem output {v : Value} (h : Q v) :
    Upholds mode P Q (fun _ => True) (Action.output mode v.display) := put (.output h) rfl

theorem trace {lineLevel : Nat} {line : Text} (h : IsLine P Q (.trace lineLevel line)) :
    Upholds mode P Q (fun _ => True) (Action.trace mode lineLevel line) := by
  rw [Action.trace]
  split
  · next hlevel => exact put h (decide_eq_true hlevel)
  · exact pure trivial

end Upholds

/-! ## Operators and names -/

section

variable {v w : Value}

theorem unaryResult_ne_unwritable (op : Mark) (v : Value) (event : Event) :
    unaryResult op v ≠ .error (.unwritable event) :=
  fun h => nomatch isOfOperator_of_unaryResult h

theorem binaryResult_ne_unwritable (op : Mark) (v w : Value) (event : Event) :
    binaryResult op v w ≠ .error (.unwritable event) :=
  fun h => nomatch isOfOperator_of_binaryResult h

theorem nameOf_ne_unwritable (name : Mark) (event : Event) :
    nameOf name ≠ .error (.unwritable event) := by
  rw [nameOf]
  split <;> nofun

theorem upholds_nameOf (name : Mark) :
    Upholds mode P Q (fun _ => True) (Action.lift (nameOf name)) :=
  .lift (fun _ _ => trivial) (nameOf_ne_unwritable name)

theorem upholds_unary (hkept : IsKept Q) {op : Mark} (hop : P op) (hv : Q v) :
    Upholds mode P Q Q (unary mode op v) := by
  apply (Upholds.lift (fun _ => id) (unaryResult_ne_unwritable op v)).bind
  intro u hu
  exact (Upholds.trace (.unary hop hv hu)).bind fun _ _ => .pure (hkept.unary hv hu)

theorem upholds_binary (hkept : IsKept Q) {op : Mark} (hop : P op) (hv : Q v) (hw : Q w) :
    Upholds mode P Q Q (binary mode op v w) := by
  apply (Upholds.lift (fun _ => id) (binaryResult_ne_unwritable op v w)).bind
  intro u hu
  exact (Upholds.trace (.binary hop hv hw hu)).bind fun _ _ => .pure (hkept.binary hv hw hu)

theorem upholds_lookup (name : Mark) : Upholds mode P Q Q (lookup name) := by
  apply (upholds_nameOf name).bind
  intro key _
  apply Upholds.environment.bind
  intro env henv
  cases hget : env.get? key with
  | some v => exact .pure (henv.of_get? hget)
  | none => exact .fail nofun

theorem upholds_assign {name : Mark} (hname : P name) (hv : Q v) :
    Upholds mode P Q Q (assign mode name v) := by
  apply (upholds_nameOf name).bind
  intro key _
  apply Upholds.environment.bind
  intro env henv
  cases hassign : env.assign? key v with
  | none => exact .fail nofun
  | some after =>
      apply (Upholds.modify fun _ _ => henv.of_assign? hv hassign).bind
      intro _ _
      exact (Upholds.trace (.assign hname hv)).bind fun _ _ => .pure hv

theorem upholds_define {name : Mark} (hname : P name) (hv : Q v) :
    Upholds mode P Q (fun _ => True) (define mode name v) := by
  apply (upholds_nameOf name).bind
  intro key _
  apply (Upholds.modify fun _ henv => henv.define hv).bind
  intro _ _
  exact Upholds.environment.bind fun env _ => .trace (.define hname hv env.depth)

end

/-! ## Expressions -/

theorem upholds_evaluate (hkept : IsKept Q) : (n : Node) → (∀ m ∈ n.marks, P m) →
    (∀ v ∈ n.literals, Q v) → Upholds mode P Q Q (evaluate mode n)
  | .literal v, _, h => .pure (h v List.mem_cons_self)
  | .grouping e, hmarks, h => upholds_evaluate hkept e hmarks h
  | .variable name, _, _ => upholds_lookup name
  | .assign name e, hmarks, h => by
      obtain ⟨hname, hmarks⟩ := List.forall_mem_cons.mp hmarks
      exact (upholds_evaluate hkept e hmarks h).bind fun _ hv => upholds_assign hname hv
  | .unary op e, hmarks, h => by
      obtain ⟨hop, hmarks⟩ := List.forall_mem_cons.mp hmarks
      exact (upholds_evaluate hkept e hmarks h).bind fun _ hv => upholds_unary hkept hop hv
  | .binary l op r, hmarks, h => by
      obtain ⟨hop, hmarks⟩ := List.forall_mem_cons.mp hmarks
      obtain ⟨hlmarks, hrmarks⟩ := List.forall_mem_append.mp hmarks
      obtain ⟨hl, hr⟩ := List.forall_mem_append.mp h
      exact (upholds_evaluate hkept l hlmarks hl).bind fun _ hv =>
        (upholds_evaluate hkept r hrmarks hr).bind fun _ hw => upholds_binary hkept hop hv hw
  | .null, _, _ | .blank, _, _ | .list _, _, _ | .expression _, _, _ | .print _, _, _
  | .declare _ _, _, _ | .block _, _, _ => .fail nofun

/-! ## Statements -/

theorem upholds_inScope {α : Type} {R : α → Prop} {body : Action Fault α}
    (h : Upholds mode P Q R body) : Upholds mode P Q R (inScope mode body) := by
  intro env henv
  have hborder : ∀ {line : Text}, IsLine P Q (.trace 2 line) →
      Shows mode P Q (fun _ => True) (Action.trace mode 2 line env) :=
    fun hline => Upholds.trace hline env henv
  have hentered := hborder (.enter env.enter.depth)
  have hleft := hborder (.leave env.depth)
  have hinner := h env.enter henv.enter
  refine ⟨?_, hinner.environment.leave, hinner.result, hinner.refused⟩
  have hbefore := List.forall_mem_append.mpr ⟨hentered.events, hinner.events⟩
  exact List.forall_mem_append.mpr ⟨hbefore, hleft.events⟩

mutual

theorem upholds_interpret (hkept : IsKept Q) : (n : Node) → (∀ m ∈ n.marks, P m) →
    (∀ v ∈ n.literals, Q v) → Upholds mode P Q Q (interpret mode n)
  | .expression e, hmarks, h => upholds_evaluate hkept e hmarks h
  | .print e, hmarks, h => (upholds_evaluate hkept e hmarks h).bind fun _ hv =>
      (Upholds.output hv).bind fun _ _ => .pure hkept.nil
  | .declare name e, hmarks, h => by
      obtain ⟨hname, hmarks⟩ := List.forall_mem_cons.mp hmarks
      by_cases hnull : e = .null
      · subst hnull
        exact (upholds_define hname hkept.nil).bind fun _ _ => .pure hkept.nil
      · rw [interpret_declare_of_ne hnull]
        exact (upholds_evaluate hkept e hmarks h).bind fun _ hv =>
          (upholds_define hname hv).bind fun _ _ => .pure hkept.nil
  | .block statements, hmarks, h =>
      (upholds_inScope (upholds_interpretAll hkept statements hmarks h)).bind fun _ _ =>
        .pure hkept.nil
  | .null, _, _ | .blank, _, _ | .list _, _, _ | .literal _, _, _ | .grouping _, _, _
  | .unary _ _, _, _ | .binary _ _ _, _, _ | .variable _, _, _ | .assign _ _, _, _ => .fail nofun

theorem upholds_interpretAll (hkept : IsKept Q) : (statements : List Node) →
    (∀ m ∈ Node.marksAll statements, P m) → (∀ v ∈ Node.literalsAll statements, Q v) →
    Upholds mode P Q (fun _ => True) (interpretAll mode statements)
  | [], _, _ => .pure trivial
  | s :: rest, hmarks, h => by
      obtain ⟨hfirstMarks, hrestMarks⟩ := List.forall_mem_append.mp hmarks
      obtain ⟨hfirst, hrest⟩ := List.forall_mem_append.mp h
      exact (upholds_interpret hkept s hfirstMarks hfirst).bind fun _ _ =>
        upholds_interpretAll hkept rest hrestMarks hrest

end

/-! ## Programs -/

theorem upholds_step (hkept : IsKept Q) (n : Node) (hmarks : ∀ m ∈ n.marks, P m)
    (h : ∀ v ∈ n.literals, Q v) : Upholds mode P Q Q (step mode n) :=
  (Upholds.trace (.execute n)).bind fun _ _ => upholds_interpret hkept n hmarks h

/-- All values and lines of a program have a property that its literals have and that the
operators keep. -/
theorem upholds_execute (hkept : IsKept Q) (statements : List Node)
    (hmarks : ∀ m ∈ Node.marksAll statements, P m)
    (h : ∀ v ∈ Node.literalsAll statements, Q v) :
    Upholds mode P Q (fun _ => True) (execute mode statements) := by
  induction statements with
  | nil => exact .pure trivial
  | cons s rest ih =>
      obtain ⟨hfirstMarks, hrestMarks⟩ := List.forall_mem_append.mp hmarks
      obtain ⟨hfirst, hrest⟩ := List.forall_mem_append.mp h
      apply (upholds_step hkept s hfirstMarks hfirst).bind
      intro v hv
      cases isExpressionStatement s with
      | true => exact (Upholds.output hv).bind fun _ _ => ih hrestMarks hrest
      | false => exact ih hrestMarks hrest

theorem upholds_executeAll (hkept : IsKept Q) (statements : List Node)
    (hmarks : ∀ m ∈ Node.marksAll statements, P m)
    (h : ∀ v ∈ Node.literalsAll statements, Q v) :
    Upholds mode P Q Q (executeAll mode statements) := by
  suffices hfold : ∀ v, Q v →
      Upholds mode P Q Q (statements.foldlM (fun _ s => step mode s) v) from
    hfold .nil hkept.nil
  induction statements with
  | nil => exact fun _ hv => .pure hv
  | cons s rest ih =>
      obtain ⟨hfirstMarks, hrestMarks⟩ := List.forall_mem_append.mp hmarks
      obtain ⟨hfirst, hrest⟩ := List.forall_mem_append.mp h
      intro v _
      rw [List.foldlM_cons]
      exact (upholds_step hkept s hfirstMarks hfirst).bind (ih hrestMarks hrest)

end Evaluation

end MiniLox
