import MiniLox.Proofs.Execution.Streams
import MiniLox.Proofs.Typing.Likeness

/-!
# Faults depend on types only

Whether an operator has a result, and of which type, is decided by the types of its
operands; whether a name has a value, by the names that are bound.  Programs that differ in
the values of their literals, in environments that differ in values, therefore end both in
the same fault or both without one, write the same number of lines, and leave environments
that again differ in values only.

Whether a stream takes a line is a matter of the line, however, and so of values.  All this is
therefore so as long as no line stops one of the two runs, and always in memory.
-/

namespace MiniLox

namespace Evaluation

variable {level : Nat} {v w v' w' : Value}

/-! ## Operators -/

theorem alike_asNumber (h : v.Alike w) (line : Json) :
    AlikeResults (fun _ _ => True) (v.asNumber line) (w.asNumber line) := by
  cases h <;> first | exact .ok trivial | exact .error _

theorem alike_asText (h : v.Alike w) (line : Json) :
    AlikeResults (fun _ _ => True) (v.asText line) (w.asText line) := by
  cases h <;> first | exact .ok trivial | exact .error _

theorem alike_asBoolean (h : v.Alike w) (line : Json) :
    AlikeResults (fun _ _ => True) (v.asBoolean line) (w.asBoolean line) := by
  cases h <;> first | exact .ok trivial | exact .error _

theorem alike_plus (hleft : v.Alike w) (hright : v'.Alike w') (line : Json) :
    AlikeResults Value.Alike (plus v v' line) (plus w w' line) := by
  have htexts : AlikeResults Value.Alike
      (do return .text ((← v.asText line) ++ (← v'.asText line)))
      (do return .text ((← w.asText line) ++ (← w'.asText line))) :=
    (alike_asText hleft line).bind fun _ _ _ => (alike_asText hright line).bind fun _ _ _ =>
      .ok (.text _ _)
  cases hleft with
  | number => exact (alike_asNumber hright line).bind fun _ _ _ => .ok (.number _ _)
  | _ => exact htexts

/-- The type of what an operator on numbers gives is a matter of the operator. -/
theorem alike_arithmetic {kind : TokenKind} {f : Number → Number → Value}
    (h : arithmetic? kind = some f) (a b c d : Number) : (f a b).Alike (f c d) := by
  unfold arithmetic? at h
  split at h <;> cases h <;> constructor

theorem alike_binaryResult (operator : Mark) (hleft : v.Alike w) (hright : v'.Alike w') :
    AlikeResults Value.Alike (binaryResult operator v v') (binaryResult operator w w') := by
  rw [binaryResult, binaryResult]
  split
  · next f hf =>
    exact (alike_asNumber hleft _).bind fun a b _ => (alike_asNumber hright _).bind fun c d _ =>
      .ok (alike_arithmetic hf a c b d)
  · split
    · exact alike_plus hleft hright operator.line
    · exact .ok (.boolean _ _)
    · exact .ok (.boolean _ _)
    · exact .error _

theorem alike_unaryResult (operator : Mark) (h : v.Alike w) :
    AlikeResults Value.Alike (unaryResult operator v) (unaryResult operator w) := by
  rw [unaryResult, unaryResult]
  split
  · exact (alike_asNumber h _).bind fun _ _ _ => .ok (.number _ _)
  · exact (alike_asBoolean h _).bind fun _ _ _ => .ok (.boolean _ _)
  · exact .error _

theorem alike_unary (operator : Mark) (h : v.Alike w) :
    AlikeActions Value.Alike (unary level operator v) (unary level operator w) := by
  apply (AlikeActions.lift (alike_unaryResult operator h)).bind
  intro a b hab
  exact (AlikeActions.trace _ _ _ _).bind fun _ _ _ => AlikeActions.pure hab

theorem alike_binary (operator : Mark) (hleft : v.Alike w) (hright : v'.Alike w') :
    AlikeActions Value.Alike (binary level operator v v') (binary level operator w w') := by
  apply (AlikeActions.lift (alike_binaryResult operator hleft hright)).bind
  intro a b hab
  exact (AlikeActions.trace _ _ _ _).bind fun _ _ _ => AlikeActions.pure hab

/-! ## Names -/

theorem alike_nameOf (name : Mark) : AlikeResults Eq (nameOf name) (nameOf name) := by
  cases nameOf name with
  | ok key => exact .ok rfl
  | error fault => exact .error fault

theorem alike_lookup (name : Mark) : AlikeActions Value.Alike (lookup name) (lookup name) := by
  apply (AlikeActions.lift (alike_nameOf name)).bind
  rintro key _ rfl
  apply AlikeActions.environment.bind
  intro e f henv
  rcases rel_cases (henv.get? key) with ⟨he, hf⟩ | ⟨v, w, he, hf, hvalue⟩
  · rw [he, hf]
    exact AlikeActions.fail _
  · rw [he, hf]
    exact AlikeActions.pure hvalue

theorem alike_assign (name : Mark) (h : v.Alike w) :
    AlikeActions Value.Alike (assign level name v) (assign level name w) := by
  apply (AlikeActions.lift (alike_nameOf name)).bind
  rintro key _ rfl
  apply AlikeActions.environment.bind
  intro e f henv
  rcases rel_cases (henv.assign? key h) with ⟨he, hf⟩ | ⟨e', f', he, hf, hafter⟩
  · rw [he, hf]
    exact AlikeActions.fail _
  · rw [he, hf]
    apply (AlikeActions.modify fun _ _ _ => hafter).bind
    intro _ _ _
    exact (AlikeActions.trace _ _ _ _).bind fun _ _ _ => AlikeActions.pure h

theorem alike_define (name : Mark) (h : v.Alike w) :
    AlikeActions Eq (define level name v) (define level name w) := by
  apply (AlikeActions.lift (alike_nameOf name)).bind
  rintro key _ rfl
  apply (AlikeActions.modify fun _ _ henv => henv.define key h).bind
  intro _ _ _
  exact AlikeActions.environment.bind fun _ _ _ => AlikeActions.trace _ _ _ _

/-! ## Expressions -/

theorem alike_evaluate : {a b : Node} →
    a.Alike b → AlikeActions Value.Alike (evaluate level a) (evaluate level b)
  | _, _, .literal h => AlikeActions.pure h
  | .grouping a, .grouping b, .grouping h => by
      rw [evaluate, evaluate]
      exact alike_evaluate h
  | _, _, .unary op h => (alike_evaluate h).bind fun _ _ hright => alike_unary op hright
  | _, _, .binary op hl hr =>
      (alike_evaluate hl).bind fun _ _ hleft =>
        (alike_evaluate hr).bind fun _ _ hright => alike_binary op hleft hright
  | _, _, .variable name => alike_lookup name
  | _, _, .assign name h => (alike_evaluate h).bind fun _ _ hvalue => alike_assign name hvalue
  | _, _, .null | _, _, .blank | _, _, .list _ | _, _, .expression _ | _, _, .print _
  | _, _, .declare _ _ | _, _, .block _ => AlikeActions.fail _

/-! ## Statements -/

theorem alike_inScope {α β : Type} {R : α → β → Prop} {x : Action Fault α} {y : Action Fault β}
    (h : AlikeActions R x y) : AlikeActions R (inScope level x) (inScope level y) := by
  intro e f henv
  have hentered := AlikeActions.trace level 2 s!"enter block (depth {e.enter.depth})"
    s!"enter block (depth {f.enter.depth})" e f henv
  have hleft := AlikeActions.trace level 2 s!"leave block (depth {e.depth})"
    s!"leave block (depth {f.depth})" e f henv
  have hinner := h _ _ henv.enter
  refine ⟨?_, hinner.environment.leave, hinner.result⟩
  rw [inScope, inScope]
  simp only [outputs_append, List.length_append, hentered.outputs, hinner.outputs, hleft.outputs]

mutual

theorem alike_interpret : {a b : Node} →
    a.Alike b → AlikeActions Value.Alike (interpret level a) (interpret level b)
  | _, _, .expression h => alike_evaluate h
  | _, _, .print h => by
      apply (alike_evaluate h).bind
      intro v w _
      exact (AlikeActions.output _ _ _).bind fun _ _ _ => AlikeActions.pure .nil
  | .declare _ a, _, .declare name h => by
      by_cases ha : a = .null
      · subst ha
        cases h
        exact (alike_define name .nil).bind fun _ _ _ => AlikeActions.pure .nil
      · rw [interpret_declare_of_ne ha, interpret_declare_of_ne (Node.Alike.ne_null h ha)]
        apply (alike_evaluate h).bind
        intro v w hvalue
        exact (alike_define name hvalue).bind fun _ _ _ => AlikeActions.pure .nil
  | _, _, .block h =>
      (alike_inScope (alike_interpretAll h)).bind fun _ _ _ => AlikeActions.pure .nil
  | _, _, .null | _, _, .blank | _, _, .list _ | _, _, .literal _ | _, _, .grouping _
  | _, _, .unary _ _ | _, _, .binary _ _ _ | _, _, .variable _ | _, _, .assign _ _ =>
      AlikeActions.fail _

theorem alike_interpretAll : {as bs : List Node} →
    Node.AllAlike as bs → AlikeActions Eq (interpretAll level as) (interpretAll level bs)
  | _, _, .nil => AlikeActions.pure rfl
  | _, _, .cons h hrest => (alike_interpret h).bind fun _ _ _ => alike_interpretAll hrest

end

/-! ## Programs -/

theorem alike_step {a b : Node} (h : a.Alike b) :
    AlikeActions Value.Alike (step level a) (step level b) :=
  (AlikeActions.trace _ _ _ _).bind fun _ _ _ => alike_interpret h

theorem alike_executeAll {as bs : List Node} (h : Node.AllAlike as bs) :
    AlikeActions Value.Alike (executeAll level as) (executeAll level bs) := by
  suffices hfold : ∀ v w : Value, v.Alike w → AlikeActions Value.Alike
      (as.foldlM (fun _ s => step level s) v) (bs.foldlM (fun _ s => step level s) w) from
    hfold .nil .nil .nil
  -- The value of the statement before is handed on, and forgotten.
  induction as generalizing bs with
  | nil =>
      cases h
      intro v w hvalue
      exact AlikeActions.pure hvalue
  | cons a as ih =>
      cases h with
      | cons h hrest =>
          intro v w _
          rw [List.foldlM_cons, List.foldlM_cons]
          exact (alike_step h).bind (ih hrest)

theorem isExpressionStatement_eq_of_alike {a b : Node} (h : a.Alike b) :
    isExpressionStatement a = isExpressionStatement b := by
  cases h <;> rfl

theorem alike_execute {as bs : List Node} (h : Node.AllAlike as bs) :
    AlikeActions Eq (execute level as) (execute level bs) := by
  induction as generalizing bs with
  | nil =>
      cases h
      exact AlikeActions.pure rfl
  | cons a as ih =>
      cases h with
      | @cons _ b _ bs h hrest =>
          rw [execute, execute, isExpressionStatement_eq_of_alike h]
          apply (alike_step h).bind
          intro v w _
          cases isExpressionStatement b with
          | true => exact (AlikeActions.output _ _ _).bind fun _ _ _ => ih hrest
          | false => exact ih hrest

/-- The number of statements of a program whose values are shown. -/
def echoes (mode : Mode) : List Node → Environment → Nat
  | [], _ => 0
  | s :: rest, env =>
    match (step mode s env).result with
    | .ok _ =>
      (if isExpressionStatement s then 1 else 0) + echoes mode rest (step mode s env).environment
    | .error _ => 0

section

variable {mode : Mode}

theorem echoes_cons_error {s : Node} {rest : List Node} {env : Environment} {fault : Fault}
    (h : (step mode s env).result = .error fault) : echoes mode (s :: rest) env = 0 := by
  simp only [echoes, h]

theorem echoes_cons_ok {s : Node} {rest : List Node} {env : Environment} {v : Value}
    (h : (step mode s env).result = .ok v) :
    echoes mode (s :: rest) env =
      (if isExpressionStatement s then 1 else 0) +
        echoes mode rest (step mode s env).environment := by
  simp only [echoes, h]

/-- A run that no line stops shows as many values as the run that keeps its lines in memory. -/
theorem echoes_eq_ofLevel {statements : List Node} {env : Environment}
    (h : ¬(execute mode statements env).IsStopped mode) :
    echoes mode statements env = echoes mode.level statements env := by
  induction statements generalizing env with
  | nil => rfl
  | cons s rest ih =>
      have hstep : step mode s env = step mode.level s env := by
        refine (isStopped_or_eq_of_follows (follows_step (narrows_ofLevel mode) s) env).resolve_left
          fun ⟨event, hresult, htakes⟩ => h ⟨event, ?_, htakes⟩
        rw [execute, Action.bind_error hresult]
      cases hresult : (step mode s env).result with
      | error fault =>
          rw [echoes_cons_error hresult, echoes_cons_error (hstep ▸ hresult)]
      | ok v =>
          have hrest : ¬(execute mode rest (step mode s env).environment).IsStopped mode := by
            rintro ⟨event, hstopped, htakes⟩
            refine h ?_
            rw [execute, Action.bind_ok hresult]
            cases isExpressionStatement s with
            | false => exact ⟨event, hstopped, htakes⟩
            | true =>
                by_cases hshown : mode.takes (.output v.display)
                · refine ⟨event, ?_, htakes⟩
                  rw [if_pos rfl, Action.output, Action.put_of_takes hshown]
                  exact hstopped
                · refine ⟨.output v.display, ?_, Bool.eq_false_iff.mpr hshown⟩
                  rw [if_pos rfl, Action.output, Action.put_of_not_takes hshown]
                  rfl
          rw [echoes_cons_ok hresult, ih hrest, hstep, echoes_cons_ok (hstep ▸ hresult)]

end

/-- What a program writes when it shows values is what it prints, and those values. -/
theorem length_outputs_execute (level : Nat) (statements : List Node) (env : Environment) :
    (outputs (execute level statements env).events).length =
      (outputs (executeAll level statements env).events).length +
        echoes level statements env := by
  rw [executeAll]
  generalize Value.nil = last
  induction statements generalizing env last with
  | nil => rfl
  | cons s rest ih =>
      rw [execute, List.foldlM_cons]
      cases hresult : (step level s env).result with
      | error fault =>
          rw [Action.bind_error hresult, Action.bind_error hresult, echoes_cons_error hresult,
            Nat.add_zero]
      | ok v =>
          have hrest := ih (step level s env).environment v
          rw [Action.bind_ok hresult, Action.bind_ok hresult, echoes_cons_ok hresult]
          cases isExpressionStatement s with
          | true =>
              have hshown : ((Action.output level v.display >>= fun _ => execute level rest :
                    Action Fault Unit) (step level s env).environment).events =
                  .output v.display ::
                    (execute level rest (step level s env).environment).events := rfl
              rw [if_pos rfl, if_pos rfl, hshown, outputs_append, outputs_append,
                List.length_append, List.length_append, outputs_cons_output, List.length_cons,
                hrest]
              omega
          | false =>
              rw [if_neg Bool.false_ne_true, if_neg Bool.false_ne_true, outputs_append,
                outputs_append, List.length_append, List.length_append, hrest]
              omega

theorem execution_alike_ofLevel {as bs : List Node} {e f : Environment} (level : Nat)
    (hprogram : Node.AllAlike as bs) (henv : e.Alike f) :
    AlikeOutcomes Value.Alike (executeAll level as e) (executeAll level bs f) ∧
      AlikeOutcomes Eq (execute level as e) (execute level bs f) ∧
      echoes level as e = echoes level bs f := by
  have hall := @alike_executeAll level as bs hprogram e f henv
  have hshown := @alike_execute level as bs hprogram e f henv
  refine ⟨hall, hshown, ?_⟩
  have hleft := length_outputs_execute level as e
  have hright := length_outputs_execute level bs f
  rw [hall.outputs, hshown.outputs, hright] at hleft
  exact (Nat.add_left_cancel hleft).symm

/-- Two programs that differ in the values of literals only, in environments that differ in
values only, end in the same fault or both in none, unless a line stops one of them.  They print
the same number of lines and show the same number of values, and they leave environments that
differ in values only. -/
theorem execution_alike {as bs : List Node} {e f : Environment} (mode : Mode)
    (hprogram : Node.AllAlike as bs) (henv : e.Alike f) :
    (¬(executeAll mode as e).IsStopped mode → ¬(executeAll mode bs f).IsStopped mode →
      AlikeOutcomes Value.Alike (executeAll mode as e) (executeAll mode bs f)) ∧
    (¬(execute mode as e).IsStopped mode → ¬(execute mode bs f).IsStopped mode →
      AlikeOutcomes Eq (execute mode as e) (execute mode bs f) ∧
        echoes mode as e = echoes mode bs f) := by
  obtain ⟨hall, hshown, hechoes⟩ := execution_alike_ofLevel mode.level hprogram henv
  constructor
  · intro has hbs
    rw [(executeAll_isStopped_or_eq mode as e).resolve_left has,
      (executeAll_isStopped_or_eq mode bs f).resolve_left hbs]
    exact hall
  · intro has hbs
    rw [echoes_eq_ofLevel has, echoes_eq_ofLevel hbs,
      (execute_isStopped_or_eq mode as e).resolve_left has,
      (execute_isStopped_or_eq mode bs f).resolve_left hbs]
    exact ⟨hshown, hechoes⟩

/-- Divides by a number, shows the value of a variable, and adds a text to the number. -/
def dividing (divisor : Number) (text : String) : List Node :=
  [.print (.binary (.variable ⟨.identifier, .text "x", .null, .whole 1⟩)
      ⟨.slash, .text "/", .null, .whole 1⟩ (.literal (.number divisor))),
    .expression (.variable ⟨.identifier, .text "x", .null, .whole 2⟩),
    .expression (.binary (.literal (.number divisor)) ⟨.plus, .text "+", .null, .whole 3⟩
      (.literal (.text text)))]

/-- An environment in which the variable is a number. -/
def holding (n : Number) : Environment := ⟨[(.text "x", .number n)], []⟩

theorem execution_alike_dividing :
    Node.AllAlike (dividing (.ofInt 0) "a") (dividing (.ofInt 3) "b") ∧
      (holding (.ofInt 1)).Alike (holding (.ofInt 5)) ∧
      (execute (.ofLevel 0) (dividing (.ofInt 0) "a") (holding (.ofInt 1))).result =
        .error (.typeMismatch "number" "string" (.whole 3)) ∧
      (execute (.ofLevel 0) (dividing (.ofInt 3) "b") (holding (.ofInt 5))).result =
        .error (.typeMismatch "number" "string" (.whole 3)) ∧
      echoes (.ofLevel 0) (dividing (.ofInt 3) "b") (holding (.ofInt 5)) = 1 := by
  have hprogram : Node.AllAlike (dividing (.ofInt 0) "a") (dividing (.ofInt 3) "b") :=
    .cons (.print (.binary _ (.variable _) (.literal (.number _ _))))
      (.cons (.expression (.variable _))
        (.cons (.expression (.binary _ (.literal (.number _ _)) (.literal (.text _ _)))) .nil))
  have henv : (holding (.ofInt 1)).Alike (holding (.ofInt 5)) :=
    .cons (Scope.alike_empty.bind (.text "x") (.number _ _)) .nil
  have hzero : (execute (.ofLevel 0) (dividing (.ofInt 0) "a") (holding (.ofInt 1))).result =
      .error (.typeMismatch "number" "string" (.whole 3)) := rfl
  obtain ⟨hshown, hechoes⟩ := (execution_alike (.ofLevel 0) hprogram henv).2
    (not_isStopped_ofLevel 0 _) (not_isStopped_ofLevel 0 _)
  refine ⟨hprogram, henv, hzero, ?_, hechoes.symm.trans rfl⟩
  have hresult := hshown.result
  rw [hzero] at hresult
  exact hresult.eq_error

/-- Of two texts that are bound, one can stop the run. -/
theorem declarations_not_alike :
    Node.AllAlike [Text.declaration "a"] [Text.loneHalf.declaration] ∧
      Environment.empty.Alike .empty ∧
      ¬AlikeOutcomes Eq (execute (.utf8 2) [Text.declaration "a"] .empty)
        (execute (.utf8 2) [Text.loneHalf.declaration] .empty) := by
  refine ⟨.cons (.declare _ (.literal (.text _ _))) .nil, .cons Scope.alike_empty .nil, ?_⟩
  intro halike
  have hresult : AlikeResults Eq (.ok ())
      (execute (.utf8 2) [Text.loneHalf.declaration] .empty).result :=
    halike.result
  obtain ⟨_, hok, -⟩ := hresult.exists_of_ok
  cases hok

end Evaluation

end MiniLox
