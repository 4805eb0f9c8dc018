import MiniLox.Proofs.Execution.Streams

/-!
# What tracing changes

The level of a run decides which lines of trace are written.  A run at a level is the run at any
higher level without the lines that are above its own: the same output stands between the same
lines of trace, the same values are bound, and the run ends in the same fault or in none.

There is one exception, because a line of trace may hold what its stream does not take.  It then
stops the run, and a run at a lower level, which does not write that line, goes on.
-/

namespace MiniLox

theorem outputs_filter_isWrittenAt (level : Nat) (events : List Event) :
    outputs (events.filter (Event.isWrittenAt level)) = outputs events := by
  induction events with
  | nil => rfl
  | cons event rest ih =>
      cases event with
      | output line =>
          rw [List.filter_cons_of_pos rfl, outputs_cons_output, outputs_cons_output, ih]
      | trace lineLevel line =>
          rw [List.filter_cons]
          split
          · exact ih
          · exact ih

namespace Evaluation

variable {d e : Nat} {output trace : Stream}

theorem narrows_of_le (h : d ≤ e) :
    (⟨d, output, trace⟩ : Mode).Narrows ⟨e, output, trace⟩ (Event.isWrittenAt d) where
  output _ := rfl
  trace level line := by
    change level ≤ d ↔ level ≤ e ∧ decide (level ≤ d) = true
    rw [decide_eq_true_iff]
    exact ⟨fun hlow => ⟨Nat.le_trans hlow h, hlow⟩, And.right⟩
  takes event _ htakes := by
    cases event <;> exact htakes

/-- The first outcome is that of a run at a level, if the second is that of the same run at a
higher one. -/
structure WritesLess {α : Type} (level : Nat) (low high : Outcome Fault α) : Prop where
  /-- The lines are those of the higher level that are admitted, in their order. -/
  events : low.events = high.events.filter (Event.isWrittenAt level)
  outputs : outputs low.events = outputs high.events
  environment : low.environment = high.environment
  result : low.result = high.result
  /-- Every line has the level of its kind. -/
  lines : ∀ event ∈ high.events, IsLine (fun _ => True) (fun _ => True) event

/-- The run was stopped by a line of trace above a level. -/
def StopsAbove {α : Type} (level : Nat) (o : Outcome Fault α) : Prop :=
  ∃ lineLevel line, level < lineLevel ∧ o.result = .error (.unwritable (.trace lineLevel line))

theorem writesLess_iff {α : Type} {R : α → Prop} {x y : Action Fault α}
    (hfollows : Follows ⟨d, output, trace⟩ ⟨e, output, trace⟩ (Event.isWrittenAt d) x y)
    (hx : Upholds ⟨d, output, trace⟩ (fun _ => True) (fun _ => True) R x)
    (hy : Upholds ⟨e, output, trace⟩ (fun _ => True) (fun _ => True) R y) (env : Environment) :
    WritesLess d (x env) (y env) ↔ ¬StopsAbove d (y env) := by
  constructor
  · rintro hless ⟨lineLevel, line, habove, hresult⟩
    have hwritten := (hx.isRefused (hless.result.trans hresult)).written
    exact absurd (of_decide_eq_true hwritten) (Nat.not_le.mpr habove)
  · intro hnot
    rcases hfollows env with ⟨event, hresult, htakes, hlow⟩ | heq
    · -- The two modes have the same streams, so the line is none of the lower level.
      cases event with
      | output line => exact absurd (hlow rfl) (Bool.eq_false_iff.mp htakes)
      | trace lineLevel line =>
          refine absurd ⟨lineLevel, line, Nat.lt_of_not_le fun hle => ?_, hresult⟩ hnot
          exact absurd (hlow (decide_eq_true hle)) (Bool.eq_false_iff.mp htakes)
    · rw [← heq]
      exact ⟨rfl, outputs_filter_isWrittenAt d _, rfl, rfl,
        (hy env fun _ _ _ _ => trivial).events⟩

/-- On the same streams, the level of a run changes nothing but which lines of trace are written,
whether the values of expression statements are shown or not, if and only if the run at the
higher level is not stopped by a line of trace above the lower one. -/
theorem execution_at_lower_level (output trace : Stream) (h : d ≤ e) (statements : List Node)
    (env : Environment) :
    (WritesLess d (execute ⟨d, output, trace⟩ statements env)
        (execute ⟨e, output, trace⟩ statements env) ↔
      ¬StopsAbove d (execute ⟨e, output, trace⟩ statements env)) ∧
    (WritesLess d (executeAll ⟨d, output, trace⟩ statements env)
        (executeAll ⟨e, output, trace⟩ statements env) ↔
      ¬StopsAbove d (executeAll ⟨e, output, trace⟩ statements env)) := by
  constructor
  · exact writesLess_iff (follows_execute (narrows_of_le h) statements)
      (upholds_execute_true _ statements) (upholds_execute_true _ statements) env
  · exact writesLess_iff (follows_executeAll (narrows_of_le h) statements)
      (upholds_executeAll_true _ statements) (upholds_executeAll_true _ statements) env

/-- A block that shows a negation, and then asks for a name that nothing binds. -/
def negating : List Node :=
  [.block [
    .declare ⟨.identifier, .text "x", .null, .whole 1⟩
      (.unary ⟨.bang, .text "!", .null, .whole 1⟩ (.literal (.boolean true))),
    .print (.variable ⟨.identifier, .text "x", .null, .whole 2⟩),
    .print (.variable ⟨.identifier, .text "y", .null, .whole 3⟩)]]

theorem execution_at_lower_level_negating :
    (execute (.ofLevel 3) negating .empty).events =
        [.trace 1 "execute Block", .trace 2 "enter block (depth 1)", .trace 3 "!true -> false",
          .trace 2 "define x: boolean = false (depth 1)", .output "false",
          .trace 2 "leave block (depth 0)"] ∧
      (execute (.ofLevel 1) negating .empty).events = [.trace 1 "execute Block", .output "false"] ∧
      (execute (.ofLevel 1) negating .empty).result =
        .error (.undefinedVariable "y" (.whole 3)) := by
  have hevents : (execute (.ofLevel 3) negating .empty).events =
      [.trace 1 "execute Block", .trace 2 "enter block (depth 1)", .trace 3 "!true -> false",
        .trace 2 "define x: boolean = false (depth 1)", .output "false",
        .trace 2 "leave block (depth 0)"] := by
    decide +kernel
  have hresult : (execute (.ofLevel 3) negating .empty).result =
      .error (.undefinedVariable "y" (.whole 3)) := rfl
  have hless : WritesLess 1 (execute (.ofLevel 1) negating .empty)
      (execute (.ofLevel 3) negating .empty) := by
    refine (execution_at_lower_level (d := 1) (e := 3) .memory .memory (by decide) negating
      .empty).1.mpr ?_
    rintro ⟨_, _, -, hstopped⟩
    cases hresult.symm.trans hstopped
  refine ⟨hevents, ?_, ?_⟩
  · rw [hless.events, hevents]
    rfl
  · rw [hless.result, hresult]

/-- A trace that is written as UTF-8 can stop a program that ends without a fault otherwise. -/
theorem tracing_stops_declaration :
    (execute (.utf8 0) [Text.loneHalf.declaration] .empty).result = .ok () ∧
      ¬WritesLess 0 (execute (.utf8 0) [Text.loneHalf.declaration] .empty)
        (execute (.utf8 2) [Text.loneHalf.declaration] .empty) := by
  refine ⟨rfl, fun hless => ?_⟩
  have hresult : (execute (.utf8 2) [Text.loneHalf.declaration] .empty).result = .ok () :=
    hless.result.symm
  cases hresult

end Evaluation

end MiniLox
