import MiniLox.Evaluation
import MiniLox.Proofs.Text.Plain

/-!
# Laws of actions

Actions form a lawful monad, and other errors for the same action are compatible with it.
The output of a run is what it writes without the trace.

Streams in memory refuse nothing, and no stream refuses a plain line: such a line is written,
and that is all.
-/

namespace MiniLox

@[simp] theorem outputs_nil : outputs [] = [] := rfl

@[simp] theorem outputs_cons_output (line : Text) (events : List Event) :
    outputs (.output line :: events) = line :: outputs events := rfl

@[simp] theorem outputs_append (a b : List Event) : outputs (a ++ b) = outputs a ++ outputs b :=
  List.filterMap_append

@[simp] theorem outputs_cons_trace (level : Nat) (line : Text) (events : List Event) :
    outputs (.trace level line :: events) = outputs events := rfl

theorem error_of_bind {ε α β : Type} {x : Except ε α} {f : α → Except ε β} {e : ε}
    (h : x >>= f = .error e) : x = .error e ∨ ∃ a, x = .ok a ∧ f a = .error e := by
  cases x with
  | ok a => exact Or.inr ⟨a, rfl, h⟩
  | error e' =>
      cases h
      exact Or.inl rfl

theorem ok_of_bind {ε α β : Type} {x : Except ε α} {f : α → Except ε β} {b : β}
    (h : x >>= f = .ok b) : ∃ a, x = .ok a ∧ f a = .ok b := by
  cases x with
  | ok a => exact ⟨a, rfl, h⟩
  | error e => cases h

theorem bind_of_ok {ε α β : Type} {x : Except ε α} {f : α → Except ε β} {a : α}
    (h : x = .ok a) : x >>= f = f a := by
  rw [h]
  rfl

theorem bind_of_error {ε α β : Type} {x : Except ε α} {f : α → Except ε β} {e : ε}
    (h : x = .error e) : x >>= f = .error e := by
  rw [h]
  rfl

theorem eq_ok_of_isOk {ε : Type} {x : Except ε Unit} (h : x.isOk) : x = .ok () := by
  cases x with
  | ok a => rfl
  | error e => cases h

theorem error_of_mapError {ε δ α : Type} {x : Except ε α} {f : ε → δ} {e : δ}
    (h : x.mapError f = .error e) : ∃ e', x = .error e' ∧ f e' = e := by
  cases x with
  | ok a => cases h
  | error e' =>
      cases h
      exact ⟨e', rfl, rfl⟩

/-- No stream refuses a plain line. -/
theorem Stream.takes_of_isPlain (stream : Stream) {line : Text} (h : line.isPlain) :
    stream.takes line = true := by
  cases stream with
  | memory => rfl
  | utf8 => exact h

theorem Mode.trace_ofLevel (level : Nat) : (ofLevel level).trace = .memory := rfl

theorem Mode.takes_of_isPlain (mode : Mode) {event : Event} (h : event.line.isPlain) :
    mode.takes event = true := by
  cases event with
  | output line => exact mode.output.takes_of_isPlain h
  | trace _ line => exact mode.trace.takes_of_isPlain h

namespace Action

variable {ε α β : Type} {env : Environment}

theorem bind_ok {x : Action ε α} {f : α → Action ε β} {a : α} (h : (x env).result = .ok a) :
    (x >>= f) env =
      ⟨(x env).events ++ (f a (x env).environment).events,
        (f a (x env).environment).environment, (f a (x env).environment).result⟩ := by
  change andThen x f env = _
  simp only [andThen, h]

theorem bind_error {x : Action ε α} {f : α → Action ε β} {e : ε}
    (h : (x env).result = .error e) :
    (x >>= f) env = ⟨(x env).events, (x env).environment, .error e⟩ := by
  change andThen x f env = _
  simp only [andThen, h]

theorem exists_of_bind_eq_ok {x : Action ε α} {f : α → Action ε β} {b : β}
    (h : ((x >>= f) env).result = .ok b) :
    ∃ a, (x env).result = .ok a ∧ (f a (x env).environment).result = .ok b := by
  cases hx : (x env).result with
  | ok a =>
      rw [bind_ok hx] at h
      exact ⟨a, rfl, h⟩
  | error e =>
      rw [bind_error hx] at h
      cases h

theorem bind_eq_error_iff {x : Action ε α} {f : α → Action ε β} {e : ε} :
    ((x >>= f) env).result = .error e ↔
      (x env).result = .error e ∨
        ∃ a, (x env).result = .ok a ∧ (f a (x env).environment).result = .error e := by
  cases hx : (x env).result with
  | ok a =>
      rw [bind_ok hx]
      constructor
      · exact fun h => Or.inr ⟨a, rfl, h⟩
      · rintro (h | ⟨_, h, hf⟩) <;> cases h
        exact hf
  | error e' =>
      rw [bind_error hx]
      constructor
      · intro h
        cases h
        exact Or.inl rfl
      · rintro (h | ⟨_, h, _⟩) <;> cases h
        rfl

@[simp] theorem pure_apply (a : α) : (pure a : Action ε α) env = ⟨[], env, .ok a⟩ := rfl

instance : LawfulMonad (Action ε) := by
  refine LawfulMonad.mk' _ ?_ ?_ ?_
  · intro α x
    funext env
    cases h : (x env).result with
    | ok a =>
        refine (bind_ok h).trans ?_
        change (⟨(x env).events ++ [], (x env).environment, .ok a⟩ : Outcome ε α) = x env
        rw [List.append_nil, ← h]
    | error e =>
        refine (bind_error h).trans ?_
        rw [← h]
  · intro α β a f
    rfl
  · intro α β γ x f g
    funext env
    cases h : (x env).result with
    | error e =>
        rw [bind_error h, bind_error (by rw [bind_error h])]
        rw [bind_error h]
    | ok a =>
        rw [bind_ok h]
        cases h' : (f a (x env).environment).result with
        | error e =>
            rw [bind_error (by rw [bind_ok h]; exact h'), bind_ok h, bind_error h']
        | ok b =>
            rw [bind_ok (by rw [bind_ok h]; exact h'), bind_ok h, bind_ok h']
            simp only [List.append_assoc]

theorem bind_pure_apply (x : Action ε α) (b : β) :
    (x >>= fun _ => pure b) env =
      ⟨(x env).events, (x env).environment, (x env).result.map fun _ => b⟩ := by
  cases h : (x env).result with
  | ok a =>
      rw [bind_ok h, pure_apply, List.append_nil]
      rfl
  | error e =>
      rw [bind_error h]
      rfl

/-! ## Lines -/

theorem put_of_takes {mode : Mode} {event : Event} (h : mode.takes event) :
    put mode event = write [event] := if_pos h

theorem put_of_not_takes {mode : Mode} {event : Event} (h : ¬mode.takes event) :
    put mode event = fail (.unwritable event) := if_neg h

theorem put_plain (mode : Mode) {event : Event} (h : event.line.isPlain) :
    put mode event = write [event] :=
  put_of_takes (mode.takes_of_isPlain h)

/-- To write a line fails only where it is refused. -/
theorem put_eq_error {mode : Mode} {event : Event} {fault : Fault}
    (h : (put mode event env).result = .error fault) : fault = .unwritable event := by
  by_cases htakes : mode.takes event
  · rw [put_of_takes htakes] at h
    cases h
  · rw [put_of_not_takes htakes] at h
    exact (Except.error.inj h).symm

theorem trace_eq_error {mode : Mode} {level : Nat} {line : Text} {fault : Fault}
    (h : (trace mode level line env).result = .error fault) :
    fault = .unwritable (.trace level line) := by
  rw [trace] at h
  split at h
  · exact put_eq_error h
  · cases h

/-- A plain line of trace is written if the level admits it. -/
theorem trace_plain (mode : Mode) (level : Nat) (line : String) :
    trace mode level line = write (if level ≤ mode.level then [.trace level line] else []) := by
  have hplain : (Event.trace level line).line.isPlain := Text.isPlain_ofString line
  rw [trace, put_plain mode hplain]
  split <;> rfl

@[simp] theorem output_ofLevel (level : Nat) (line : Text) :
    output level line = write [.output line] := rfl

theorem trace_ofLevel (runLevel level : Nat) (line : Text) :
    trace runLevel level line = write (if level ≤ runLevel then [.trace level line] else []) := by
  change (if level ≤ runLevel then write [.trace level line] else done ()) = _
  split <;> rfl

theorem outputs_trace (mode : Mode) (level : Nat) (line : Text) :
    outputs (trace mode level line env).events = [] := by
  rw [trace]
  split
  · rw [put]
    split <;> rfl
  · rfl

/-! ## Other errors -/

variable {δ ζ : Type} (f : ε → δ)

@[simp] theorem mapError_pure (a : α) :
    (pure a : Action ε α).mapError f = (pure a : Action δ α) := rfl

@[simp] theorem mapError_lift (r : Except ε α) :
    (lift r).mapError f = lift (r.mapError f) := rfl

@[simp] theorem mapError_write (events : List Event) :
    (write events : Action ε Unit).mapError f = write events := rfl

@[simp] theorem mapError_environment :
    (environment : Action ε Environment).mapError f = environment := rfl

@[simp] theorem mapError_modify (g : Environment → Environment) :
    (modify g : Action ε Unit).mapError f = modify g := rfl

theorem result_mapError (x : Action ε α) :
    (x.mapError f env).result = (x env).result.mapError f := rfl

@[simp] theorem mapError_bind (x : Action ε α) (g : α → Action ε β) :
    (x >>= g).mapError f = x.mapError f >>= fun a => (g a).mapError f := by
  funext env
  cases h : (x env).result with
  | ok a =>
      have h' : (x.mapError f env).result = .ok a := by
        rw [result_mapError, h]
        rfl
      rw [bind_ok h', mapError, bind_ok h]
      rfl
  | error e =>
      have h' : (x.mapError f env).result = .error (f e) := by
        rw [result_mapError, h]
        rfl
      rw [bind_error h', mapError, bind_error h]
      rfl

theorem mapError_mapError (g : δ → ζ) (x : Action ε α) :
    (x.mapError f).mapError g = x.mapError fun e => g (f e) := by
  funext env
  simp only [mapError]
  cases (x env).result <;> rfl

end Action

end MiniLox
