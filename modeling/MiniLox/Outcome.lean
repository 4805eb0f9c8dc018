import MiniLox.Environment
import MiniLox.Stream

/-!
# Actions

An action works on an environment.  It writes lines, leaves the environment in a
new state, and ends with a value or an error; lines that were written and
changes that were made before an error remain.

A line is either output of the program or trace.  A line of trace has a level,
and is written only when the level of the run is at least as high.  An action
fails where the stream of a line refuses it.
-/

namespace MiniLox

/-- What an action did. -/
structure Outcome (ε α : Type) where
  events : List Event
  environment : Environment
  result : Except ε α

/-- Something to do in an environment. -/
def Action (ε α : Type) := Environment → Outcome ε α

namespace Action

variable {ε δ α β : Type}

/-- The action that does nothing but give a value. -/
def done (a : α) : Action ε α := fun env => ⟨[], env, .ok a⟩

/-- An action, and after it, unless it failed, another that depends on its value. -/
def andThen (x : Action ε α) (f : α → Action ε β) : Action ε β := fun env =>
  let first := x env
  match first.result with
  | .ok a =>
    let second := f a first.environment
    ⟨first.events ++ second.events, second.environment, second.result⟩
  | .error e => ⟨first.events, first.environment, .error e⟩

instance : Monad (Action ε) where
  pure := done
  bind := andThen

/-- The action that fails. -/
def fail (e : ε) : Action ε α := fun env => ⟨[], env, .error e⟩

/-- The action that gives a value or fails. -/
def lift (r : Except ε α) : Action ε α := fun env => ⟨[], env, r⟩

/-- Writes lines that every stream takes. -/
def write (events : List Event) : Action ε Unit := fun env => ⟨events, env, .ok ()⟩

/-- Writes a line, if its stream takes it. -/
def put (mode : Mode) (event : Event) : Action Fault Unit :=
  if mode.takes event then write [event] else fail (.unwritable event)

/-- Writes a line of output. -/
def output (mode : Mode) (line : Text) : Action Fault Unit := put mode (.output line)

/-- Writes a line of trace, if the level of the run admits it. -/
def trace (mode : Mode) (level : Nat) (line : Text) : Action Fault Unit :=
  if level ≤ mode.level then put mode (.trace level line) else done ()

/-- The environment. -/
def environment : Action ε Environment := fun env => ⟨[], env, .ok env⟩

/-- Changes the environment. -/
def modify (f : Environment → Environment) : Action ε Unit := fun env => ⟨[], f env, .ok ()⟩

/-- The same action with other errors. -/
def mapError (f : ε → δ) (x : Action ε α) : Action δ α := fun env =>
  let o := x env
  ⟨o.events, o.environment, o.result.mapError f⟩

end Action

end MiniLox
