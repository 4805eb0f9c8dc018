import MiniLox.Text.Quoted

/-!
# Lines and streams

A run writes lines of output and lines of trace, each to a stream of its own.  A
stream in memory takes every line.  One that writes UTF-8 takes plain lines only,
because a lone half of a character has no octets; it refuses any other line as a
whole.
-/

namespace MiniLox

/-- A line that a run writes. -/
inductive Event where
  | output (line : Text)
  | trace (level : Nat) (line : Text)
deriving DecidableEq

/-- The text of a line. -/
def Event.line : Event → Text
  | .output line => line
  | .trace _ line => line

/-- The lines that the program writes, without the trace. -/
def outputs (events : List Event) : List Text :=
  events.filterMap fun
    | .output line => some line
    | .trace .. => none

/-- What lines are written to. -/
inductive Stream where
  | memory
  | utf8
deriving DecidableEq

/-- Whether a stream takes a line. -/
def Stream.takes : Stream → Text → Bool
  | .memory, _ => true
  | .utf8, line => line.isPlain

/-- What a run traces, and the streams that it writes to. -/
structure Mode where
  /-- The highest level of the lines of trace that are written. -/
  level : Nat
  output : Stream
  trace : Stream

namespace Mode

/-- A run at a level that keeps its lines in memory. -/
def ofLevel (level : Nat) : Mode := ⟨level, .memory, .memory⟩

instance : Coe Nat Mode := ⟨ofLevel⟩

/-- A run at a level that writes output and trace as UTF-8. -/
def utf8 (level : Nat) : Mode := ⟨level, .utf8, .utf8⟩

/-- Whether the stream of a line takes it. -/
def takes (mode : Mode) : Event → Bool
  | .output line => mode.output.takes line
  | .trace _ line => mode.trace.takes line

end Mode

/-- Why a text has no octets: the first lone halves in it, and their places. -/
def Text.refusal (t : Text) : String :=
  let first := (t.points.takeWhile CodePoint.isChar).length
  let halves := (t.points.dropWhile CodePoint.isChar).takeWhile fun p => !p.isChar
  let place := match halves with
    | [p] => s!"character '{String.ofList (codeEscape p.code)}' in position {first}"
    | _ => s!"characters in position {first}-{first + halves.length - 1}"
  s!"'utf-8' codec can't encode {place}: surrogates not allowed"

end MiniLox
