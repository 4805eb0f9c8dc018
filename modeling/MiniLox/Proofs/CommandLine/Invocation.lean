import MiniLox.CommandLine.Run
import MiniLox.Proofs.Action

/-!
# What a command line asks for

A word that is no option is a script, or the value of the option before it.  The flag for
tracing, once or more, and a script or an option with its value make up a command line, which
asks for one task.  The response to it is that to the outcome of the task, on the files as
they are once the file of the trace is emptied.
-/

namespace MiniLox

namespace Arguments

variable {word : String}

theorem read_flag (a : Arguments) (afterScript : Bool) (rest : List String) :
    read a afterScript ("-v" :: rest) =
      read { a with verbosity := a.verbosity + 1 } false rest := by
  rcases rest with _ | ⟨_, _ | ⟨_, _⟩⟩ <;> rfl

theorem read_flags (count : Nat) (a : Arguments) (rest : List String) :
    read a false (List.replicate count "-v" ++ rest) =
      read { a with verbosity := a.verbosity + count } false rest := by
  induction count generalizing a with
  | zero => rfl
  | succ count ih =>
      rw [List.replicate_succ, List.cons_append, read_flag, ih, Nat.add_assoc,
        Nat.add_comm 1 count]

theorem parse_script (h : Word.ofText word = .plain word) (count : Nat) :
    parse (List.replicate count "-v" ++ [word]) = some ⟨count, none, none, some word⟩ := by
  rw [parse, read_flags, Nat.zero_add, read, h]
  rfl

theorem parse_emit (h : Word.ofText word = .plain word) (count : Nat) :
    parse (List.replicate count "-v" ++ ["--emit-ast", word]) =
      some ⟨count, some word, none, none⟩ := by
  have hoption : Word.ofText "--emit-ast" = .option .emit none := by cbv
  rw [parse, read_flags, Nat.zero_add, read, hoption]
  dsimp only
  rw [h]
  rfl

theorem parse_tree (h : Word.ofText word = .plain word) (count : Nat) :
    parse (List.replicate count "-v" ++ ["--ast", word]) =
      some ⟨count, none, some word, none⟩ := by
  have hoption : Word.ofText "--ast" = .option .tree none := by cbv
  rw [parse, read_flags, Nat.zero_add, read, hoption]
  dsimp only
  rw [h]
  rfl

end Arguments

namespace CommandLine

variable {level : Nat} {files : Files} {lines : List Session.PromptLine} {path : String}

/-- The files as a task finds them, with nothing in the file of the trace. -/
def prepared (level : Nat) (files : Files) : Files :=
  if 0 < level then files.write traceFile [] else files

/-- The outcome of a task, without the lines of the prompt. -/
def outcomeOf (level : Nat) (files : Files) (lines : List Session.PromptLine) (task : Task) :
    Outcome Error (Option Writing) :=
  (perform (prepared level files).disk (.utf8 level) lines task).1

/-- The response to an action that asks for no file. -/
theorem ofOutcome_bind_none (stream : Stream) (x : Action Error Unit) (env : Environment) :
    Response.ofOutcome stream ((x >>= fun _ => pure none : Action Error (Option Writing)) env) =
      .of stream (x env).events none (x env).result := by
  rw [Action.bind_pure_apply, Response.ofOutcome]
  cases (x env).result <;> rfl

/-- A plain line is shown for an error on every stream. -/
theorem showLast_of_isPlain (stream : Stream) (e : Error) {line : Text} (h : line.isPlain) :
    showLast stream e line = .ok (some line, e.exitStatus) :=
  if_pos (stream.takes_of_isPlain h)

theorem conclude_fault (stream : Stream) {fault : Fault} (h : fault.isProgramFault)
    (hplain : fault.message.isPlain) :
    conclude stream (.fault fault) = .ok (some fault.message, 65) := by
  cases fault with
  | typeMismatch => exact showLast_of_isPlain stream _ hplain
  | undefinedVariable => exact showLast_of_isPlain stream _ hplain
  | _ => cases h

theorem invoke_of_parse {words : List String} {a : Arguments}
    (hparse : Arguments.parse words = some a)
    (htrace : traceFault? files.disk a.verbosity = none) :
    (invoke words files lines).1 =
        Response.ofOutcome .utf8 (outcomeOf a.verbosity files lines (Task.of a)) ∧
      (invoke words files lines).2.1 =
        (Response.ofOutcome .utf8 (outcomeOf a.verbosity files lines (Task.of a))).store a.verbosity
          (prepared a.verbosity files) := by
  rw [invoke, invokeOn, hparse]
  dsimp only
  rw [htrace]
  exact ⟨rfl, rfl⟩

theorem given_some (h : path ≠ "") : given (some path) = some path := by
  rw [given, Option.filter_some, if_pos (bne_iff_ne.mpr h)]

theorem invoke_script (hword : Arguments.Word.ofText path = .plain path) (hpath : path ≠ "")
    (htrace : traceFault? files.disk level = none) :
    (invoke (List.replicate level "-v" ++ [path]) files lines).1 =
      Response.ofOutcome .utf8
        (runScript (prepared level files).disk (.utf8 level) path .empty) := by
  have htask : Task.of ⟨level, none, none, some path⟩ = .script path := by
    rw [Task.of, given_some hpath]
    rfl
  rw [(invoke_of_parse (Arguments.parse_script hword level) htrace).1, htask]
  rfl

theorem invoke_emit (hword : Arguments.Word.ofText path = .plain path) (hpath : path ≠ "")
    (htrace : traceFault? files.disk level = none) :
    (invoke (List.replicate level "-v" ++ ["--emit-ast", path]) files lines).1 =
        Response.ofOutcome .utf8 (emit (prepared level files).disk path .empty) ∧
      (invoke (List.replicate level "-v" ++ ["--emit-ast", path]) files lines).2.1 =
        (Response.ofOutcome .utf8 (emit (prepared level files).disk path .empty)).store level
          (prepared level files) := by
  have htask : Task.of ⟨level, some path, none, none⟩ = .emit path := by
    rw [Task.of, given_some hpath]
  have houtcome : emit (prepared level files).disk path .empty =
      outcomeOf level files lines (.emit path) := rfl
  rw [houtcome, ← htask]
  exact invoke_of_parse (Arguments.parse_emit hword level) htrace

theorem invoke_tree (hword : Arguments.Word.ofText path = .plain path) (hpath : path ≠ "")
    (htrace : traceFault? files.disk level = none) :
    (invoke (List.replicate level "-v" ++ ["--ast", path]) files lines).1 =
      Response.ofOutcome .utf8 (runTree (prepared level files).disk (.utf8 level) path .empty) := by
  have htask : Task.of ⟨level, none, some path, none⟩ = .tree path := by
    rw [Task.of, given_some hpath]
    rfl
  rw [(invoke_of_parse (Arguments.parse_tree hword level) htrace).1, htask]
  rfl

end CommandLine

end MiniLox
