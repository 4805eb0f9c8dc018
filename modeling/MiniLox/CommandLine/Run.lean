import MiniLox.CommandLine.Arguments
import MiniLox.CommandLine.Files
import MiniLox.Json.Printer
import MiniLox.Session

/-!
# Running a command line

A command line runs a script, runs a stored tree, stores the tree of a script, or
takes lines at the prompt.  `perform` does so on a disk, and `invoke` on files in
memory.  With the flag for tracing, the trace goes to a file of its own, which is
emptied before anything else happens.

Output and trace are written as UTF-8.  A line that cannot be written so is an
error of its own.

Errors end in an exit status.  All are shown but syntax errors, which have been
reported already.  Some errors end the program without a status: nodes and
operators that have no meaning where they stand, numbers out of range, and errors
whose own line cannot be written.
-/

namespace MiniLox

namespace CommandLine

/-- The file of the trace. -/
def traceFile : String := "debug.txt"

/-- The ending of the name of a stored tree. -/
def treeEnding : String := ".ast.json"

/-- A file as text. -/
def readText (disk : Disk) (path : String) : Except InputFault String :=
  match disk.read path with
  | .error cause => .error (.file ⟨cause, path⟩)
  | .ok octets =>
    match Text.decode octets with
    | .error fault => .error (.encoding fault)
    | .ok text => .ok (String.ofList (Text.unifyLineEnds text))

/-- A script whose tree is to be stored, as text.  A script that is not there is
reported by its normal path. -/
def readScript (disk : Disk) (path : String) : Except InputFault String :=
  match readText disk path with
  | .error (.file ⟨cause, _⟩) =>
    if cause = .notFound ∨ cause = .notDirectory ∨ cause = .nullCharacter then
      .error (.missingScript path)
    else .error (.file ⟨cause, path⟩)
  | other => other

/-- A text to be written to a file. -/
structure Writing where
  path : String
  text : String

/-- The document of the tree of a program. -/
def treeDocument (program : Program) : Option String := do
  (Json.array (← Node.encodeAll (Stmt.nodes program))).print

/-- Stores the tree of a script. -/
def emit (disk : Disk) (script : String) : Action Error (Option Writing) := do
  let path := normalPath script
  let source ← Action.lift ((readScript disk path).mapError Error.input)
  let program ← Session.program source
  let target := path ++ treeEnding
  match disk.writeFault? target with
  | some cause => Action.fail (.input (.file ⟨cause, target⟩))
  | none => do
    Session.say target
    return (treeDocument program).map (⟨target, ·⟩)

/-- Runs a stored tree. -/
def runTree (disk : Disk) (mode : Mode) (path : String) : Action Error (Option Writing) := do
  let document ← Action.lift ((readText disk path).mapError Error.input)
  Session.runDocument mode document
  return none

/-- Runs a script. -/
def runScript (disk : Disk) (mode : Mode) (path : String) : Action Error (Option Writing) := do
  let source ← Action.lift ((readText disk path).mapError Error.input)
  Session.run mode source
  return none

/-- An argument, unless it is empty. -/
def given (argument : Option String) : Option String := argument.filter (· != "")

/-- What a command line does, once it has been read. -/
inductive Task where
  | emit (path : String)
  | tree (path : String)
  | script (path : String)
  | prompt

/-- The task of a command line. -/
def Task.of (a : Arguments) : Task :=
  match given a.emit, given a.tree, given a.script with
  | some path, _, _ => .emit path
  | none, some path, _ => .tree path
  | none, none, some path => .script path
  | none, none, none => .prompt

/-- The file that a task reads, if it reads one. -/
def Task.input? : Task → Option String
  | .emit path => some (normalPath path)
  | .tree path => some path
  | .script path => some path
  | .prompt => none

/-- Does a task; the result comes with the prompt lines that are left. -/
def perform (disk : Disk) (mode : Mode) (lines : List Session.PromptLine) :
    Task → Outcome Error (Option Writing) × List Session.PromptLine
  | .emit path => (emit disk path Environment.empty, lines)
  | .tree path => (runTree disk mode path Environment.empty, lines)
  | .script path => (runScript disk mode path Environment.empty, lines)
  | .prompt =>
    let (o, left) := Session.prompt mode lines Environment.empty
    (⟨o.events, o.environment, o.result.map fun _ => none⟩, left)

/-- Shows a line for an error, with its exit status, if the stream takes the line. -/
def showLast (stream : Stream) (e : Error) (line : Text) : Except Error (Option Text × Nat) :=
  if stream.takes line then .ok (some line, e.exitStatus)
  else .error (.fault (.unwritable (.output line)))

/-- The line that an error shows and the exit status that it ends in, unless it
ends the program without one. -/
def conclude (stream : Stream) (e : Error) : Except Error (Option Text × Nat) :=
  match e with
  | .grammar .. => .ok (none, e.exitStatus)
  | .input (.tree .outOfRange) => .error e
  | .input _ => showLast stream e ("Error: " ++ e.message)
  | .fault (.unwritable _) => showLast stream e ("Error: " ++ e.message)
  | .fault cause => if cause.isProgramFault then showLast stream e e.message else .error e
  | _ => showLast stream e e.message

/-- What a run of the program leaves behind. -/
structure Response where
  output : List Text
  /-- The exit status, or the error that ended the program without one. -/
  ending : Except Error Nat
  trace : List Text
  writing : Option Writing

/-- The lines of trace among events. -/
def traceLines (events : List Event) : List Text :=
  events.filterMap fun
    | .output _ => none
    | .trace _ line => some line

/-- The response to a run that ended with a result, on a stream of output. -/
def Response.of {α : Type} (stream : Stream) (events : List Event) (writing : Option Writing)
    (result : Except Error α) : Response :=
  let lines := outputs events
  let trace := traceLines events
  match result with
  | .ok _ => ⟨lines, .ok 0, trace, writing⟩
  | .error e =>
    match conclude stream e with
    | .ok (line, status) => ⟨lines ++ line.toList, .ok status, trace, none⟩
    | .error e => ⟨lines, .error e, trace, none⟩

/-- The response to an outcome. -/
def Response.ofOutcome (stream : Stream) (o : Outcome Error (Option Writing)) : Response :=
  .of stream o.events (o.result.toOption.bind id) o.result

/-- The response to a run that ended before it began. -/
def Response.ofError (stream : Stream) (e : Error) : Response :=
  .of (α := Unit) stream [] none (.error e)

/-- Lines as text. -/
def textOfLines : List Text → Text
  | [] => ""
  | line :: rest => line ++ "\n" ++ textOfLines rest

/-- The octets of a plain text. -/
def octetsOf (text : Text) : List UInt8 := text.chars.flatMap String.utf8EncodeChar

/-- The files after what a run has written. -/
def Response.store (r : Response) (level : Nat) (files : Files) : Files :=
  let files := match r.writing with
    | some w => files.write w.path (octetsOf w.text)
    | none => files
  if 0 < level then files.write traceFile (octetsOf (textOfLines r.trace)) else files

/-- Why the trace of a run cannot be written. -/
def traceFault? (disk : Disk) (level : Nat) : Option Error :=
  if 0 < level then
    (disk.writeFault? traceFile).map fun cause => .input (.file ⟨cause, traceFile⟩)
  else none

/-- Runs a command line on files, with a stream of output and lines to be taken at the
prompt.  The response comes with the files afterwards and the lines that are left. -/
def invokeOn (stream : Stream) (words : List String) (files : Files)
    (lines : List Session.PromptLine) : Response × Files × List Session.PromptLine :=
  match Arguments.parse words with
  | none => (.ofError stream (.usage Error.usageMessage), files, lines)
  | some a =>
    match traceFault? files.disk a.verbosity with
    | some e => (.ofError stream e, files, lines)
    | none =>
      let files := if 0 < a.verbosity then files.write traceFile [] else files
      let (outcome, left) := perform files.disk ⟨a.verbosity, stream, .utf8⟩ lines (Task.of a)
      let response := Response.ofOutcome stream outcome
      (response, response.store a.verbosity files, left)

/-- Runs a command line that writes its output as UTF-8. -/
def invoke (words : List String) (files : Files) (lines : List Session.PromptLine) :
    Response × Files × List Session.PromptLine :=
  invokeOn .utf8 words files lines

end CommandLine

end MiniLox
