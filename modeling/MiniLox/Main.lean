import MiniLox.CommandLine.Run

/-!
# The program

Reads the command line, the files and the lines that a run needs, and writes
what the run leaves behind.
-/

namespace MiniLox

namespace CommandLine

/-- What the user sees in front of a line at the prompt. -/
def promptText : String := ">> "

/-- The problem that the operating system reports of a file. -/
def causeOf : IO.Error → FileCause
  | .inappropriateType .. => .isDirectory
  | _ => .notFound

/-- The octets of a file. -/
def fetch (path : String) : IO (Except FileCause (List UInt8)) := do
  try return .ok (← IO.FS.readBinFile path).toList
  catch e => return .error (causeOf e)

/-- The characters of a text, which are all of it where the text was taken by a stream. -/
def written (text : Text) : String := String.ofList text.chars

/-- Writes a file. -/
def save (path text : String) : IO (Option FileCause) := do
  try
    IO.FS.writeFile path text
    return none
  catch e => return some (causeOf e)

/-- Prints lines. -/
def printLines (lines : List Text) : IO Unit := IO.print (written (textOfLines lines))

/-- Takes lines at the prompt until they end, printing what each of them writes. -/
partial def converse (level : Nat) (env : Environment) (before : List Event) :
    IO (Outcome Error (Option Writing)) := do
  IO.print promptText
  let output ← IO.getStdout
  output.flush
  let line ← (← IO.getStdin).getLine
  let finished := line.isEmpty
  let text := String.ofList (line.toList.takeWhile (· != '\n'))
  let o := if finished then Session.say "Goodbye" env
    else Session.promptStep (.utf8 level) (.source text) env
  printLines (outputs o.events)
  let events := before ++ o.events.filter fun e => !e matches .output _
  match o.result with
  | .error e => return ⟨events, o.environment, .error e⟩
  | .ok () =>
    if finished then return ⟨events, o.environment, .ok none⟩
    else converse level o.environment events

/-- Does a task on the files of the operating system. -/
def performTask (level : Nat) (task : Task) : IO (Outcome Error (Option Writing)) := do
  match task with
  | .prompt => converse level Environment.empty []
  | task =>
    let octets ← match task.input? with
      | some path => fetch path
      | none => pure (.error .notFound)
    return (perform ⟨fun _ => octets, fun _ => none⟩ (.utf8 level) [] task).1

/-- Prints and writes what a run leaves behind, and gives its exit status. -/
def finish (level : Nat) (r : Response) : IO UInt32 := do
  printLines r.output
  if 0 < level then discard <| save traceFile (written (textOfLines r.trace))
  match r.writing with
  | some w => discard <| save w.path w.text
  | none => pure ()
  match r.ending with
  | .ok status => return status.toUInt32
  | .error e =>
    (← IO.getStderr).putStrLn (written e.message)
    return 1

/-- Runs a command line. -/
def runWords (words : List String) : IO UInt32 := do
  match Arguments.parse words with
  | none => finish 0 (.ofError .utf8 (.usage Error.usageMessage))
  | some a =>
    let cause ← if 0 < a.verbosity then save traceFile "" else pure none
    match traceFault? ⟨fun _ => .error .notFound, fun _ => cause⟩ a.verbosity with
    | some e => finish 0 (.ofError .utf8 e)
    | none => finish a.verbosity (.ofOutcome .utf8 (← performTask a.verbosity (Task.of a)))

end CommandLine

end MiniLox

/-- Runs the interpreter on the words of the command line. -/
def main (words : List String) : IO UInt32 := MiniLox.CommandLine.runWords words
