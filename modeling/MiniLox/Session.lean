import MiniLox.Error
import MiniLox.Evaluation

/-!
# Sessions

A session runs one source after another in the same environment.  Running a
source has three stages: its characters, its syntax, its statements.  Each of the
first two reports all of its problems before it ends the run; a run that ends so
has changed nothing.
-/

namespace MiniLox

namespace Session

/-- Prints a plain line. -/
def say (line : String) : Action Error Unit := Action.write [.output line]

/-- Writes the wordings of errors of a source, one on a line.  They are plain. -/
def report (errors : List Error) : Action Error Unit :=
  Action.write (errors.map fun e => .output e.message)

/-- The tokens of a source; its problems are reported and end the action. -/
def tokens (source : String) : Action Error (List Token) :=
  let scan := Lexer.scan source
  if scan.errors.isEmpty then return scan.tokens
  else do
    report (scan.errors.map Error.ofLexical)
    Action.fail (.scan scan.line)

/-- The program of a source; its syntax errors are reported, and the last of
them ends the action. -/
def program (source : String) : Action Error Program := do
  let ts ← tokens source
  let (statements, errors) := Program.parse ts
  match errors.getLast? with
  | none => return statements
  | some last => do
    report (errors.map Error.ofSyntax)
    Action.fail (Error.ofSyntax last)

/-- Runs the statements of a program, showing the values of its expression statements. -/
def execute (mode : Mode) (statements : List Node) : Action Error Unit :=
  (Evaluation.execute mode statements).mapError .fault

/-- Runs a source. -/
def run (mode : Mode) (source : String) : Action Error Unit := do
  let statements ← program source
  execute mode (Stmt.nodes statements)

/-- Runs a source for the value of its last statement.  Nothing is shown, and the
first syntax error ends the action without being reported. -/
def evaluate (mode : Mode) (source : String) : Action Error Value := do
  let ts ← tokens source
  let (statements, errors) := Program.parse ts
  match errors with
  | [] => (Evaluation.executeAll mode (Stmt.nodes statements)).mapError .fault
  | first :: _ => Action.fail (Error.ofSyntax first)

/-- Reads a tree from the text of a document. -/
def loadTree (document : String) : Except InputFault Node :=
  match Json.parse document with
  | .error e => .error (.document e)
  | .ok j => (Node.decode j).mapError .tree

/-- Runs a program that a document holds. -/
def runDocument (mode : Mode) (document : String) : Action Error Unit := do
  let tree ← Action.lift ((loadTree document).mapError Error.input)
  (Evaluation.executeTree mode tree).mapError .fault

/-- A line at the prompt: a source, or an interrupt in its place. -/
inductive PromptLine where
  | source (text : String)
  | interrupt

/-- Takes one line at the prompt.  Errors of the running program are reported;
others end the action. -/
def promptStep (mode : Mode) : PromptLine → Action Error Unit
  | .interrupt => say "Ctrl-C"
  | .source text => fun env =>
    let o := run mode text env
    match o.result with
    | .ok () => o
    | .error e =>
      if e.isRuntime then
        let reported := (Action.output mode e.message).mapError Error.fault o.environment
        ⟨o.events ++ reported.events, o.environment, reported.result⟩
      else o

/-- Takes the lines at the prompt until they end or one of them ends the
session; the lines after that one are left. -/
def prompt (mode : Mode) (lines : List PromptLine) (env : Environment) :
    Outcome Error Unit × List PromptLine :=
  match lines with
  | [] => (say "Goodbye" env, [])
  | line :: rest =>
    let first := promptStep mode line env
    match first.result with
    | .error _ => (first, rest)
    | .ok () =>
      let (others, left) := prompt mode rest first.environment
      (⟨first.events ++ others.events, others.environment, others.result⟩, left)

end Session

end MiniLox
