import MiniLox.Fault
import MiniLox.Json.Parser
import MiniLox.Node.Decoding
import MiniLox.Program.Parser
import MiniLox.Text.Utf8
import MiniLox.Token.Lexer

/-!
# Errors

Everything that can end a run, with its wording, its line and the exit status
that a program which ends this way returns: 64 for a wrong invocation, 65 for a
fault of the running program, and 70 for everything else.
-/

namespace MiniLox

/-- A problem with a file. -/
inductive FileCause where
  | notFound
  | notDirectory
  | isDirectory
  | nameTooLong
  /-- A name that holds the null character. -/
  | nullCharacter
deriving DecidableEq

/-- A file that cannot be read or written. -/
structure FileFault where
  cause : FileCause
  path : String

/-- The number and the wording of a problem with a file. -/
def FileCause.message : FileCause → String
  | .notFound => "[Errno 2] No such file or directory"
  | .notDirectory => "[Errno 20] Not a directory"
  | .isDirectory => "[Errno 21] Is a directory"
  | .nameTooLong => "[Errno 36] File name too long"
  | .nullCharacter => "embedded null byte"

/-- The wording of a problem with a file. -/
def FileFault.message (f : FileFault) : String :=
  if f.cause = .nullCharacter then f.cause.message
  else f.cause.message ++ ": " ++ Text.quoted f.path

/-- Why a file could not be used. -/
inductive InputFault where
  | file (fault : FileFault)
  /-- A script that is not there. -/
  | missingScript (path : String)
  | encoding (fault : Text.Utf8Fault)
  | document (error : Json.ParseError)
  | tree (fault : LoadFault)

/-- The wording of a problem with a file. -/
def InputFault.message : InputFault → Text
  | .file fault => fault.message
  | .missingScript path => s!"file {path} not found"
  | .encoding fault => fault.message
  | .document error => error.message
  | .tree fault => fault.message

/-- What can end a run. -/
inductive Error where
  /-- A plain error of the language. -/
  | general (message : String)
  /-- A wrong invocation. -/
  | usage (message : String)
  /-- One problem in the characters of a source. -/
  | lexical (line : Nat) (message : String)
  /-- A source with problems in its characters, and its last line. -/
  | scan (line : Nat)
  /-- One syntax error. -/
  | grammar (line : Nat) (message : String)
  /-- An error of the running program with a wording of its own. -/
  | runtime (message : String) (line : Json)
  | fault (cause : Fault)
  | input (cause : InputFault)

namespace Error

/-- The wording of a wrong invocation. -/
def usageMessage : String := "Usage: treelox [script]"

/-- A problem in the characters of a source as an error. -/
def ofLexical (e : LexicalError) : Error := .lexical e.line e.cause.message

/-- A syntax error as an error. -/
def ofSyntax (e : SyntaxError) : Error := .grammar e.line e.cause.message

/-- The wording of an error. -/
def message : Error → Text
  | general message => message
  | usage message => message
  | lexical line message => s!"[line {line}] Error: {message}"
  | scan line => s!"Error parsing code on line {line}"
  | grammar line message => s!"Syntax error on line {line}: {message}"
  | runtime message _ => message
  | .fault cause => cause.message
  | input cause => cause.message

/-- The line of an error, null where it has none. -/
def line : Error → Json
  | lexical line _ => .whole line
  | scan line => .whole line
  | grammar line _ => .whole line
  | runtime _ line => line
  | .fault cause => cause.line
  | _ => .null

/-- The exit status of a wrong invocation. -/
def exitUsage : Nat := 64

/-- The exit status of a fault of the running program. -/
def exitRuntime : Nat := 65

/-- The exit status of everything else that went wrong. -/
def exitSoftware : Nat := 70

/-- Whether an error is one of the running program, after which a prompt goes on. -/
def isRuntime : Error → Bool
  | runtime .. => true
  | .fault cause => cause.isProgramFault
  | _ => false

/-- The exit status of a program that ends with an error. -/
def exitStatus (e : Error) : Nat :=
  match e with
  | usage _ => exitUsage
  | _ => if e.isRuntime then exitRuntime else exitSoftware

end Error

end MiniLox
