import MiniLox.Text.Digit

/-!
# Arguments

The command line takes one script at most, a flag `-v` that may be repeated and
clustered, and the options `--emit-ast` and `--ast`, which take a value and
exclude each other.  A long option may be shortened as far as it stays unique and
may carry its value after an equals sign; such a value is empty if it is `--`.
The repetitions of the flag in one word may follow an equals sign as well.  After
the word `--` everything is positional.

The words for help, `-h` and `--help`, are options too, but nothing answers them.
Any other word that starts with a hyphen is a mistaken option, unless it is the
hyphen alone, a negative number, or holds a space; such words, and those that
start otherwise, can be values and scripts.  Any misuse makes the whole command
line invalid.
-/

namespace MiniLox

/-- What a command line asks for. -/
structure Arguments where
  /-- How often the flag for tracing was given. -/
  verbosity : Nat
  emit : Option String
  tree : Option String
  script : Option String
deriving DecidableEq

namespace Arguments

/-- The options that take a value. -/
inductive Choice where
  | emit
  | tree
deriving DecidableEq

/-- The long options; the one for help takes no value. -/
def longOptions : List (String × Option Choice) :=
  [("--help", none), ("--emit-ast", some .emit), ("--ast", some .tree)]

/-- How one word of a command line reads. -/
inductive Word where
  /-- A script or a value. -/
  | plain (text : String)
  /-- A flag, repeated. -/
  | flag (count : Nat)
  /-- An option that takes a value, with the value if the word carries it. -/
  | option (choice : Choice) (value : Option String)
  /-- The word after which all words are positional. -/
  | separator
  /-- A word that reads as no option. -/
  | invalid
deriving DecidableEq

/-- Whether a text is a hyphen and a number of digits, with or without a fraction. -/
def isNegativeNumber (text : List Char) : Bool :=
  let isDigit c := (Text.decimalDigit? c).isSome
  match text with
  | '-' :: rest =>
    let rest := if rest.getLast? = some '\n' then rest.dropLast else rest
    let whole := rest.takeWhile isDigit
    match rest.dropWhile isDigit with
    | [] => !whole.isEmpty
    | '.' :: fraction => !fraction.isEmpty && fraction.all isDigit
    | _ => false
  | _ => false

/-- The parts of a text before and after its first equals sign. -/
def splitValue (text : List Char) : List Char × Option (List Char) :=
  match text.dropWhile (· != '=') with
  | [] => (text, none)
  | _ :: value => (text.takeWhile (· != '='), some value)

/-- The long options that a text is the beginning of; an option written in full
is the only one. -/
def matching (text : List Char) : List (Option Choice) :=
  match longOptions.find? (·.1.toList == text) with
  | some (_, choice) => [choice]
  | none => (longOptions.filter fun o => text.isPrefixOf o.1.toList).map (·.2)

/-- How a word that is no option reads. -/
def unmatched (text : String) : Word :=
  if isNegativeNumber text.toList || text.toList.contains ' ' then .plain text else .invalid

/-- The value that an option carries in its own word. -/
def carriedValue (value : List Char) : String :=
  if value = ['-', '-'] then "" else String.ofList value

/-- How a flag reads, with the repetitions of it in the same word. -/
def repeatedFlag (again : List Char) : Word :=
  if again.all (· == 'v') then .flag (again.length + 1) else .invalid

/-- How a word reads, before a separator. -/
def Word.ofText (text : String) : Word :=
  match text.toList with
  | ['-', '-'] => .separator
  | '-' :: '-' :: rest =>
    let (name, value) := splitValue ('-' :: '-' :: rest)
    match matching name with
    | [some choice] => .option choice (value.map carriedValue)
    | [] => unmatched text
    | _ => .invalid
  | ['-', 'v', '='] => .invalid
  | '-' :: 'v' :: '=' :: again => repeatedFlag again
  | '-' :: 'v' :: again => repeatedFlag again
  | '-' :: 'h' :: _ => .invalid
  | ['-'] => .plain text
  | '-' :: _ => unmatched text
  | _ => .plain text

/-- The command line with the value of an option. -/
def withOption (a : Arguments) (choice : Choice) (value : String) : Option Arguments :=
  match choice with
  | .emit => if a.tree.isSome then none else some { a with emit := some value }
  | .tree => if a.emit.isSome then none else some { a with tree := some value }

/-- The command line with a script. -/
def withScript (a : Arguments) (script : String) : Option Arguments :=
  if a.script.isSome then none else some { a with script := some script }

/-- Reads words; `afterScript` tells whether the script was the word before. -/
def read (a : Arguments) (afterScript : Bool) : List String → Option Arguments
  | [] => some a
  | word :: rest =>
    match Word.ofText word with
    | .plain text => do read (← a.withScript text) true rest
    | .flag count => read { a with verbosity := a.verbosity + count } false rest
    | .option choice (some value) => do read (← a.withOption choice value) false rest
    | .option choice none =>
      match rest with
      | [] => none
      | value :: rest =>
        match Word.ofText value with
        | .plain text => do read (← a.withOption choice text) false rest
        | _ => none
    | .separator =>
      match rest with
      | [] => if a.script.isNone || afterScript then some a else none
      | [script] => a.withScript script
      | _ => none
    | .invalid => none

/-- The command line that words make up, if they are a valid one. -/
def parse (words : List String) : Option Arguments := read ⟨0, none, none, none⟩ false words

end Arguments

end MiniLox
