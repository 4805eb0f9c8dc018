import MiniLox.Error

/-!
# Files

A `Disk` is what a run needs of a file system: the contents of a file, and
whether a file may be written.  `Files` is a directory tree held in memory, with
the files by their paths from the current directory.

A path is followed name by name from the current directory.  Every name but the
last must be a directory; the name `.` and the empty name stay in it, and `..`
goes to the directory around it.  Nothing is known of the directories around the
current one, except that they are directories.
-/

namespace MiniLox

/-- What a run needs of a file system. -/
structure Disk where
  read : String → Except FileCause (List UInt8)
  /-- Why a file may not be written. -/
  writeFault? : String → Option FileCause

/-- The files below the current directory, by the names on their paths. -/
abbrev Files := List (List String × List UInt8)

namespace Files

/-- Where a path leads. -/
inductive Location where
  /-- A path from the current directory. -/
  | inside (names : List String)
  /-- A directory around the current one. -/
  | outside
  /-- A place of which nothing is known. -/
  | unknown

/-- Whether names lead to a directory. -/
def isDirectory (files : Files) (names : List String) : Bool :=
  names.isEmpty || files.any fun f => names.isPrefixOf f.1 && names != f.1

/-- What stands at a location: octets, or why there are none. -/
def contents (files : Files) : Location → Except FileCause (List UInt8)
  | .inside names =>
    match files.lookup names with
    | some octets => .ok octets
    | none => .error (if files.isDirectory names then .isDirectory else .notFound)
  | .outside => .error .isDirectory
  | .unknown => .error .notFound

/-- The longest name in octets. -/
def nameLimit : Nat := 255

/-- The longest path in octets. -/
def pathLimit : Nat := 4095

/-- Follows one name. -/
def step (files : Files) (location : Location) (name : String) : Except FileCause Location :=
  match files.contents location with
  | .ok _ => .error .notDirectory
  | .error .isDirectory =>
    if name = "" ∨ name = "." then .ok location
    else if nameLimit < name.utf8ByteSize then .error .nameTooLong
    else match location with
      | .inside names =>
        if name = ".." then .ok (if names.isEmpty then .outside else .inside names.dropLast)
        else .ok (.inside (names ++ [name]))
      | _ => .ok (if name = ".." then location else .unknown)
  | .error cause => .error cause

/-- The names on a path. -/
def namesOf (path : String) : List String := (path.toList.splitOn '/').map String.ofList

/-- Follows a path. -/
def locate (files : Files) (path : String) : Except FileCause Location :=
  if path.toList.contains '\x00' then .error .nullCharacter
  else if pathLimit < path.utf8ByteSize then .error .nameTooLong
  else if path = "" then .error .notFound
  else
    let start : Location := if path.toList.head? = some '/' then .outside else .inside []
    (namesOf path).foldlM files.step start

/-- The octets of a file. -/
def read (files : Files) (path : String) : Except FileCause (List UInt8) := do
  files.contents (← files.locate path)

/-- Why a file may not be written. -/
def writeFault? (files : Files) (path : String) : Option FileCause :=
  match files.locate path with
  | .error cause => some cause
  | .ok location =>
    match files.contents location with
    | .error .isDirectory => some .isDirectory
    | _ => none

/-- The files with new contents of one of them. -/
def put (names : List String) (octets : List UInt8) : Files → Files
  | [] => [(names, octets)]
  | (n, o) :: rest => if n = names then (n, octets) :: rest else (n, o) :: put names octets rest

/-- The files after writing one of them. -/
def write (files : Files) (path : String) (octets : List UInt8) : Files :=
  match files.locate path with
  | .ok (.inside names) => files.put names octets
  | _ => files

/-- The files as a file system. -/
def disk (files : Files) : Disk := ⟨files.read, files.writeFault?⟩

/-- The files that are new or have other contents than before. -/
def changes (before after : Files) : Files :=
  after.filter fun f => before.lookup f.1 != some f.2

end Files

/-- A path without empty names and names that stay in the same directory. -/
def normalPath (path : String) : String :=
  let names := (Files.namesOf path).filter fun n => n != "" && n != "."
  let root := match path.toList with
    | '/' :: '/' :: '/' :: _ => "/"
    | '/' :: '/' :: _ => "//"
    | '/' :: _ => "/"
    | _ => ""
  let joined := root ++ "/".intercalate names
  if joined = "" then "." else joined

end MiniLox
