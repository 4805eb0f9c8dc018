import MiniLox.Json.Display
import MiniLox.Node.Encoding
import MiniLox.Numeric.Numeral

/-!
# Reading trees from data

`Node.decode` reads a node from any data.  It fails with the first mistake in
the order in which members are written.  Tokens may hold any data in their text,
literal and line, and the values of literals are converted generously: any data
counts as a boolean, text that writes a number counts as one, and any data has a
text, unless a whole number in it is too long to be shown.
-/

namespace MiniLox

/-- Data of the wrong kind. -/
inductive ShapeFault where
  /-- A member was asked of data that is no object. -/
  | noMembers (kind : String)
  /-- Data that cannot name anything. -/
  | noName (kind : String)
  /-- Data that is no number and writes none. -/
  | noNumber (kind : String)
  /-- Data that has no items. -/
  | noItems (kind : String)

/-- Why data is no tree. -/
inductive LoadFault where
  /-- An object lacks a member, or no kind of token has the name. -/
  | missing (name : Json)
  /-- Data that is neither null, an array nor an object stands for a node. -/
  | noNode (kind : String)
  | unknownNode (kind : Json)
  | unknownLiteral (kind : Json)
  /-- A text that writes no number. -/
  | noNumeral (text : Text)
  /-- Data that cannot be shown, because a whole number in it is too long. -/
  | unshowable
  /-- A whole number beyond the floating-point numbers. -/
  | outOfRange
  | shape (fault : ShapeFault)

/-- The wording of data of the wrong kind. -/
def ShapeFault.message : ShapeFault → String
  | .noMembers "str" => "string indices must be integers, not 'str'"
  | .noMembers "list" => "list indices must be integers or slices, not str"
  | .noMembers kind => s!"'{kind}' object is not subscriptable"
  | .noName kind => s!"unhashable type: '{kind}'"
  | .noNumber kind => s!"float() argument must be a string or a real number, not '{kind}'"
  | .noItems kind => s!"'{kind}' object is not iterable"

/-- The wording of a failure to read a tree. -/
def LoadFault.message : LoadFault → Text
  | .missing name => "Invalid AST object: missing field " ++ name.inner
  | .noNode kind => "Invalid AST object: expected an AST node, got " ++ kind
  | .unknownNode kind => "Unknown AST node type: " ++ kind.display
  | .unknownLiteral kind => "Unknown literal kind: " ++ kind.display
  | .noNumeral text => "could not convert string to float: " ++ Text.quoted text
  | .unshowable =>
    s!"Exceeds the limit ({Json.digitLimit} digits) for integer string conversion; " ++
      "use sys.set_int_max_str_digits() to increase the limit"
  | .outOfRange => "int too large to convert to float"
  | .shape fault => "Invalid AST object: " ++ fault.message

/-- A failure that names data, if the data can be shown. -/
def LoadFault.naming (fault : Json → LoadFault) (j : Json) : LoadFault :=
  if j.isShowable then fault j else .unshowable

namespace Json

/-- A member that must be there. -/
def member (name : String) : Json → Except LoadFault Json
  | .object members =>
    match find? name members with
    | some j => .ok j
    | none => .error (.missing (.text name))
  | j => .error (.shape (.noMembers j.kindName))

/-- The number that data is converted to. -/
def toNumber : Json → Except LoadFault Number
  | .boolean b => .ok (Number.ofInt (if b then 1 else 0))
  | .whole i => if (Number.ofInt i).isFinite then .ok (Number.ofInt i) else .error .outOfRange
  | .real n => .ok n
  | .text s =>
    match s.plain?.bind Number.ofText? with
    | some n => .ok n
    | none => .error (.noNumeral s)
  | j => .error (.shape (.noNumber j.kindName))

/-- The string that data is, if it is a plain text. -/
def string? : Json → Option String
  | .text s => s.plain?
  | _ => none

/-- The text that data is converted to. -/
def toText (j : Json) : Except LoadFault Text :=
  if j.isShowable then .ok j.display else .error .unshowable

theorem sizeOf_lt_of_find? {name : Text} {members : List (Text × Json)} {j : Json}
    (h : find? name members = some j) : sizeOf j < sizeOf members := by
  induction members with
  | nil => simp [find?] at h
  | cons m rest ih =>
    obtain ⟨n, v⟩ := m
    simp only [find?, List.lookup_cons] at h
    split at h
    · cases h
      simp only [List.cons.sizeOf_spec, Prod.mk.sizeOf_spec]
      omega
    · have := ih h
      simp only [List.cons.sizeOf_spec]
      omega

end Json

/-- The value of a literal. -/
def Value.decode (j : Json) : Except LoadFault Value := do
  let kind ← j.member "kind"
  match kind.string? with
  | some "boolean" => return .boolean (← j.member "value").isTruthy
  | some "number" => return .number (← (← j.member "value").toNumber)
  | some "string" => return .text (← (← j.member "value").toText)
  | some "nil" => return .nil
  | _ => throw (.naming .unknownLiteral kind)

/-- The kind of a token. -/
def TokenKind.decode (j : Json) : Except LoadFault TokenKind :=
  match j with
  | .text name =>
    match name.plain?.bind TokenKind.ofName? with
    | some kind => .ok kind
    | none => .error (.missing j)
  | .array _ => .error (.shape (.noName j.kindName))
  | .object _ => .error (.shape (.noName j.kindName))
  | _ => .error (.naming .missing j)

/-- A token; only its kind must be given. -/
def Mark.decode (j : Json) : Except LoadFault Mark := do
  let kind ← TokenKind.decode (← j.member "type")
  match j with
  | .object members =>
    return ⟨kind, (Json.find? "lexeme" members).getD (.text ""),
      (Json.find? "literal" members).getD .null, (Json.find? "line" members).getD .null⟩
  | _ => throw (.shape (.noMembers j.kindName))

namespace Node

/-- A member that must be there, with the fact that it is smaller than the object. -/
def part (name : String) (members : List (Text × Json)) :
    Except LoadFault { j : Json // sizeOf j < sizeOf members } :=
  match h : Json.find? name members with
  | some j => .ok ⟨j, Json.sizeOf_lt_of_find? h⟩
  | none => .error (.missing (.text name))

/-- A token among the members of an object. -/
def mark (name : String) (members : List (Text × Json)) : Except LoadFault Mark := do
  Mark.decode (← part name members)

mutual

/-- Reads a node from data. -/
def decode (j : Json) : Except LoadFault Node :=
  match j with
  | .null => .ok .null
  | .array items => do return .list (← decodeAll items)
  | .object members =>
    match (Json.find? "node" members).bind Json.string? with
    | some "Literal" => do return .literal (← Value.decode (← part "value" members))
    | some "Grouping" => do return .grouping (← child "expression" members)
    | some "Unary" => do return .unary (← mark "operator" members) (← child "right" members)
    | some "Binary" => do
      return .binary (← child "left" members) (← mark "operator" members)
        (← child "right" members)
    | some "Variable" => do return .variable (← mark "name" members)
    | some "Assign" => do return .assign (← mark "name" members) (← child "value" members)
    | some "ExprStmt" => do return .expression (← child "expr" members)
    | some "PrintStmt" => do return .print (← child "expr" members)
    | some "VarStmt" => do
      let name ← mark "name" members
      match h : Json.find? "initializer" members with
      | none => return .declare name .null
      | some j =>
        have := Json.sizeOf_lt_of_find? h
        return .declare name (← decode j)
    | some "Block" => do return .block (← children (← part "statements" members))
    | _ => .error (.naming .unknownNode ((Json.find? "node" members).getD .null))
  | j => .error (.noNode j.kindName)
termination_by sizeOf j

/-- Reads a child node from the members of an object. -/
def child (name : String) (members : List (Text × Json)) : Except LoadFault Node := do
  let ⟨j, _⟩ ← part name members
  decode j
termination_by sizeOf members

/-- Reads the statements of a block.  A text counts as the list of its characters
and an object as the list of its names, neither of which is a node. -/
def children (j : Json) : Except LoadFault (List Node) :=
  match j with
  | .array items => decodeAll items
  | .text s => if s.points.isEmpty then .ok [] else .error (.noNode "str")
  | .object members => if members.isEmpty then .ok [] else .error (.noNode "str")
  | j => .error (.shape (.noItems j.kindName))
termination_by sizeOf j

/-- Reads nodes in order. -/
def decodeAll (items : List Json) : Except LoadFault (List Node) :=
  match items with
  | [] => .ok []
  | j :: rest => do return (← decode j) :: (← decodeAll rest)
termination_by sizeOf items

end

end Node

end MiniLox
