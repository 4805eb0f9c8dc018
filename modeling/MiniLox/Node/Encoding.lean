import MiniLox.Json.Display
import MiniLox.Node.Basic

/-!
# Trees as data

A node is stored as an object: the member `node` tells its kind, and the others
hold its children and tokens.  A literal is stored with the kind of its value,
because data alone does not tell a number from a boolean or nil.

`Node.encode` gives the data of a node, and `Node.decode` reads it back.  Reading
looks at the members in the order in which they are written, so the first
mistake in that order is the one reported.
-/

namespace MiniLox

namespace Value

/-- The data of the value of a literal. -/
def encode : Value → Json
  | .boolean b => .object [("kind", .text "boolean"), ("value", .boolean b)]
  | .number n => .object [("kind", .text "number"), ("value", .real n)]
  | .text s => .object [("kind", .text "string"), ("value", .text s)]
  | .nil => .object [("kind", .text "nil")]

end Value

/-- The data of a token. -/
def Mark.encode (m : Mark) : Json :=
  .object (("type", .text m.kind.name) :: ("lexeme", m.lexeme) :: ("line", m.line) ::
    if m.literal.isNull then [] else [("literal", m.literal)])

namespace Node

/-- The data of a kind of node, with its other members. -/
def tagged (kind : String) (members : List (Text × Json)) : Json :=
  .object (("node", .text kind) :: members)

mutual

/-- The data of a node.  A literal without a value has none. -/
def encode : Node → Option Json
  | .null => some .null
  | .list items => do return .array (← encodeAll items)
  | .literal v => some (tagged "Literal" [("value", v.encode)])
  | .blank => none
  | .grouping e => do return tagged "Grouping" [("expression", ← encode e)]
  | .unary op e => do return tagged "Unary" [("operator", op.encode), ("right", ← encode e)]
  | .binary l op r => do
    return tagged "Binary" [("left", ← encode l), ("operator", op.encode), ("right", ← encode r)]
  | .variable name => some (tagged "Variable" [("name", name.encode)])
  | .assign name e => do return tagged "Assign" [("name", name.encode), ("value", ← encode e)]
  | .expression e => do return tagged "ExprStmt" [("expr", ← encode e)]
  | .print e => do return tagged "PrintStmt" [("expr", ← encode e)]
  | .declare name e => do
    return tagged "VarStmt" [("name", name.encode), ("initializer", ← encode e)]
  | .block statements => do return tagged "Block" [("statements", .array (← encodeAll statements))]

/-- The data of nodes in order. -/
def encodeAll : List Node → Option (List Json)
  | [] => some []
  | n :: rest => do return (← encode n) :: (← encodeAll rest)

end

end Node

end MiniLox
