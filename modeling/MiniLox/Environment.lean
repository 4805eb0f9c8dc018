import MiniLox.Json.Key
import MiniLox.Value

/-!
# Environments

A scope binds names to values.  An environment is a chain of scopes, the current
one innermost.  Definitions go to the current scope and shadow outer bindings of
the same name; a name is looked up and assigned in the innermost scope that
binds it.
-/

namespace MiniLox

/-- Names with their values; no name appears twice. -/
abbrev Scope := List (Key × Value)

namespace Scope

/-- The value of a name. -/
def get? (name : Key) (scope : Scope) : Option Value := scope.lookup name

/-- The scope with a binding, which replaces an earlier one of the same name. -/
def bind (name : Key) (value : Value) : Scope → Scope
  | [] => [(name, value)]
  | (n, v) :: rest => if n = name then (n, value) :: rest else (n, v) :: bind name value rest

end Scope

/-- A chain of scopes. -/
structure Environment where
  current : Scope
  /-- The scopes around the current one, innermost first. -/
  enclosing : List Scope
deriving DecidableEq

namespace Environment

/-- An environment with one empty scope. -/
def empty : Environment := ⟨[], []⟩

instance : Inhabited Environment := ⟨empty⟩

/-- All scopes, innermost first. -/
def scopes (e : Environment) : List Scope := e.current :: e.enclosing

/-- How many scopes there are around the current one. -/
def depth (e : Environment) : Nat := e.enclosing.length

/-- Enters a new scope. -/
def enter (e : Environment) : Environment := ⟨[], e.current :: e.enclosing⟩

/-- Leaves the current scope; the outermost one stays. -/
def leave (e : Environment) : Environment :=
  match e.enclosing with
  | [] => e
  | outer :: rest => ⟨outer, rest⟩

/-- Binds a name in the current scope. -/
def define (e : Environment) (name : Key) (value : Value) : Environment :=
  { e with current := e.current.bind name value }

/-- The value of a name in the innermost scope that binds it. -/
def get? (e : Environment) (name : Key) : Option Value := e.scopes.findSome? (Scope.get? name)

/-- Gives a name a new value in the innermost scope that binds it. -/
def assignIn (name : Key) (value : Value) : List Scope → Option (List Scope)
  | [] => none
  | scope :: outer =>
    if (scope.get? name).isSome then some (scope.bind name value :: outer)
    else (assignIn name value outer).map (scope :: ·)

/-- The environment after an assignment, if a scope binds the name. -/
def assign? (e : Environment) (name : Key) (value : Value) : Option Environment :=
  match assignIn name value e.scopes with
  | some (current :: enclosing) => some ⟨current, enclosing⟩
  | _ => none

end Environment

end MiniLox
