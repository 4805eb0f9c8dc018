import MiniLox.Environment
import MiniLox.Proofs.Names
import MiniLox.Proofs.Text.Plain

/-!
# Programs without blocks

Blocks are numbered in the order in which they open.  Flattening a program drops the
braces of its blocks and keeps the order of everything else.  A name that is declared
directly inside a block gets a new spelling, one for each block and name.  Every other
occurrence of a name gets the new spelling of the innermost block around it in which
the name has been declared earlier in the text, and stays as it is when there is none.
What a name means is then decided by the text alone.
-/

namespace MiniLox

namespace Scoping

/-- A block around a place in a program: its number, and the names that have been
declared directly inside it before that place. -/
structure Frame where
  block : Nat
  declared : List String

/-- The new spelling of a name, if a block around the place has declared it. -/
def spelling? (fresh : Nat → String → String) (frames : List Frame) (name : String) :
    Option String :=
  (frames.find? fun f => decide (name ∈ f.declared)).map fun f => fresh f.block name

/-- An occurrence of a name with its new spelling. -/
def respell (fresh : Nat → String → String) (frames : List Frame) (t : Token) : Token :=
  match spelling? fresh frames t.lexeme with
  | some name => { t with lexeme := name, literal := some (.text name) }
  | none => t

/-- The blocks around the place behind a statement. -/
def framesAfter (s : Stmt) (frames : List Frame) : List Frame :=
  match s, frames with
  | .declare name _, f :: outer => { f with declared := name.lexeme :: f.declared } :: outer
  | _, frames => frames

/-- An expression with new spellings. -/
def respellExpr (fresh : Nat → String → String) (frames : List Frame) : Expr → Expr
  | .literal v => .literal v
  | .blank => .blank
  | .grouping e => .grouping (respellExpr fresh frames e)
  | .unary op e => .unary op (respellExpr fresh frames e)
  | .binary l op r => .binary (respellExpr fresh frames l) op (respellExpr fresh frames r)
  | .variable name => .variable (respell fresh frames name)
  | .assign name e => .assign (respell fresh frames name) (respellExpr fresh frames e)

mutual

/-- The number of blocks in a statement. -/
def blockCount : Stmt → Nat
  | .block statements => 1 + blockCountAll statements
  | .expression _ | .print _ | .declare _ _ => 0

/-- The number of blocks in a list of statements. -/
def blockCountAll : List Stmt → Nat
  | [] => 0
  | s :: rest => blockCount s + blockCountAll rest

end

mutual

/-- The statements that a statement becomes; `next` is the number of its first block. -/
def flattenStmt (fresh : Nat → String → String) (frames : List Frame) (next : Nat) :
    Stmt → List Stmt
  | .expression e => [.expression (respellExpr fresh frames e)]
  | .print e => [.print (respellExpr fresh frames e)]
  | .declare name value =>
    [.declare (respell fresh (framesAfter (.declare name value) frames) name)
      (value.map (respellExpr fresh frames))]
  | .block statements => flattenAll fresh (⟨next, []⟩ :: frames) (next + 1) statements

/-- The statements that a list of statements becomes. -/
def flattenAll (fresh : Nat → String → String) (frames : List Frame) (next : Nat) :
    List Stmt → List Stmt
  | [] => []
  | s :: rest =>
    flattenStmt fresh frames next s ++
      flattenAll fresh (framesAfter s frames) (next + blockCount s) rest

end

/-- The program without blocks. -/
def flatten (fresh : Nat → String → String) (program : List Stmt) : List Stmt :=
  flattenAll fresh [] 0 program

/-- New spellings for the names that the blocks of a program declare: different ones for
different blocks and for different names, none of them bound in the global scope or
written in the program. -/
structure FreshNames (globals : Scope) (program : List Stmt) where
  name : Nat → String → String
  injective : ∀ {b c x y}, name b x = name c y → b = c ∧ x = y
  not_bound : ∀ b x, globals.get? (.text (name b x)) = none
  not_written : ∀ b x, name b x ∉ Program.names program

/-! ## New spellings exist -/

/-- The strings among the keys of a scope. -/
def boundNames (scope : Scope) : List String :=
  scope.filterMap fun binding =>
    match binding.1 with
    | .text name => name.plain?
    | _ => none

theorem mem_boundNames {scope : Scope} {name : String}
    (h : scope.get? (.text name) ≠ none) : name ∈ boundNames scope := by
  induction scope with
  | nil => exact (h rfl).elim
  | cons binding rest ih =>
      obtain ⟨key, v⟩ := binding
      by_cases hkey : key = .text name
      · exact List.mem_filterMap.mpr ⟨(key, v), List.mem_cons_self, by
          rw [hkey]
          exact Text.plain?_ofString name⟩
      · have hrest : Scope.get? (.text name) rest ≠ none := by
          rwa [Scope.get?, List.lookup_cons, beq_false_of_ne (Ne.symm hkey)] at h
        obtain ⟨b, hb, hname⟩ := List.mem_filterMap.mp (ih hrest)
        exact List.mem_filterMap.mpr ⟨b, List.mem_cons_of_mem _ hb, hname⟩

/-- A name behind a number of marks that grows with the number of the block. -/
def markedName (marks block : Nat) (name : String) : String :=
  String.ofList (List.replicate (marks + block) '#' ++ '.' :: name.toList)

theorem length_lt_markedName (marks block : Nat) (name : String) :
    marks < (markedName marks block name).length := by
  rw [markedName, String.length_ofList, List.length_append, List.length_replicate,
    List.length_cons]
  omega

theorem markedName_injective {marks b c : Nat} {x y : String}
    (h : markedName marks b x = markedName marks c y) : b = c ∧ x = y := by
  have hlist := String.ofList_injective h
  have hmarks : ∀ (n : Nat) (rest : List Char),
      ((List.replicate n '#' ++ '.' :: rest).takeWhile (· == '#')).length = n := by
    intro n rest
    rw [List.takeWhile_append_of_pos (by simp), List.takeWhile_cons_of_neg (by simp)]
    simp
  have hblock : marks + b = marks + c := by
    rw [← hmarks (marks + b) x.toList, hlist, hmarks]
  have hbc : b = c := Nat.add_left_cancel hblock
  subst hbc
  have hname := List.append_cancel_left hlist
  rw [List.cons.injEq] at hname
  exact ⟨rfl, String.toList_injective hname.2⟩

/-- Every program has new spellings for its names: they are longer than all names in use. -/
def freshNames (globals : Scope) (program : List Stmt) : FreshNames globals program :=
  let used := boundNames globals ++ Program.names program
  let marks := (used.map String.length).max?.getD 0
  have unused (b : Nat) (x : String) : markedName marks b x ∉ used := by
    intro hmem
    have hle : (markedName marks b x).length ≤ marks :=
      List.le_max?_getD_of_mem (List.mem_map_of_mem hmem)
    exact Nat.not_lt_of_le hle (length_lt_markedName marks b x)
  { name := markedName marks
    injective := markedName_injective
    not_bound := by
      intro b x
      cases hbound : globals.get? (.text (markedName marks b x)) with
      | none => rfl
      | some v =>
          have hmem := mem_boundNames (by rw [hbound]; exact Option.some_ne_none v)
          exact (unused b x (List.mem_append_left _ hmem)).elim
    not_written := by
      intro b x hmem
      exact unused b x (List.mem_append_right _ hmem) }

end Scoping

end MiniLox
