import MiniLox.Proofs.Execution.Lines
import MiniLox.Proofs.Execution.Narrowing

/-!
# Runs on streams

What a run writes to may refuse a line, which stops the run.  As long as it does not, the run is
the one that keeps its lines in memory.

A stream refuses no plain line.  A run whose literals, tokens and bindings are plain writes
plain lines only, because the operators make plain values of plain values; it is therefore the
same on every stream.
-/

namespace MiniLox

/-- A line was refused, and ended the run. -/
def Outcome.IsStopped {α : Type} (mode : Mode) (o : Outcome Fault α) : Prop :=
  ∃ event, o.result = .error (.unwritable event) ∧ mode.takes event = false

/-- A value whose text is plain. -/
def Value.IsPlain (v : Value) : Prop := v.display.isPlain

/-- A token whose spelling is plain. -/
def Mark.IsPlain (m : Mark) : Prop := m.lexeme.display.isPlain

/-- A text that is one half of a pair of units. -/
def Text.loneHalf : Text := ⟨[.half ⟨0⟩]⟩

/-- A declaration that binds a name to a text. -/
def Text.declaration (s : Text) : Node :=
  .declare ⟨.identifier, .text "x", .text "x", .whole 1⟩ (.literal (.text s))

namespace Evaluation

variable {mode : Mode} {env : Environment}

/-! ## Lines that stop a run -/

theorem isKept_true : IsKept fun _ => True := ⟨trivial, fun _ _ => trivial, fun _ _ _ => trivial⟩

theorem upholds_execute_true (mode : Mode) (statements : List Node) :
    Upholds mode (fun _ => True) (fun _ => True) (fun _ => True) (execute mode statements) :=
  upholds_execute isKept_true statements (fun _ _ => trivial) fun _ _ => trivial

theorem upholds_executeAll_true (mode : Mode) (statements : List Node) :
    Upholds mode (fun _ => True) (fun _ => True) (fun _ => True) (executeAll mode statements) :=
  upholds_executeAll isKept_true statements (fun _ _ => trivial) fun _ _ => trivial

theorem Upholds.isRefused {α : Type} {R : α → Prop} {x : Action Fault α} {event : Event}
    (hx : Upholds mode (fun _ => True) (fun _ => True) R x)
    (h : (x env).result = .error (.unwritable event)) :
    IsRefused mode (fun _ => True) (fun _ => True) event :=
  (hx env fun _ _ _ _ => trivial).refused event h

/-- Nothing stops a run that keeps its lines in memory. -/
theorem not_isStopped_ofLevel {α : Type} (level : Nat) (o : Outcome Fault α) :
    ¬o.IsStopped level := by
  rintro ⟨event, -, htakes⟩
  cases event <;> cases htakes

/-! ## Lines in memory -/

theorem narrows_ofLevel (mode : Mode) :
    (Mode.ofLevel mode.level).Narrows mode fun _ => true where
  output _ := rfl
  trace _ _ := ⟨fun h => ⟨h, rfl⟩, And.left⟩
  takes event _ _ := by cases event <;> rfl

theorem isStopped_or_eq_of_follows {α : Type} {x y : Action Fault α}
    (h : Follows mode.level mode (fun _ => true) x y) (env : Environment) :
    (y env).IsStopped mode ∨ y env = x env := by
  rcases h env with ⟨event, hresult, htakes, -⟩ | hkept
  · exact Or.inl ⟨event, hresult, htakes⟩
  · right
    rw [Outcome.keeping, List.filter_eq_self.mpr fun _ _ => rfl] at hkept
    exact hkept

/-- The run of a program is stopped by a line, or it is the run that keeps its lines in memory. -/
theorem execute_isStopped_or_eq (mode : Mode) (statements : List Node) (env : Environment) :
    (execute mode statements env).IsStopped mode ∨
      execute mode statements env = execute mode.level statements env :=
  isStopped_or_eq_of_follows (follows_execute (narrows_ofLevel mode) statements) env

theorem executeAll_isStopped_or_eq (mode : Mode) (statements : List Node) (env : Environment) :
    (executeAll mode statements env).IsStopped mode ∨
      executeAll mode statements env = executeAll mode.level statements env :=
  isStopped_or_eq_of_follows (follows_executeAll (narrows_ofLevel mode) statements) env

/-! ## Plain runs -/

theorem isPlain_number (n : Number) : (Value.number n).IsPlain := Text.isPlain_ofString _

theorem isPlain_boolean (b : Bool) : (Value.boolean b).IsPlain := by cases b <;> rfl

theorem isPlain_nil : Value.nil.IsPlain := rfl

theorem isPlain_of_asText {line : Json} {v : Value} {s : Text} (hv : v.IsPlain)
    (h : v.asText line = .ok s) : s.isPlain := by
  cases v with
  | text t =>
      cases h
      exact hv
  | _ => cases h

theorem isPlain_of_plus {v w u : Value} {line : Json} (hv : v.IsPlain) (hw : w.IsPlain)
    (h : plus v w line = .ok u) : u.IsPlain := by
  have htexts : (do return .text ((← v.asText line) ++ (← w.asText line)) :
      Except Fault Value) = .ok u → u.IsPlain := by
    intro h
    obtain ⟨s, hs, h⟩ := ok_of_bind h
    obtain ⟨t, ht, h⟩ := ok_of_bind h
    cases h
    rw [Value.IsPlain, Value.display, Text.isPlain_append, isPlain_of_asText hv hs,
      isPlain_of_asText hw ht]
    rfl
  cases v with
  | number a =>
      obtain ⟨b, -, h⟩ := ok_of_bind h
      cases h
      exact isPlain_number _
  | _ => exact htexts h

theorem isPlain_of_arithmetic {kind : TokenKind} {f : Number → Number → Value}
    (h : arithmetic? kind = some f) (a b : Number) : (f a b).IsPlain := by
  unfold arithmetic? at h
  split at h <;> cases h <;> first | exact isPlain_number _ | exact isPlain_boolean _

theorem isPlain_of_binaryResult {op : Mark} {v w u : Value} (hv : v.IsPlain) (hw : w.IsPlain)
    (h : binaryResult op v w = .ok u) : u.IsPlain := by
  rw [binaryResult] at h
  split at h
  · next f hf =>
    obtain ⟨a, -, h⟩ := ok_of_bind h
    obtain ⟨b, -, h⟩ := ok_of_bind h
    cases h
    exact isPlain_of_arithmetic hf a b
  · split at h
    · exact isPlain_of_plus hv hw h
    · cases h
      exact isPlain_boolean _
    · cases h
      exact isPlain_boolean _
    · cases h

theorem isPlain_of_unaryResult {op : Mark} {v w : Value} (h : unaryResult op v = .ok w) :
    w.IsPlain := by
  rw [unaryResult] at h
  split at h
  · obtain ⟨n, -, h⟩ := ok_of_bind h
    cases h
    exact isPlain_number _
  · obtain ⟨b, -, h⟩ := ok_of_bind h
    cases h
    exact isPlain_boolean _
  · cases h

theorem isKept_isPlain : IsKept Value.IsPlain :=
  ⟨isPlain_nil, fun _ => isPlain_of_unaryResult, isPlain_of_binaryResult⟩

/-- Plain tokens and plain values make plain lines. -/
theorem IsLine.isPlain {event : Event} (h : IsLine Mark.IsPlain Value.IsPlain event) :
    event.line.isPlain := by
  cases h with
  | output h => exact h
  | execute n => exact Text.isPlain_ofString _
  | define hname h depth =>
      rw [Mark.IsPlain] at hname
      rw [Value.IsPlain] at h
      simp [Event.defining, Event.line, hname, h]
  | assign hname h =>
      rw [Mark.IsPlain] at hname
      rw [Value.IsPlain] at h
      simp [Event.line, hname, h]
  | enter depth => exact Text.isPlain_ofString _
  | leave depth => exact Text.isPlain_ofString _
  | unary hop hv hresult =>
      have hw := isPlain_of_unaryResult hresult
      rw [Mark.IsPlain] at hop
      rw [Value.IsPlain] at hv hw
      simp [Event.line, hop, hv, hw]
  | binary hop hv hw hresult =>
      have hu := isPlain_of_binaryResult hv hw hresult
      rw [Mark.IsPlain] at hop
      rw [Value.IsPlain] at hv hw hu
      simp [Event.line, hop, hv, hw, hu]

theorem not_isStopped_of_upholds {α : Type} {R : α → Prop} {x : Action Fault α}
    (hx : Upholds mode Mark.IsPlain Value.IsPlain R x) (henv : env.Holds Value.IsPlain) :
    ¬(x env).IsStopped mode := by
  rintro ⟨event, hresult, htakes⟩
  have hplain := ((hx env henv).refused event hresult).line.isPlain
  rw [mode.takes_of_isPlain hplain] at htakes
  cases htakes

/-! ## Programs that have been read -/

theorem isPlain_mark (t : Token) : t.mark.IsPlain := Text.isPlain_ofString _

theorem isPlain_marks (e : Expr) : ∀ m ∈ e.node.marks, m.IsPlain := by
  induction e with
  | literal _ | blank => exact List.forall_mem_nil _
  | grouping e ih => exact ih
  | unary op e ih => exact List.forall_mem_cons.mpr ⟨isPlain_mark op, ih⟩
  | binary l op r ihLeft ihRight =>
      exact List.forall_mem_cons.mpr
        ⟨isPlain_mark op, List.forall_mem_append.mpr ⟨ihLeft, ihRight⟩⟩
  | «variable» name => exact List.forall_mem_singleton.mpr (isPlain_mark name)
  | assign name e ih => exact List.forall_mem_cons.mpr ⟨isPlain_mark name, ih⟩

mutual

theorem isPlain_marks_stmt : (s : Stmt) → ∀ m ∈ s.node.marks, m.IsPlain
  | .expression e | .print e => isPlain_marks e
  | .declare name none => List.forall_mem_singleton.mpr (isPlain_mark name)
  | .declare name (some e) => List.forall_mem_cons.mpr ⟨isPlain_mark name, isPlain_marks e⟩
  | .block statements => isPlain_marksAll statements

theorem isPlain_marksAll : (p : List Stmt) → ∀ m ∈ Node.marksAll (Stmt.nodes p), m.IsPlain
  | [] => List.forall_mem_nil _
  | s :: rest => List.forall_mem_append.mpr ⟨isPlain_marks_stmt s, isPlain_marksAll rest⟩

end

/-- A plain program is run in the same way on every stream. -/
theorem execute_eq_of_isPlain {statements : List Node}
    (hmarks : ∀ m ∈ Node.marksAll statements, m.IsPlain)
    (hliterals : ∀ v ∈ Node.literalsAll statements, v.IsPlain) (henv : env.Holds Value.IsPlain) :
    execute mode statements env = execute mode.level statements env :=
  (execute_isStopped_or_eq mode statements env).resolve_left
    (not_isStopped_of_upholds (upholds_execute isKept_isPlain statements hmarks hliterals) henv)

end Evaluation

end MiniLox
