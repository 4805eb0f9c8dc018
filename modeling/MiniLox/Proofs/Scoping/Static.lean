import MiniLox.Proofs.Scoping.Agreement

/-!
# Lexical scoping is static

A program and its flattening print the same lines, end in the same way, and leave the
same values in all global names, for every depth of blocks and every error in the middle
of them.  Both can therefore be run without a chain of scopes: which variable a name
means is known before the run.
-/

namespace MiniLox

namespace Evaluation

variable {mode : Mode}

theorem interpretAll_block (statements : List Node) :
    interpretAll mode [.block statements] = inScope mode (interpretAll mode statements) := by
  rw [interpretAll, interpret, bind_assoc]
  simp only [interpretAll, pure_bind]
  exact bind_pure_unit

theorem interpretAll_print (e : Node) :
    interpretAll mode [.print e] =
      evaluate mode e >>= fun v => Action.output mode v.display := by
  rw [interpretAll, interpret, bind_assoc]
  simp only [interpretAll, bind_assoc, pure_bind, bind_pure_unit]

theorem interpretAll_declare_null (name : Mark) :
    interpretAll mode [.declare name .null] = define mode name .nil := by
  rw [interpretAll, interpret, bind_assoc]
  simp only [interpretAll, pure_bind, bind_pure_unit]

theorem interpretAll_declare (name : Mark) (e : Expr) :
    interpretAll mode [.declare name e.node] =
      evaluate mode e.node >>= fun v => define mode name v := by
  rw [interpretAll, interpret_declare, bind_assoc]
  simp only [interpretAll, bind_assoc, pure_bind, bind_pure_unit]

/-- A program prints, leaves and ends in what its statements do in order. -/
theorem executeAll_eq_interpretAll (mode : Mode) (nodes : List Node) (env : Environment) :
    outputs (executeAll mode nodes env).events = outputs (interpretAll mode nodes env).events ∧
    (executeAll mode nodes env).environment = (interpretAll mode nodes env).environment ∧
    (executeAll mode nodes env).result.map (fun _ => ()) =
      (interpretAll mode nodes env).result := by
  rw [executeAll]
  generalize Value.nil = last
  induction nodes generalizing env last with
  | nil =>
      rw [List.foldlM_nil, interpretAll]
      exact ⟨rfl, rfl, rfl⟩
  | cons n rest ih =>
      have houtputs : outputs (step mode n env).events = outputs (interpret mode n env).events := by
        rw [step_apply, outputs_append, Action.outputs_trace, List.nil_append]
      have hleft : (step mode n env).environment = (interpret mode n env).environment := by
        rw [step_apply]
      have hended : (step mode n env).result = (interpret mode n env).result := by
        rw [step_apply]
      rw [List.foldlM_cons, interpretAll]
      cases hresult : (interpret mode n env).result with
      | error fault =>
          rw [Action.bind_error (hended.trans hresult), Action.bind_error hresult]
          exact ⟨houtputs, hleft, rfl⟩
      | ok v =>
          obtain ⟨houtput, henv, hend⟩ := ih (interpret mode n env).environment v
          rw [Action.bind_ok (hended.trans hresult), Action.bind_ok hresult, hleft]
          refine ⟨?_, henv, hend⟩
          rw [outputs_append, outputs_append, houtputs, houtput]

end Evaluation

namespace Scoping

open Evaluation

variable {fresh : Nat → String → String} {flat : Scope} {frames : List Frame}
  {env : Environment} {mode : Mode} {next : Nat}

/-! ## The blocks around a place -/

/-- The blocks around the place behind a list of statements. -/
def framesAfterAll (statements : List Stmt) (frames : List Frame) : List Frame :=
  statements.foldl (fun frames s => framesAfter s frames) frames

theorem map_block_framesAfter (s : Stmt) (frames : List Frame) :
    (framesAfter s frames).map Frame.block = frames.map Frame.block := by
  cases s with
  | declare name e => cases frames <;> rfl
  | expression _ => rfl
  | print _ => rfl
  | block _ => rfl

theorem map_block_framesAfterAll (statements : List Stmt) (frames : List Frame) :
    (framesAfterAll statements frames).map Frame.block = frames.map Frame.block := by
  induction statements generalizing frames with
  | nil => rfl
  | cons s rest ih =>
      change (framesAfterAll rest (framesAfter s frames)).map Frame.block = _
      rw [ih, map_block_framesAfter]

theorem length_framesAfterAll (statements : List Stmt) (frames : List Frame) :
    (framesAfterAll statements frames).length = frames.length := by
  have h := congrArg List.length (map_block_framesAfterAll statements frames)
  rwa [List.length_map, List.length_map] at h

/-- The statements in a block declare names in no block around it. -/
theorem framesAfterAll_cons (statements : List Stmt) (f : Frame) (frames : List Frame) :
    ∃ g, framesAfterAll statements (f :: frames) = g :: frames := by
  induction statements generalizing f with
  | nil => exact ⟨f, rfl⟩
  | cons s rest ih =>
      cases s with
      | declare name e => exact ih _
      | expression _ => exact ih f
      | print _ => exact ih f
      | block _ => exact ih f

/-! ## Statements -/

theorem Holds.enter (h : Holds fresh flat frames env.scopes) (block : Nat) :
    Holds fresh flat (⟨block, []⟩ :: frames) env.enter.scopes := by
  refine ⟨⟨?_, ?_, ?_⟩, h⟩
  · intro x hx
    cases hx
  · intro x hx
    cases hx
  · intro x _
    rfl

theorem Holds.leave {f : Frame} (h : Holds fresh flat (f :: frames) env.scopes) :
    Holds fresh flat frames env.leave.scopes := by
  obtain ⟨current, enclosing⟩ := env
  match enclosing, frames, h with
  | [], [], h => exact h.2.elim
  | [], _ :: _, h => exact h.2.elim
  | _ :: _, _, h => exact h.2

/-- What happens in a scope of its own agrees with the blocks around it. -/
theorem Agree.inScope {body : Action Fault Unit} {f : Frame} {o' : Outcome Fault Unit}
    (h : Agree fresh (f :: frames) (body env.enter) o') :
    Agree fresh frames (inScope mode body env) o' := by
  obtain ⟨flat, inside, henv, hholds, hlength, hafter⟩ := h.holds
  constructor
  · rw [h.output]
    change _ = outputs (_ ++ _ ++ _)
    rw [outputs_append, outputs_append, Action.outputs_trace, Action.outputs_trace,
      List.nil_append, List.append_nil]
  · exact h.result
  · match inside, hlength with
    | g :: inside, hlength =>
        refine ⟨flat, inside, henv, hholds.leave, Nat.succ.inj hlength, ?_⟩
        intro a ha
        exact (List.cons.inj (hafter a ha)).2

/-- The same line of output is written to the same stream, or refused by it. -/
theorem agree_output (line : Text) (h : Holds fresh flat frames env.scopes) :
    Agree fresh frames (Action.output mode line env) (Action.output mode line ⟨flat, []⟩) := by
  rw [Action.output, Action.put]
  split
  · exact ⟨rfl, rfl, flat, frames, rfl, h, rfl, fun _ _ => rfl⟩
  · exact ⟨rfl, rfl, flat, frames, rfl, h, rfl, fun _ _ => rfl⟩

mutual

theorem agree_interpret (hmode : mode.trace = .memory) (hsep : Separates fresh) {flat : Scope}
    {frames : List Frame} {env : Environment} {next : Nat} (s : Stmt)
    (hnames : ∀ x ∈ s.names, IsOld fresh x) (hdistinct : (frames.map Frame.block).Nodup)
    (hbefore : ∀ b ∈ frames.map Frame.block, b < next)
    (h : Holds fresh flat frames env.scopes) :
    Agree fresh (framesAfter s frames) (interpretAll mode [s.node] env)
      (interpretAll mode (Stmt.nodes (flattenStmt fresh frames next s)) ⟨flat, []⟩) := by
  match s with
  | .expression e =>
      apply (agree_evaluate hmode hsep hdistinct e hnames h).bind rfl
      intro v env₁ flat₁ h₁
      exact Agree.pure () h₁
  | .print e =>
      rw [Stmt.node, interpretAll_print]
      change Agree fresh frames _ (interpretAll mode [.print (respellExpr fresh frames e).node] _)
      rw [interpretAll_print]
      apply (agree_evaluate hmode hsep hdistinct e hnames h).bind rfl
      intro v env₁ flat₁ h₁
      exact agree_output v.display h₁
  | .declare name none =>
      rw [Stmt.node, interpretAll_declare_null]
      change Agree fresh _ _ (interpretAll mode [.declare (respell fresh _ name).mark .null] _)
      rw [interpretAll_declare_null]
      exact agree_define hmode hsep h hdistinct name none .nil
  | .declare name (some e) =>
      have hnames' : ∀ x ∈ e.names, IsOld fresh x :=
        fun x hx => hnames x (List.mem_cons_of_mem _ hx)
      have hlength : frames.length = (framesAfter (.declare name (some e)) frames).length :=
        (length_framesAfterAll [.declare name (some e)] frames).symm
      rw [Stmt.node, interpretAll_declare]
      change Agree fresh _ _ (interpretAll mode [.declare (respell fresh _ name).mark
        (respellExpr fresh frames e).node] _)
      rw [interpretAll_declare]
      apply (agree_evaluate hmode hsep hdistinct e hnames' h).bind hlength
      intro v env₁ flat₁ h₁
      exact agree_define hmode hsep h₁ hdistinct name (some e) v
  | .block statements =>
      have hfresh : ∀ b ∈ frames.map Frame.block, next ≠ b :=
        fun b hb => (Nat.ne_of_lt (hbefore b hb)).symm
      have hbefore' : ∀ b ∈ next :: frames.map Frame.block, b < next + 1 := by
        intro b hb
        rcases List.mem_cons.mp hb with rfl | hb
        · exact Nat.lt_succ_self b
        · exact Nat.lt_succ_of_lt (hbefore b hb)
      obtain ⟨f, hf⟩ := framesAfterAll_cons statements ⟨next, []⟩ frames
      rw [Stmt.node, interpretAll_block]
      apply Agree.inScope (f := f)
      change Agree fresh (f :: frames) _ _
      rw [← hf]
      refine agree_interpretAll hmode hsep statements hnames ?_ hbefore' (h.enter next)
      exact List.nodup_cons.mpr ⟨fun hmem => hfresh next hmem rfl, hdistinct⟩

theorem agree_interpretAll (hmode : mode.trace = .memory) (hsep : Separates fresh) {flat : Scope}
    {frames : List Frame} {env : Environment} {next : Nat} (statements : List Stmt)
    (hnames : ∀ x ∈ Program.names statements, IsOld fresh x)
    (hdistinct : (frames.map Frame.block).Nodup)
    (hbefore : ∀ b ∈ frames.map Frame.block, b < next)
    (h : Holds fresh flat frames env.scopes) :
    Agree fresh (framesAfterAll statements frames)
      (interpretAll mode (Stmt.nodes statements) env)
      (interpretAll mode (Stmt.nodes (flattenAll fresh frames next statements)) ⟨flat, []⟩) := by
  match statements with
  | [] => exact Agree.pure () h
  | s :: rest =>
      have hs : ∀ x ∈ s.names, IsOld fresh x := fun x hx => hnames x (List.mem_append_left _ hx)
      have hrest : ∀ x ∈ Program.names rest, IsOld fresh x :=
        fun x hx => hnames x (List.mem_append_right _ hx)
      have hlength : (framesAfter s frames).length = (framesAfterAll (s :: rest) frames).length :=
        (length_framesAfterAll rest _).symm
      have hnodes : Stmt.nodes (s :: rest) = [s.node] ++ Stmt.nodes rest := rfl
      rw [flattenAll, Stmt.nodes_append, interpretAll_append, hnodes, interpretAll_append]
      apply (agree_interpret hmode hsep s hs hdistinct hbefore h).bind hlength
      intro _ env₁ flat₁ h₁
      refine agree_interpretAll hmode hsep rest hrest ?_ ?_ h₁
      · rw [map_block_framesAfter]
        exact hdistinct
      · rw [map_block_framesAfter]
        exact fun b hb => Nat.lt_add_right _ (hbefore b hb)

end

/-! ## Programs -/

mutual

theorem block_not_mem_flattenStmt (fresh : Nat → String → String) (frames : List Frame)
    (next : Nat) (s : Stmt) (statements : List Stmt) :
    .block statements ∉ flattenStmt fresh frames next s := by
  match s with
  | .expression e => simp [flattenStmt]
  | .print e => simp [flattenStmt]
  | .declare name value => simp [flattenStmt]
  | .block inner => exact block_not_mem_flattenAll fresh _ _ inner statements

theorem block_not_mem_flattenAll (fresh : Nat → String → String) (frames : List Frame)
    (next : Nat) (program : List Stmt) (statements : List Stmt) :
    .block statements ∉ flattenAll fresh frames next program := by
  match program with
  | [] => exact List.not_mem_nil
  | s :: rest =>
      rw [flattenAll, List.mem_append, not_or]
      constructor
      · exact block_not_mem_flattenStmt fresh frames next s statements
      · exact block_not_mem_flattenAll fresh _ _ rest statements

end

/-- At the end of a run no block is left, and the global scope agrees with the flat one. -/
theorem Agree.globals {α : Type} {o o' : Outcome Fault α} (h : Agree fresh [] o o') :
    o.environment.enclosing = [] ∧ o'.environment.enclosing = [] ∧
      ∀ key : Key, (∀ b x, key ≠ .text (fresh b x)) →
        o'.environment.current.get? key = o.environment.current.get? key := by
  obtain ⟨flat, frames, henv, hholds, hlength, _⟩ := h.holds
  rw [List.length_nil, List.length_eq_zero_iff] at hlength
  subst hlength
  rw [henv]
  generalize o.environment = env at hholds ⊢
  obtain ⟨current, enclosing⟩ := env
  match enclosing, hholds with
  | [], hholds =>
      refine ⟨rfl, rfl, ?_⟩
      intro key hkey
      exact (hholds key hkey).symm

/-- A program and its flattening print the same lines in the same order, both finish or
both stop with the same fault, and in both cases they leave the same values in all global
names that are no new spellings.  That is so for every stream of output; the trace tells the
spellings and the depths, and is kept in memory. -/
theorem flatten_equivalent (level : Nat) (output : Stream) (globals : Scope)
    (program : List Stmt) (fresh : FreshNames globals program) :
    let mode : Mode := ⟨level, output, .memory⟩
    let flat := flatten fresh.name program
    let nested := executeAll mode (Stmt.nodes program) ⟨globals, []⟩
    let flattened := executeAll mode (Stmt.nodes flat) ⟨globals, []⟩
    (∀ statements, .block statements ∉ flat) ∧
    outputs flattened.events = outputs nested.events ∧
    flattened.result.map (fun _ => ()) = nested.result.map (fun _ => ()) ∧
    nested.environment.enclosing = [] ∧ flattened.environment.enclosing = [] ∧
    ∀ key : Key, (∀ b x, key ≠ .text (fresh.name b x)) →
      flattened.environment.current.get? key = nested.environment.current.get? key := by
  intro mode flat nested flattened
  have hnames : ∀ x ∈ Program.names program, IsOld fresh.name x := by
    rintro x hx b y rfl
    exact fresh.not_written b y hx
  have hstart : Holds fresh.name globals [] (Environment.scopes ⟨globals, []⟩) := fun _ _ => rfl
  have hagree : Agree fresh.name (framesAfterAll program [])
      (interpretAll mode (Stmt.nodes program) ⟨globals, []⟩)
      (interpretAll mode (Stmt.nodes flat) ⟨globals, []⟩) :=
    agree_interpretAll rfl fresh.injective program hnames List.nodup_nil (fun _ h => nomatch h)
      hstart
  rw [List.eq_nil_of_length_eq_zero (length_framesAfterAll program [])] at hagree
  obtain ⟨houtput, henv, hend⟩ :=
    executeAll_eq_interpretAll mode (Stmt.nodes program) ⟨globals, []⟩
  obtain ⟨houtput', henv', hend'⟩ :=
    executeAll_eq_interpretAll mode (Stmt.nodes flat) ⟨globals, []⟩
  refine ⟨block_not_mem_flattenAll _ _ _ program, ?_, ?_, ?_⟩
  · rw [houtput', houtput, hagree.output]
  · rw [hend', hend, hagree.result]
  · rw [henv', henv]
    exact hagree.globals

/-- A block that uses a global name, then declares it, with a block inside that does so too. -/
def shadowing : Program :=
  let a : Token := ⟨.identifier, "a", some (.text "a"), some 1⟩
  let declare (text : String) : Stmt := .declare a (some (.literal (.text text)))
  let print : Stmt := .print (.variable a)
  [declare "global", .block [print, declare "outer", .block [print, declare "inner", print], print],
    print]

theorem flatten_shadowing :
    let flat := flatten (freshNames [] shadowing).name shadowing
    outputs (executeAll (.ofLevel 0) (Stmt.nodes flat) ⟨[], []⟩).events =
      ["global", "outer", "inner", "outer", "global"] :=
  (flatten_equivalent 0 .memory [] shadowing (freshNames [] shadowing)).2.1.trans (by rfl)

end Scoping

end MiniLox
