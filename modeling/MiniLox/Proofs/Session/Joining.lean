import MiniLox.Proofs.Execution.Streams
import MiniLox.Proofs.Grammar.Joining
import MiniLox.Proofs.Session.Faults
import MiniLox.Proofs.Session.Later

/-!
# Sessions as one source

Sources that are scanned and read without an error can be joined by line ends.  The joined
source is scanned and read without an error too, and to run it is to run the sources one
after another, except that the faults of each tell the line at which they stand in the
joined source.

A prompt that is given these sources, and at which none of them fails, writes what the
joined source writes, and besides only a line for every interrupt and one at the end.
-/

namespace MiniLox

open Grammar

/-- The program of two sources with a line end between them. -/
theorem IsProgram.append {a b : String} {p q : Program} (ha : IsProgram a p)
    (hb : IsProgram b q) :
    IsProgram (a ++ "\n" ++ b)
      (p ++ Program.mapTokens (Token.later (1 + Lexer.lineEnds a.toList)) q) := by
  obtain ⟨s, hp, hs⟩ := isProgram_iff.mp ha
  obtain ⟨t, rfl, ht⟩ := isProgram_iff.mp hb
  have hsource : (a ++ "\n" ++ b).toList = a.toList ++ '\n' :: b.toList := by
    simp only [String.toList_append, List.append_assoc]
    rfl
  have hkeeps := keepsKinds_later (1 + Lexer.lineEnds a.toList)
  refine isProgram_iff.mpr ⟨s.append (t.exchange hkeeps), ?_, ?_⟩
  · exact Tree.append_meaning s _ hp (Tree.meaning_exchange _ t)
  · rw [hsource, Lexer.lex_append_newline (by rw [hs]), Lexer.lex_later, hs, ht,
      Tree.append_tokens, Tree.tokens_exchange]
    rfl

theorem isProgram_empty : IsProgram "" [] := by
  refine isProgram_iff.mpr ⟨.nothing, rfl, ?_⟩
  exact Lexer.lex_nil 1

namespace Session

variable {mode : Mode} {env : Environment}

/-- A source is scanned and read without an error. -/
def IsClean (source : String) : Prop :=
  (Lexer.scan source).errors = [] ∧ (Program.parse (Lexer.scan source).tokens).2 = []

theorem isClean_iff {source : String} : IsClean source ↔ ∃ p, IsProgram source p := by
  constructor
  · rintro ⟨hscan, hparse⟩
    exact ⟨_, hscan, Prod.ext rfl hparse⟩
  · rintro ⟨p, hscan, hparse⟩
    exact ⟨hscan, by rw [hparse]⟩

/-! ## Two sources -/

theorem program_of_isProgram {source : String} {p : Program} (h : IsProgram source p) :
    program source = pure p := by
  obtain ⟨hscan, hparse⟩ := h
  have htokens : tokens source = pure (Lexer.scan source).tokens := by
    rw [tokens, hscan]
    rfl
  rw [program, htokens, pure_bind, hparse]
  rfl

/-- A source without errors is run statement by statement. -/
theorem run_of_isProgram {source : String} {p : Program} (h : IsProgram source p) :
    run mode source = execute mode (Stmt.nodes p) := by
  rw [run, program_of_isProgram h, pure_bind]

/-- A source without errors fails only while it runs, and at one of its lines, or at a line that
a stream refuses. -/
theorem error_of_run {source : String} (h : IsClean source) {e : Error}
    (he : (run mode source env).result = .error e) :
    (∃ event, e = .fault (.unwritable event) ∧ mode.takes event = false) ∨
      e.isRuntime ∧ ∃ line : Nat, e.line = .whole line ∧
        ∀ lines, (e.later lines).line = .whole (line + lines) := by
  obtain ⟨p, hp⟩ := isClean_iff.mp h
  rw [run_of_isProgram hp, execute, Action.result_mapError] at he
  obtain ⟨fault, hresult, rfl⟩ := error_of_mapError he
  rcases Evaluation.execute_isStopped_or_eq mode (Stmt.nodes p) env with
    ⟨event, hstopped, htakes⟩ | heq
  · cases hresult.symm.trans hstopped
    exact Or.inl ⟨event, rfl, htakes⟩
  · rw [heq] at hresult
    obtain ⟨_, line, -, -, hfault, hline⟩ := Evaluation.exists_failsAt hp.isComplete hresult
    refine Or.inr ⟨hfault, line, hline, ?_⟩
    intro lines
    rw [Error.later, Error.line, Fault.line_later hfault, hline, Json.later]

theorem execute_append (a b : List Node) :
    execute mode (a ++ b) = execute mode a >>= fun _ => execute mode b := by
  rw [execute, Evaluation.execute_append, Action.mapError_bind]
  rfl

theorem execute_later (lines : Nat) (statements : List Stmt) :
    execute mode (Stmt.nodes (Program.mapTokens (Token.later lines) statements)) =
      (execute mode (Stmt.nodes statements)).mapError (Error.later lines) := by
  rw [execute, Evaluation.execute_later, execute, Action.mapError_mapError,
    Action.mapError_mapError]
  rfl

/-- To run two sources with a line end between them is to run the first, and after it,
unless it failed, the second. -/
theorem run_append {a b : String} (ha : IsClean a) (hb : IsClean b) :
    run mode (a ++ "\n" ++ b) = run mode a >>= fun _ =>
      (run mode b).mapError (Error.later (1 + Lexer.lineEnds a.toList)) := by
  obtain ⟨p, hp⟩ := isClean_iff.mp ha
  obtain ⟨q, hq⟩ := isClean_iff.mp hb
  rw [run_of_isProgram (hp.append hq), run_of_isProgram hp, run_of_isProgram hq,
    Stmt.nodes_append, execute_append, execute_later]

theorem IsClean.append {a b : String} (ha : IsClean a) (hb : IsClean b) :
    IsClean (a ++ "\n" ++ b) := by
  obtain ⟨p, hp⟩ := isClean_iff.mp ha
  obtain ⟨q, hq⟩ := isClean_iff.mp hb
  exact isClean_iff.mpr ⟨_, hp.append hq⟩

/-! ## Many sources -/

/-- The sources among the lines at a prompt. -/
def sources : List PromptLine → List String
  | [] => []
  | .source text :: rest => text :: sources rest
  | .interrupt :: rest => sources rest

/-- Runs sources one after another. -/
def runAll (mode : Mode) : List String → Action Error Unit
  | [] => return ()
  | source :: rest => do
    run mode source
    runAll mode rest

/-- What each of some sources writes, when they are run one after another. -/
def writings (mode : Mode) : List String → Environment → List (List Event)
  | [], _ => []
  | source :: rest, env =>
    (run mode source env).events :: writings mode rest (run mode source env).environment

/-- What the sources among the lines at a prompt write, with a line for every interrupt in
its place. -/
def weave : List PromptLine → List (List Event) → List Event
  | .source _ :: rest, first :: written => first ++ weave rest written
  | .interrupt :: rest, written => .output "Ctrl-C" :: weave rest written
  | _, _ => []

theorem length_writings (all : List String) (env : Environment) :
    (writings mode all env).length = all.length := by
  induction all generalizing env with
  | nil => rfl
  | cons source rest ih => exact congrArg Nat.succ (ih _)

/-- If no source fails, none of the first ones does, and they write their share. -/
theorem runAll_take {all : List String} (h : (runAll mode all env).result = .ok ())
    (k : Nat) :
    (runAll mode (all.take k) env).result = .ok () ∧
      (runAll mode (all.take k) env).events = ((writings mode all env).take k).flatten := by
  induction all generalizing env k with
  | nil =>
      rw [List.take_nil, writings, List.take_nil]
      exact ⟨rfl, rfl⟩
  | cons source rest ih =>
      match k with
      | 0 => exact ⟨rfl, rfl⟩
      | k + 1 =>
          obtain ⟨_, hfirst, hrest⟩ := Action.exists_of_bind_eq_ok h
          obtain ⟨hresult, hevents⟩ := ih hrest k
          rw [List.take_succ_cons, writings, List.take_succ_cons, List.flatten_cons,
            ← hevents]
          rw [runAll, Action.bind_ok hfirst]
          exact ⟨hresult, rfl⟩

theorem isClean_intercalate {all : List String} (h : ∀ source ∈ all, IsClean source) :
    IsClean ("\n".intercalate all) := by
  induction all with
  | nil => exact isClean_iff.mpr ⟨[], isProgram_empty⟩
  | cons source rest ih =>
      obtain ⟨hsource, hrest⟩ := List.forall_mem_cons.mp h
      match rest with
      | [] => exact hsource
      | next :: others =>
          rw [String.intercalate_cons_cons]
          exact hsource.append (ih hrest)

/-- As long as none of them fails, sources without errors that are joined are run one after
another. -/
theorem run_intercalate {all : List String} (hclean : ∀ source ∈ all, IsClean source)
    (h : (runAll mode all env).result = .ok ()) :
    run mode ("\n".intercalate all) env = runAll mode all env := by
  induction all generalizing env with
  | nil =>
      change run mode "" env = _
      rw [run_of_isProgram isProgram_empty]
      rfl
  | cons source rest ih =>
      obtain ⟨hsource, hrest⟩ := List.forall_mem_cons.mp hclean
      match rest with
      | [] =>
          rw [runAll, runAll, bind_pure_unit]
          rfl
      | next :: others =>
          obtain ⟨_, hfirst, hlast⟩ := Action.exists_of_bind_eq_ok h
          have hjoined := ih hrest hlast
          rw [String.intercalate_cons_cons, run_append hsource (isClean_intercalate hrest),
            runAll, Action.bind_ok hfirst, Action.bind_ok hfirst, Action.mapError,
            hjoined, hlast]
          rfl

/-! ## The prompt -/

theorem promptStep_source_of_ok {source : String} (h : (run mode source env).result = .ok ()) :
    promptStep mode (.source source) env = run mode source env := by
  rw [promptStep]
  dsimp only
  rw [h]

theorem prompt_cons_of_ok {line : PromptLine} {rest : List PromptLine}
    {o : Outcome Error Unit} (ho : promptStep mode line env = o) (h : o.result = .ok ()) :
    prompt mode (line :: rest) env =
      (⟨o.events ++ (prompt mode rest o.environment).1.events,
        (prompt mode rest o.environment).1.environment,
        (prompt mode rest o.environment).1.result⟩, (prompt mode rest o.environment).2) := by
  rw [prompt]
  dsimp only
  rw [ho, h]

/-- If no source fails, the prompt takes all lines, and leaves what the sources leave. -/
theorem prompt_of_ok {lines : List PromptLine}
    (h : (runAll mode (sources lines) env).result = .ok ()) :
    prompt mode lines env =
      (⟨weave lines (writings mode (sources lines) env) ++ [.output "Goodbye"],
        (runAll mode (sources lines) env).environment, .ok ()⟩, []) := by
  induction lines generalizing env with
  | nil => rfl
  | cons line rest ih =>
      cases line with
      | interrupt =>
          have hstep : promptStep mode .interrupt env =
              (⟨[.output "Ctrl-C"], env, .ok ()⟩ : Outcome Error Unit) := rfl
          rw [prompt_cons_of_ok hstep rfl, ih h]
          rfl
      | source text =>
          obtain ⟨_, hfirst, hlast⟩ := Action.exists_of_bind_eq_ok h
          rw [prompt_cons_of_ok (promptStep_source_of_ok hfirst) hfirst, ih hlast, sources,
            runAll, Action.bind_ok hfirst, writings, weave, List.append_assoc]

/-- A session may be cut between any two sources without errors: joined by a line end, they
have no errors either, and do what they do one after another, faults of the second telling
later lines, unless a stream refuses a line.  And a prompt, at which none of the sources fails,
writes and leaves what the source of all of them does, with a line for every interrupt in its
place and one at the end. -/
theorem run_joined (mode : Mode) :
    (∀ a b, IsClean a → IsClean b →
      let lines := 1 + Lexer.lineEnds a.toList
      IsClean (a ++ "\n" ++ b) ∧
      run mode (a ++ "\n" ++ b) =
        (run mode a >>= fun _ => (run mode b).mapError (Error.later lines)) ∧
      ∀ env e, (run mode b env).result = .error e →
        (∃ event, e = .fault (.unwritable event) ∧ mode.takes event = false) ∨
          e.isRuntime ∧
            ∃ line : Nat, e.line = .whole line ∧ (e.later lines).line = .whole (line + lines)) ∧
    ∀ lines env, (∀ source ∈ sources lines, IsClean source) →
      (runAll mode (sources lines) env).result = .ok () →
      (run mode ("\n".intercalate (sources lines)) env).result = .ok () ∧
      ∃ written, written.length = (sources lines).length ∧
        (∀ k, (run mode ("\n".intercalate ((sources lines).take k)) env).events =
          (written.take k).flatten) ∧
        prompt mode lines env =
          (⟨weave lines written ++ [.output "Goodbye"],
            (run mode ("\n".intercalate (sources lines)) env).environment, .ok ()⟩, []) := by
  constructor
  · intro a b ha hb lines
    refine ⟨ha.append hb, run_append ha hb, ?_⟩
    intro env e he
    rcases error_of_run hb he with hrefused | ⟨hruntime, line, hline, hlater⟩
    · exact Or.inl hrefused
    · exact Or.inr ⟨hruntime, line, hline, hlater lines⟩
  · intro lines env hclean hok
    rw [run_intercalate hclean hok]
    refine ⟨hok, writings mode (sources lines) env, length_writings _ _, ?_, prompt_of_ok hok⟩
    intro k
    obtain ⟨hresult, hevents⟩ := runAll_take hok k
    rw [run_intercalate (fun source hsource => hclean source (List.mem_of_mem_take hsource))
      hresult, hevents]

/-- A session of two sources, with an interrupt between them. -/
theorem run_joined_interrupted :
    (prompt (.ofLevel 0) [.source "var s = \"hi\";", .interrupt, .source "print s;"]
        .empty).1.events =
      [.output "Ctrl-C", .output "hi", .output "Goodbye"] := by
  have hclean : ∀ source ∈ ["var s = \"hi\";", "print s;"], IsClean source := by
    simp only [List.forall_mem_cons, List.not_mem_nil, IsClean]
    refine ⟨⟨?_, ?_⟩, ⟨?_, ?_⟩, nofun⟩ <;> decide +kernel
  have hok : (runAll (.ofLevel 0) ["var s = \"hi\";", "print s;"] .empty).result.isOk := by
    decide +kernel
  obtain ⟨-, written, hlength, hevents, hprompt⟩ := (run_joined (.ofLevel 0)).2
    [.source "var s = \"hi\";", .interrupt, .source "print s;"] .empty hclean
    (eq_ok_of_isOk hok)
  obtain ⟨first, second, rfl⟩ := List.length_eq_two.mp hlength
  have hfirst : (run (.ofLevel 0) "var s = \"hi\";" .empty).events = first ++ [] := hevents 1
  have hboth : (run (.ofLevel 0) "var s = \"hi\";\nprint s;" .empty).events =
      first ++ (second ++ []) :=
    hevents 2
  have hnone : (run (.ofLevel 0) "var s = \"hi\";" .empty).events = [] := by
    decide +kernel
  have hsome : (run (.ofLevel 0) "var s = \"hi\";\nprint s;" .empty).events = [.output "hi"] := by
    decide +kernel
  rw [hnone, List.append_nil] at hfirst
  rw [hsome, ← hfirst, List.nil_append, List.append_nil] at hboth
  rw [hprompt, ← hfirst, ← hboth]
  rfl

end Session

end MiniLox
