import MiniLox.Proofs.Grammar.Contents
import MiniLox.Proofs.Session.Joining

/-!
# How runs end

The run of a source ends in one of four ways.  Its characters have problems, or its syntax
has, and then it writes a report of each of them and changes nothing; or it fails at an
operator or at a name, with a fault that tells the line; or it comes to its end.

The texts in a source are plain.  A session that begins with plain values keeps them plain, and
no stream refuses what it writes.
-/

namespace MiniLox

/-- The value that a token of a source carries is plain. -/
theorem Lexer.isPlain_of_mem_lex {line : Nat} {t : Token} {source : List Char}
    (h : t ∈ (Lexer.lex line source).1) : ∀ v, t.literal = some v → v.IsPlain := by
  obtain ⟨_, _, _, -, houtcome, hblank, hcomment⟩ := Lexer.exists_outcome_of_mem_lex h
  rcases Lexer.outcome_cases houtcome with
    ⟨k, -, rfl⟩ | rfl | rfl | rfl | ⟨-, hshape | hshape⟩
  · nofun
  · rintro _ ⟨⟩
    exact Text.isPlain_ofString _
  · rintro _ ⟨⟩
    exact Text.isPlain_ofString _
  · rintro _ ⟨⟩
    exact Text.isPlain_ofString _
  · exact (hcomment hshape).elim
  · exact (hblank hshape).elim

theorem IsProgram.isPlain {source : String} {p : Program} (h : IsProgram source p) :
    ∀ v ∈ Node.literalsAll (Stmt.nodes p), v.IsPlain := by
  obtain ⟨t, rfl, htokens⟩ := h.exists_tree
  have hwords : Grammar.HoldsOfWords Value.IsPlain :=
    ⟨Evaluation.isPlain_boolean, Evaluation.isPlain_nil⟩
  exact t.forall_literals hwords fun u hu => Lexer.isPlain_of_mem_lex (htokens u hu)

namespace Session

/-- The ways in which the run of a source ends. -/
inductive Ending where
  /-- Some characters of the source are at fault. -/
  | lexical
  /-- The syntax of the source is at fault. -/
  | syntactic
  /-- The program fails while it runs. -/
  | failed
  | completed
deriving DecidableEq

/-- What it is for the run of a source to end in a way. -/
def EndsIn (level : Nat) (source : String) (env : Environment) (o : Outcome Error Unit) :
    Ending → Prop
  | .lexical =>
    let scan := Lexer.scan source
    scan.errors ≠ [] ∧
      o = ⟨scan.errors.map fun e => .output (Error.ofLexical e).message, env,
        .error (.scan (1 + Lexer.lineEnds source.toList))⟩
  | .syntactic =>
    let errors := (Program.parse (Lexer.scan source).tokens).2
    (Lexer.scan source).errors = [] ∧ ∃ h : errors ≠ [],
      o = ⟨errors.map fun e => .output (Error.ofSyntax e).message, env,
        .error (Error.ofSyntax (errors.getLast h))⟩
  | .failed => ∃ program t fault line, IsProgram source program ∧
    Evaluation.ProgramFailsAt level env program t fault ∧
      o.result = .error (.fault fault) ∧ fault.isProgramFault ∧
        t.line = some line ∧ fault.line = .whole line
  | .completed => IsClean source ∧ o.result = .ok ()

variable {level : Nat} {source : String} {env : Environment} {o : Outcome Error Unit}

/-- The way in which a run ends, read off the errors of its source and its result. -/
def Ending.of (source : String) (o : Outcome Error Unit) : Ending :=
  if (Lexer.scan source).errors ≠ [] then .lexical
  else if (Program.parse (Lexer.scan source).tokens).2 ≠ [] then .syntactic
  else match o.result with
    | .ok _ => .completed
    | .error _ => .failed

theorem Ending.of_isClean (h : IsClean source) :
    Ending.of source o = match o.result with
      | .ok _ => .completed
      | .error _ => .failed := by
  rw [Ending.of, if_neg (not_not_intro h.1), if_neg (not_not_intro h.2)]

theorem EndsIn.eq_of {ending : Ending} (h : EndsIn level source env o ending) :
    ending = Ending.of source o := by
  cases ending with
  | lexical => rw [Ending.of, if_pos h.1]
  | syntactic =>
      obtain ⟨hscan, hparse, -⟩ := h
      rw [Ending.of, if_neg (not_not_intro hscan), if_pos hparse]
  | failed =>
      obtain ⟨program, _, _, _, hprogram, -, hresult, -⟩ := h
      rw [Ending.of_isClean (isClean_iff.mpr ⟨program, hprogram⟩), hresult]
  | completed => rw [Ending.of_isClean h.1, h.2]

/-! ## Runs -/

theorem report_fail {α : Type} (errors : List Error) (e : Error) :
    (do report errors; Action.fail e : Action Error α) env =
      ⟨errors.map fun e => .output e.message, env, .error e⟩ := by
  have hreport : (report errors env).result = .ok () := rfl
  rw [Action.bind_ok hreport]
  change (⟨(report errors env).events ++ [], env, .error e⟩ : Outcome Error α) = _
  rw [List.append_nil]
  rfl

theorem program_of_scan_errors (h : (Lexer.scan source).errors ≠ []) :
    program source env =
      ⟨(Lexer.scan source).errors.map fun e => .output (Error.ofLexical e).message, env,
        .error (.scan (1 + Lexer.lineEnds source.toList))⟩ := by
  have htokens : tokens source env =
      ⟨(Lexer.scan source).errors.map fun e => .output (Error.ofLexical e).message, env,
        .error (.scan (1 + Lexer.lineEnds source.toList))⟩ := by
    rw [tokens, if_neg (by rwa [List.isEmpty_iff]), report_fail, List.map_map]
    rfl
  rw [program, Action.bind_error (by rw [htokens]), htokens]

theorem program_of_parse_errors (hscan : (Lexer.scan source).errors = [])
    (h : (Program.parse (Lexer.scan source).tokens).2 ≠ []) :
    program source env =
      ⟨(Program.parse (Lexer.scan source).tokens).2.map fun e =>
          .output (Error.ofSyntax e).message, env,
        .error (Error.ofSyntax ((Program.parse (Lexer.scan source).tokens).2.getLast h))⟩ := by
  have htokens : tokens source = pure (Lexer.scan source).tokens := by
    rw [tokens, hscan]
    rfl
  rw [program, htokens, pure_bind]
  dsimp only
  rw [List.getLast?_eq_some_getLast h]
  dsimp only
  rw [report_fail, List.map_map]
  rfl

/-- A source with errors ends before it runs. -/
theorem exists_program_error (h : ¬IsClean source) (env : Environment) :
    ∃ events e, program source env = ⟨events, env, .error e⟩ := by
  by_cases hscan : (Lexer.scan source).errors = []
  · have hparse : (Program.parse (Lexer.scan source).tokens).2 ≠ [] := fun hnil => h ⟨hscan, hnil⟩
    exact ⟨_, _, program_of_parse_errors hscan hparse⟩
  · exact ⟨_, _, program_of_scan_errors hscan⟩

theorem run_of_program_error {mode : Mode} {events : List Event} {env' : Environment} {e : Error}
    (h : program source env = ⟨events, env', .error e⟩) :
    run mode source env = ⟨events, env', .error e⟩ := by
  rw [run, Action.bind_error (by rw [h]), h]

/-- From plain values, a source is run in the same way on every stream. -/
theorem run_eq_of_isPlain (mode : Mode) (source : String) (h : env.Holds Value.IsPlain) :
    run mode source env = run mode.level source env := by
  by_cases hclean : IsClean source
  · obtain ⟨p, hp⟩ := isClean_iff.mp hclean
    have hexecute : Evaluation.execute mode (Stmt.nodes p) env =
        Evaluation.execute mode.level (Stmt.nodes p) env :=
      Evaluation.execute_eq_of_isPlain (Evaluation.isPlain_marksAll p) hp.isPlain h
    rw [run_of_isProgram hp, run_of_isProgram hp]
    simp only [execute, Action.mapError, hexecute]
  · obtain ⟨events, e, hprogram⟩ := exists_program_error hclean env
    rw [run_of_program_error hprogram, run_of_program_error hprogram]

/-- A run leaves values with a property where it has found such values, if the operators keep the
property and the literals of the source have it. -/
theorem holds_run {Q : Value → Prop} (hkept : Evaluation.IsKept Q) (mode : Mode)
    (hliterals : ∀ p, IsProgram source p → ∀ v ∈ Node.literalsAll (Stmt.nodes p), Q v)
    (h : env.Holds Q) : (run mode source env).environment.Holds Q := by
  by_cases hclean : IsClean source
  · obtain ⟨p, hp⟩ := isClean_iff.mp hclean
    have hupholds : Evaluation.Upholds mode (fun _ => True) Q (fun _ => True)
        (Evaluation.execute mode (Stmt.nodes p)) :=
      Evaluation.upholds_execute hkept _ (fun _ _ => trivial) (hliterals p hp)
    rw [run_of_isProgram hp]
    exact (hupholds env h).environment
  · obtain ⟨events, e, hprogram⟩ := exists_program_error hclean env
    rw [run_of_program_error hprogram]
    exact h

theorem endsIn_run (level : Nat) (source : String) (env : Environment) :
    ∃ ending, EndsIn level source env (run level source env) ending := by
  by_cases hscan : (Lexer.scan source).errors = []
  · by_cases hparse : (Program.parse (Lexer.scan source).tokens).2 = []
    · cases hresult : (run level source env).result with
      | ok _ => exact ⟨.completed, ⟨hscan, hparse⟩, hresult⟩
      | error e =>
          obtain ⟨program, hprogram⟩ := isClean_iff.mp ⟨hscan, hparse⟩
          have hexecute := hresult
          rw [run_of_isProgram hprogram, execute, Action.result_mapError] at hexecute
          obtain ⟨fault, hfault, rfl⟩ := error_of_mapError hexecute
          obtain ⟨t, line, hfails, ht, hkind, hline⟩ :=
            Evaluation.exists_failsAt hprogram.isComplete hfault
          exact ⟨.failed, program, t, fault, line, hprogram, hfails, hresult, hkind, ht, hline⟩
    · exact ⟨.syntactic, hscan, hparse, run_of_program_error (program_of_parse_errors hscan hparse)⟩
  · exact ⟨.lexical, hscan, run_of_program_error (program_of_scan_errors hscan)⟩

end Session

end MiniLox
