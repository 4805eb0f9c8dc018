import MiniLox.Proofs.CommandLine.Invocation
import MiniLox.Proofs.Execution.Stuck
import MiniLox.Proofs.Json.Equality
import MiniLox.Proofs.Json.Printer
import MiniLox.Proofs.Node.Codec
import MiniLox.Proofs.Text.Utf8

/-!
# Exit statuses of stored trees

The exit status of a stored tree tells how its run ended, and everything that goes wrong with
it has one: that is the contract of the command line.  It is kept by every file, whatever its
octets are, but four kinds of them.  A whole number in the tree may be beyond the
floating-point numbers, the tree may be no list of statements, or its run may get stuck; and the
line that tells the error may not be plain, so that it cannot be written.  In each of these
cases an error leaves the program without an exit status.

A line of output or of trace that cannot be written keeps the contract: the error that this
causes has a plain line of its own.
-/

namespace MiniLox

open Evaluation (Moment Occurs)

namespace CommandLine

variable {level : Nat} {disk : Disk} {env : Environment} {path : String}

/-- The tree that the octets of a file hold, or why they hold none. -/
def treeOf (octets : List UInt8) : Except InputFault Node :=
  match Text.decode octets with
  | .error fault => .error (.encoding fault)
  | .ok text => Session.loadTree (String.ofList (Text.unifyLineEnds text))

/-- The contract of the command line for what was found in a file.  A program that runs to its
end has status 0; one that fails has status 65, and shows its error behind what it has written;
everything else that goes wrong has status 70 and one line for the error. -/
def KeepsContract (level : Nat) (found : Except InputFault Node) (r : Response) : Prop :=
  match found with
  | .error fault => r.ending = .ok 70 ∧ r.output = ["Error: " ++ fault.message]
  | .ok tree =>
    let run := Evaluation.executeTree (.utf8 level) tree .empty
    match run.result with
    | .ok () => r.ending = .ok 0 ∧ r.output = outputs run.events
    | .error fault =>
      if fault.isProgramFault then
        r.ending = .ok 65 ∧ r.output = outputs run.events ++ [fault.message]
      else r.ending = .ok 70 ∧ ∃ line, r.output = outputs run.events ++ [line]

/-- What was found in a file leaves the program without an exit status. -/
inductive LacksStatus (level : Nat) : Except InputFault Node → Prop where
  | outOfRange : LacksStatus level (.error (.tree .outOfRange))
  | noLine {fault : InputFault} (hline : fault.message.isPlain = false) :
      LacksStatus level (.error fault)
  | noStatements {tree : Node} (h : ∀ statements, tree ≠ .list statements) :
      LacksStatus level (.ok tree)
  | stuck {statements : List Node} {m : Moment} {fault : Fault}
      (hoccurs : Occurs (.utf8 level) statements .empty m)
      (hstuck : m.IsStuck (.utf8 level) fault) :
      LacksStatus level (.ok (.list statements))
  | noLineAtEnd {statements : List Node} {fault : Fault}
      (hresult : (Evaluation.execute (.utf8 level) statements .empty).result = .error fault)
      (hfault : fault.isProgramFault) (hline : fault.message.isPlain = false) :
      LacksStatus level (.ok (.list statements))

/-! ## Running what was found -/

/-- The response to what was found in a file. -/
def responseTo (level : Nat) (found : Except InputFault Node) : Response :=
  match found with
  | .error fault => .ofError .utf8 (.input fault)
  | .ok tree =>
    let run := Evaluation.executeTree (.utf8 level) tree .empty
    .of .utf8 run.events none (run.result.mapError Error.fault)

theorem runDocument_apply (mode : Mode) (document : String) (env : Environment) :
    Session.runDocument mode document env =
      match Session.loadTree document with
      | .error fault => ⟨[], env, .error (.input fault)⟩
      | .ok tree => ((Evaluation.executeTree mode tree).mapError Error.fault) env := by
  rw [Session.runDocument]
  cases Session.loadTree document <;> rfl

theorem responseTo_loadTree (level : Nat) (document : String) :
    Response.ofOutcome .utf8 ((Session.runDocument (.utf8 level) document >>= fun _ => pure none :
        Action Error (Option Writing)) .empty) =
      responseTo level (Session.loadTree document) := by
  rw [ofOutcome_bind_none, runDocument_apply]
  cases Session.loadTree document <;> rfl

theorem runTree_of_read {octets : List UInt8} (h : disk.read path = .ok octets) :
    Response.ofOutcome .utf8 (runTree disk (.utf8 level) path .empty) =
      responseTo level (treeOf octets) := by
  rw [runTree, readText, h, treeOf]
  dsimp only
  cases Text.decode octets with
  | error fault => rfl
  | ok text => exact responseTo_loadTree level _

/-! ## How errors end -/

theorem isPlain_error {line : Text} : (Text.ofString "Error: " ++ line).isPlain = line.isPlain := by
  rw [Text.isPlain_append, Text.isPlain_ofString, Bool.true_and]

theorem showLast_utf8_of_not_isPlain (e : Error) {line : Text} (h : line.isPlain = false) :
    showLast .utf8 e line = .error (.fault (.unwritable (.output line))) :=
  if_neg (Bool.eq_false_iff.mp h)

theorem conclude_input {fault : InputFault} (h : fault ≠ .tree .outOfRange) :
    conclude .utf8 (.input fault) =
      showLast .utf8 (.input fault) ("Error: " ++ fault.message) := by
  cases fault with
  | tree fault =>
      cases fault with
      | outOfRange => exact (h rfl).elim
      | _ => rfl
  | _ => rfl

theorem conclude_unwritable (event : Event) :
    conclude .utf8 (.fault (.unwritable event)) =
      .ok (some ("Error: " ++ event.line.refusal), 70) :=
  showLast_of_isPlain .utf8 _ (isPlain_error.trans (Text.isPlain_ofString _))

theorem conclude_fault_of_not_isPlain {fault : Fault} (h : fault.isProgramFault)
    (hline : fault.message.isPlain = false) :
    conclude .utf8 (.fault fault) = .error (.fault (.unwritable (.output fault.message))) := by
  cases fault with
  | typeMismatch => exact showLast_utf8_of_not_isPlain _ hline
  | undefinedVariable => exact showLast_utf8_of_not_isPlain _ hline
  | _ => cases h

theorem conclude_fault_of_not {fault : Fault} (h : fault.isProgramFault = false)
    (hwritten : ∀ event, fault ≠ .unwritable event) :
    conclude .utf8 (.fault fault) = .error (.fault fault) := by
  cases fault with
  | unwritable event => exact (hwritten event rfl).elim
  | typeMismatch => cases h
  | undefinedVariable => cases h
  | _ => rfl

/-! ## The contract -/

theorem KeepsContract.exists_status {found : Except InputFault Node} {r : Response}
    (h : KeepsContract level found r) : ∃ status, r.ending = .ok status := by
  cases found with
  | error fault => exact ⟨_, h.1⟩
  | ok tree =>
      simp only [KeepsContract] at h
      split at h
      · exact ⟨_, h.1⟩
      · split at h
        · exact ⟨_, h.1⟩
        · exact ⟨_, h.1⟩

/-- A list of statements leaves the program without a status if and only if its run ends in a
fault that no program of a source can have, or in one that cannot be told. -/
theorem lacksStatus_list_iff {statements : List Node} :
    LacksStatus level (.ok (.list statements)) ↔
      ∃ fault, (Evaluation.execute (.utf8 level) statements .empty).result = .error fault ∧
        (fault.isProgramFault = false ∧ (∀ event, fault ≠ .unwritable event) ∨
          fault.isProgramFault ∧ fault.message.isPlain = false) := by
  constructor
  · intro h
    cases h with
    | noStatements h => exact (h statements rfl).elim
    | @stuck _ m fault hoccurs hstuck =>
        refine ⟨fault, ?_, Or.inl ⟨hstuck.isProgramFault, hstuck.ne_unwritable⟩⟩
        exact (Evaluation.execute_eq_error_iff_isStuck hstuck.isProgramFault
          hstuck.ne_unwritable statements).mpr ⟨m, hoccurs, hstuck⟩
    | noLineAtEnd hresult hfault hline => exact ⟨_, hresult, Or.inr ⟨hfault, hline⟩⟩
  · rintro ⟨fault, hresult, ⟨hfault, hwritten⟩ | ⟨hfault, hline⟩⟩
    · obtain ⟨m, hoccurs, hstuck⟩ :=
        (Evaluation.execute_eq_error_iff_isStuck hfault hwritten statements).mp hresult
      exact .stuck hoccurs hstuck
    · exact .noLineAtEnd hresult hfault hline

/-- Either the contract is kept and there is a status, or there is none. -/
def IsDecided (level : Nat) (found : Except InputFault Node) : Prop :=
  (KeepsContract level found (responseTo level found) ∧ ¬LacksStatus level found) ∨
    (LacksStatus level found ∧ ∃ e, (responseTo level found).ending = .error e)

theorem isDecided_list (level : Nat) (statements : List Node) :
    IsDecided level (.ok (.list statements)) := by
  rw [IsDecided, lacksStatus_list_iff]
  simp only [KeepsContract, responseTo, Evaluation.executeTree]
  cases (Evaluation.execute (.utf8 level) statements .empty).result with
  | ok _ =>
      left
      refine ⟨⟨rfl, rfl⟩, ?_⟩
      rintro ⟨_, h, -⟩
      cases h
  | error fault =>
      by_cases hfault : fault.isProgramFault
      · cases hline : fault.message.isPlain with
        | true =>
            left
            simp only [Response.of, Except.mapError, conclude_fault .utf8 hfault hline, hfault,
              if_true]
            refine ⟨⟨trivial, rfl⟩, ?_⟩
            rintro ⟨_, ⟨⟩, ⟨hnot, -⟩ | ⟨-, hnot⟩⟩
            · exact Bool.eq_false_iff.mp hnot hfault
            · exact Bool.eq_false_iff.mp hnot hline
        | false =>
            right
            simp only [Response.of, Except.mapError, conclude_fault_of_not_isPlain hfault hline]
            exact ⟨⟨fault, rfl, Or.inr ⟨hfault, hline⟩⟩, _, rfl⟩
      · have hnot := Bool.eq_false_iff.mpr hfault
        by_cases hwritten : ∃ event, fault = .unwritable event
        · obtain ⟨event, rfl⟩ := hwritten
          left
          simp only [Response.of, Except.mapError, conclude_unwritable, hnot,
            Bool.false_eq_true, if_false]
          refine ⟨⟨trivial, _, rfl⟩, ?_⟩
          rintro ⟨_, ⟨⟩, ⟨-, hother⟩ | ⟨hprogram, -⟩⟩
          · exact hother event rfl
          · cases hprogram
        · right
          rw [not_exists] at hwritten
          simp only [Response.of, Except.mapError, conclude_fault_of_not hnot hwritten]
          exact ⟨⟨fault, rfl, Or.inl ⟨hnot, hwritten⟩⟩, _, rfl⟩

theorem isDecided (level : Nat) (found : Except InputFault Node) : IsDecided level found := by
  cases found with
  | error fault =>
      by_cases hrange : fault = .tree .outOfRange
      · subst hrange
        exact Or.inr ⟨.outOfRange, _, rfl⟩
      · cases hline : fault.message.isPlain with
        | true =>
            left
            have hresponse : responseTo level (.error fault) =
                ⟨["Error: " ++ fault.message], .ok 70, [], none⟩ := by
              rw [responseTo, Response.ofError, Response.of, conclude_input hrange,
                showLast_of_isPlain .utf8 _ (isPlain_error.trans hline)]
              rfl
            rw [hresponse]
            refine ⟨⟨rfl, rfl⟩, fun h => ?_⟩
            cases h with
            | outOfRange => exact hrange rfl
            | noLine hnot => exact Bool.eq_false_iff.mp hnot hline
        | false =>
            refine Or.inr ⟨.noLine hline, .fault (.unwritable (.output ("Error: " ++
              fault.message))), ?_⟩
            rw [responseTo, Response.ofError, Response.of, conclude_input hrange,
              showLast_utf8_of_not_isPlain _ (isPlain_error.trans hline)]
  | ok tree =>
      cases tree with
      | list statements => exact isDecided_list level statements
      | _ => exact Or.inr ⟨.noStatements (fun _ h => nomatch h), _, rfl⟩

/-- A stored tree keeps the contract of the command line unless it leaves the program without an
exit status: a number in it is out of range, it is no list of statements, its run gets stuck, or
the line that tells its error cannot be written. -/
theorem stored_tree_keeps_contract (level : Nat) (files : Files)
    (lines : List Session.PromptLine) (path : String) (octets : List UInt8)
    (hword : Arguments.Word.ofText path = .plain path) (hpath : path ≠ "")
    (htrace : traceFault? files.disk level = none)
    (hread : (prepared level files).read path = .ok octets) :
    let response := (invoke (List.replicate level "-v" ++ ["--ast", path]) files lines).1
    (KeepsContract level (treeOf octets) response ↔ ¬LacksStatus level (treeOf octets)) ∧
      (LacksStatus level (treeOf octets) ↔ ∃ e, response.ending = .error e) := by
  intro response
  have hresponse : response = responseTo level (treeOf octets) :=
    (invoke_tree hword hpath htrace).trans (runTree_of_read hread)
  rw [hresponse]
  rcases isDecided level (treeOf octets) with ⟨hkeeps, hnot⟩ | ⟨hlacks, e, he⟩
  · refine ⟨iff_of_true hkeeps hnot, iff_of_false hnot ?_⟩
    rintro ⟨e, he⟩
    obtain ⟨status, hstatus⟩ := hkeeps.exists_status
    rw [he] at hstatus
    cases hstatus
  · refine ⟨iff_of_false ?_ (not_not_intro hlacks), iff_of_true hlacks ⟨e, he⟩⟩
    intro hkeeps
    obtain ⟨status, hstatus⟩ := hkeeps.exists_status
    rw [he] at hstatus
    cases hstatus

/-- The document of a statement that has nothing to print. -/
def childlessTree : String := "[\x7b\"node\":\"PrintStmt\",\"expr\":null\x7d]"

/-- A file that is no document, and one with a statement that has nothing to print. -/
def oddTrees : Files :=
  [(["word.json"], octetsOf "nothing"), (["child.json"], octetsOf childlessTree)]

theorem treeOf_octetsOf {text : String} (h : Text.Returnless text.toList) :
    treeOf (octetsOf text) = Session.loadTree text := by
  rw [treeOf, Text.decode_octetsOf]
  dsimp only
  rw [Text.chars_ofString, Text.unifyLineEnds_of_returnless h, String.ofList_toList]

theorem stored_tree_of_oddTrees :
    KeepsContract 0 (treeOf (octetsOf "nothing"))
      (invoke ["--ast", "word.json"] oddTrees []).1 := by
  have hread : (prepared 0 oddTrees).read "word.json" = .ok (octetsOf "nothing") := rfl
  have hparse : Json.parse "nothing" = .error (.unexpected .value 0 1 1) := by decide +kernel
  have hfound : treeOf (octetsOf "nothing") = .error (.document (.unexpected .value 0 1 1)) := by
    rw [treeOf_octetsOf (by decide), Session.loadTree, hparse]
  refine (stored_tree_keeps_contract 0 oddTrees [] "word.json" _ rfl (by decide) rfl
    hread).1.mpr ?_
  rw [hfound]
  rintro (_ | hline)
  exact Bool.eq_false_iff.mp hline (Text.isPlain_ofString _)

/-- A missing child leaves the program without an exit status. -/
theorem missing_child_breaks_contract :
    Files.read oddTrees "child.json" = .ok (octetsOf childlessTree) ∧
      ¬KeepsContract 0 (treeOf (octetsOf childlessTree))
        (invoke ["--ast", "child.json"] oddTrees []).1 := by
  have hread : (prepared 0 oddTrees).disk.read "child.json" = .ok (octetsOf childlessTree) := rfl
  have hparse : Json.parse childlessTree =
      .ok (.array [Node.tagged "PrintStmt" [("expr", .null)]]) := by
    decide +kernel
  have hdecode := Node.decode_of_encode (n := .list [.print .null]) rfl
  have hfound : treeOf (octetsOf childlessTree) = .ok (.list [.print .null]) := by
    rw [treeOf_octetsOf (by decide), Session.loadTree, hparse]
    exact congrArg (Except.mapError InputFault.tree) hdecode
  have hresponse : (invoke ["--ast", "child.json"] oddTrees []).1 =
      responseTo 0 (.ok (.list [.print .null])) := by
    rw [← hfound, ← runTree_of_read hread]
    exact @invoke_tree 0 oddTrees [] "child.json" (by decide) (by decide) rfl
  refine ⟨rfl, fun hkeeps => ?_⟩
  rw [hresponse] at hkeeps
  obtain ⟨status, hstatus⟩ := hkeeps.exists_status
  cases hstatus

end CommandLine

end MiniLox
