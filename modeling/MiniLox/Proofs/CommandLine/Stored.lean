import MiniLox.Proofs.CommandLine.Paths
import MiniLox.Proofs.CommandLine.Status
import MiniLox.Proofs.Json.Printer
import MiniLox.Proofs.Node.Codec
import MiniLox.Proofs.Node.Documents
import MiniLox.Proofs.Text.Utf8

/-!
# Stored trees

To store the tree of a script and then to run it is to run the script: the output, the exit
status and the trace are the same.  Of documents this supposes only that loading gives back
what was written.  A script with errors is reported in the same way whether its tree is to be
stored or it is to be run, and nothing is stored for it.

The tree is stored under the normal form of the path of the script, and read under the path
itself; both lead to the same file.  With the flag for tracing, the file of the trace is
written in between, which leaves the stored tree as it is.
-/

namespace MiniLox

open Session (IsClean)

/-! ## Trees of programs -/

theorem Session.runDocument_of_parse {mode : Mode} {document : String} {nodes : List Node}
    {items : List Json} (hencode : Node.encodeAll nodes = some items)
    (hparse : Json.parse document = .ok (.array items)) :
    Session.runDocument mode document = Session.execute mode nodes := by
  have htree : Node.decode (.array items) = .ok (.list nodes) := by
    rw [Node.decode, Node.decodeAll_of_encodeAll hencode]
    rfl
  have hload : Session.loadTree document = .ok (.list nodes) := by
    rw [Session.loadTree, hparse]
    dsimp only
    rw [htree]
    rfl
  rw [Session.runDocument, hload]
  rfl

namespace CommandLine

variable {level : Nat} {disk : Disk} {env env' : Environment} {path source document : String}
  {files : Files}

/-! ## Storing -/

/-- A text without returns is read from a file with its octets. -/
theorem readText_octetsOf {text : String} (hreturnless : Text.Returnless text.toList)
    (hread : disk.read path = .ok (octetsOf text)) : readText disk path = .ok text := by
  rw [readText, hread]
  dsimp only
  rw [Text.decode_octetsOf]
  dsimp only
  rw [Text.chars_ofString, Text.unifyLineEnds_of_returnless hreturnless, String.ofList_toList]

theorem readScript_of_text (h : readText disk path = .ok source) :
    readScript disk path = .ok source := by
  rw [readScript, h]

theorem emit_of_isProgram {p : Program} {items : List Json}
    (hread : readText disk (normalPath path) = .ok source) (hprogram : IsProgram source p)
    (hencode : Node.encodeAll (Stmt.nodes p) = some items)
    (hprint : (Json.array items).print = some document)
    (htarget : disk.writeFault? (normalPath path ++ treeEnding) = none) :
    emit disk path env =
      ⟨[.output (.ofString (normalPath path ++ treeEnding))], env,
        .ok (some ⟨normalPath path ++ treeEnding, document⟩)⟩ := by
  have hdocument : treeDocument p = some document := by
    rw [treeDocument, hencode]
    exact hprint
  have hsource : Session.program source = pure p := Session.program_of_isProgram hprogram
  rw [emit, readScript_of_text hread]
  change (Session.program source >>= _) env = _
  rw [hsource, pure_bind]
  simp only [htarget, hdocument]
  rfl

theorem emit_of_program_error {events : List Event} {e : Error}
    (hread : readText disk (normalPath path) = .ok source)
    (hprogram : Session.program source env = ⟨events, env', .error e⟩) :
    emit disk path env = ⟨events, env', .error e⟩ := by
  rw [emit, readScript_of_text hread]
  change (Session.program source >>= _) env = _
  rw [Action.bind_error (by rw [hprogram]), hprogram]

/-- A stored tree is run as the program that it was made of. -/
theorem runTree_of_parse_print {p : Program} {items : List Json} (hprogram : IsProgram source p)
    (hencode : Node.encodeAll (Stmt.nodes p) = some items)
    (hprint : (Json.array items).print = some document)
    (hparse : Json.parse document = .ok (.array items))
    (hread : disk.read path = .ok (octetsOf document)) :
    Response.ofOutcome .utf8 (runTree disk (.utf8 level) path env) =
      .of .utf8 (Session.run (.utf8 level) source env).events none
        (Session.run (.utf8 level) source env).result := by
  have htext := readText_octetsOf (Json.returnless_print hprint) hread
  have htree : runTree disk (.utf8 level) path env =
      (Session.run (.utf8 level) source >>= fun _ => pure none) env := by
    rw [runTree, htext, Session.run_of_isProgram hprogram,
      ← Session.runDocument_of_parse hencode hparse]
    rfl
  rw [htree, ofOutcome_bind_none]

/-! ## The file of a stored tree -/

theorem append_treeEnding_ne {name short : String} (h : short.length < 9) :
    name ++ treeEnding ≠ short := by
  intro heq
  have hlength := congrArg String.length heq
  rw [String.length_append, show treeEnding.length = 9 from rfl] at hlength
  omega

theorem isProper_append_treeEnding (name : String) : Files.isProper (name ++ treeEnding) := by
  rw [Files.isProper, bne_iff_ne.mpr (append_treeEnding_ne (by decide)),
    bne_iff_ne.mpr (append_treeEnding_ne (by decide))]
  rfl

/-- The normal form of a readable path, with the ending of stored trees, leads to the same file
as the path with the ending, and this is not the file of the trace. -/
theorem exists_place_of_tree {octets : List UInt8} (hread : files.read path = .ok octets)
    (hwrite : files.writeFault? (path ++ treeEnding) = none) :
    ∃ names, files.locate (path ++ treeEnding) = .ok (.inside names) ∧
      files.locate (normalPath path ++ treeEnding) = .ok (.inside names) ∧
      files.contents (.inside names) ≠ .error .isDirectory ∧ names ≠ [traceFile] := by
  obtain ⟨before, last, directory, hleads⟩ := Files.leadsTo_of_read hread
  obtain ⟨location, hlocate, hcontents⟩ := Files.writeFault?_eq_none_iff.mp hwrite
  have husable := Files.isUsable_of_locate hlocate
  have hending : '/' ∉ treeEnding.toList := by decide
  have hproper := isProper_append_treeEnding last
  have hstep := (hleads.append hending hproper).locate_eq husable
  rw [hlocate] at hstep
  have hlocation : location = .inside (directory ++ [last ++ treeEnding]) :=
    Files.eq_inside_of_step hproper (append_treeEnding_ne (by decide)) hstep.symm
  subst hlocation
  refine ⟨_, hlocate, ?_, hcontents, ?_⟩
  · rw [hleads.locate_normalPath_append husable hending hproper, hlocate]
  · intro heq
    have hlast : last ++ treeEnding = traceFile := by
      cases directory with
      | nil => exact List.head_eq_of_cons_eq heq
      | cons first rest =>
          rw [List.cons_append, List.cons.injEq] at heq
          exact (List.concat_ne_nil _ _ heq.2).elim
    have hlength := congrArg String.length hlast
    rw [String.length_append, show treeEnding.length = 9 from rfl,
      show traceFile.length = 9 from rfl] at hlength
    have hempty : last = "" := String.length_eq_zero_iff.mp (by omega)
    have hname := hleads.proper
    rw [hempty] at hname
    cases hname

/-! ## The file of the trace -/

/-- The files with the trace of a run. -/
def withTrace (level : Nat) (octets : List UInt8) (files : Files) : Files :=
  if 0 < level then files.write traceFile octets else files

theorem store_of_writing_none {r : Response} (h : r.writing = none) :
    r.store level files = withTrace level (octetsOf (textOfLines r.trace)) files := by
  rw [Response.store, h]
  rfl

theorem writing_of_none {α : Type} (events : List Event) (result : Except Error α) :
    (Response.of .utf8 events none result).writing = none := by
  cases result with
  | ok _ => rfl
  | error e =>
      rw [Response.of]
      cases conclude .utf8 e <;> rfl

theorem locate_traceFile (h : files.writeFault? traceFile = none) :
    files.locate traceFile = .ok (.inside [traceFile]) ∧
      files.contents (.inside [traceFile]) ≠ .error .isDirectory := by
  obtain ⟨location, hlocate, hcontents⟩ := Files.writeFault?_eq_none_iff.mp h
  have hstep : files.step (.inside []) traceFile = .ok location := by
    rw [Files.locate_of_isUsable files (Files.isUsable_of_locate hlocate)] at hlocate
    exact (bind_pure _).symm.trans hlocate
  have hlocation : location = .inside [traceFile] :=
    Files.eq_inside_of_step (by decide) (by decide) hstep
  subst hlocation
  exact ⟨hlocate, hcontents⟩

theorem writeFault?_of_traceFault? (hlevel : 0 < level)
    (h : traceFault? files.disk level = none) : files.writeFault? traceFile = none := by
  rw [traceFault?, if_pos hlevel, Option.map_eq_none_iff] at h
  exact h

theorem holds_traceFile (octets : List UInt8) (h : files.writeFault? traceFile = none) :
    Files.Holds (files.write traceFile octets) traceFile [traceFile] octets := by
  obtain ⟨hplace, hcontents⟩ := locate_traceFile h
  rw [Files.write_eq_put hplace]
  exact .of_put hplace hcontents octets

theorem holds_write_traceFile {names : List String} {octets : List UInt8}
    (h : Files.Holds files path names octets) (hne : names ≠ [traceFile])
    (htrace : files.writeFault? traceFile = none) (o : List UInt8) :
    Files.Holds (files.write traceFile o) path names octets := by
  obtain ⟨hplace, hcontents⟩ := locate_traceFile htrace
  rw [Files.write_eq_put hplace]
  exact h.put_other hne hcontents o

/-- A file that is written in a run is there for the next one, which can write its trace. -/
theorem holds_after {names : List String} (htrace : traceFault? files.disk level = none)
    (hplace : (prepared level files).locate path = .ok (.inside names))
    (hnames : (prepared level files).contents (.inside names) ≠ .error .isDirectory)
    (hne : names ≠ [traceFile]) (octets o : List UInt8) :
    let stored := withTrace level o ((prepared level files).put names octets)
    traceFault? stored.disk level = none ∧
      Files.Holds (prepared level stored) path names octets := by
  have hput : Files.Holds ((prepared level files).put names octets) path names octets :=
    .of_put hplace hnames octets
  by_cases hlevel : 0 < level
  · -- The file of the trace is written three times around the tree: it is emptied, it takes the
    -- trace of the first run, and it is emptied for the second.
    have hprepared : prepared level files = files.write traceFile [] := if_pos hlevel
    have hbefore : Files.Holds (prepared level files) traceFile [traceFile] [] := by
      rw [hprepared]
      exact holds_traceFile [] (writeFault?_of_traceFault? hlevel htrace)
    have hmiddle := hbefore.put_other (Ne.symm hne) hnames octets
    have hstored := holds_traceFile o hmiddle.writeFault?_eq_none
    have hwritten := holds_write_traceFile hput hne hmiddle.writeFault?_eq_none o
    rw [withTrace, if_pos hlevel]
    refine ⟨?_, ?_⟩
    · rw [traceFault?, if_pos hlevel, Option.map_eq_none_iff]
      exact hstored.writeFault?_eq_none
    · rw [prepared, if_pos hlevel]
      exact holds_write_traceFile hwritten hne hstored.writeFault?_eq_none []
  · rw [withTrace, if_neg hlevel]
    refine ⟨?_, ?_⟩
    · rw [traceFault?, if_neg hlevel]
    · rw [prepared, if_neg hlevel]
      exact hput

theorem lookup_write_traceFile {names : List String} (hne : names ≠ [traceFile])
    (htrace : files.writeFault? traceFile = none) (o : List UInt8) :
    (files.write traceFile o).lookup names = files.lookup names := by
  rw [Files.write_eq_put (locate_traceFile htrace).1, Files.lookup_put_of_ne hne]

/-- A run that stores nothing changes no file but that of the trace. -/
theorem lookup_withTrace {names : List String} (hne : names ≠ [traceFile])
    (htrace : traceFault? files.disk level = none) (o : List UInt8) :
    (withTrace level o (prepared level files)).lookup names = files.lookup names := by
  by_cases hlevel : 0 < level
  · have hwrite := writeFault?_of_traceFault? hlevel htrace
    have hprepared := holds_traceFile [] hwrite
    rw [withTrace, if_pos hlevel, prepared, if_pos hlevel,
      lookup_write_traceFile hne hprepared.writeFault?_eq_none, lookup_write_traceFile hne hwrite]
  · rw [withTrace, if_neg hlevel, prepared, if_neg hlevel]

/-! ## Storing and running -/

theorem exists_read_of_readText (h : readText files.disk path = .ok source) :
    ∃ octets text, files.read path = .ok octets ∧ Text.decode octets = .ok text ∧
      source = String.ofList (Text.unifyLineEnds text) := by
  rw [readText] at h
  cases hread : files.disk.read path with
  | error cause =>
      rw [hread] at h
      cases h
  | ok octets =>
      rw [hread] at h
      dsimp only at h
      cases hdecode : Text.decode octets with
      | error fault =>
          rw [hdecode] at h
          cases h
      | ok text =>
          rw [hdecode] at h
          cases h
          exact ⟨octets, text, hread, hdecode, rfl⟩

theorem readText_normalPath (h : readText files.disk path = .ok source) :
    readText files.disk (normalPath path) = .ok source := by
  obtain ⟨octets, text, hread, hdecode, rfl⟩ := exists_read_of_readText h
  have hnormal : files.disk.read (normalPath path) = .ok octets := Files.read_normalPath hread
  rw [readText, hnormal]
  dsimp only
  rw [hdecode]

/-- To store the tree of a script without errors and to run it is to run the script, if
documents are loaded as what was written; a script with errors is reported in the same way, and
nothing is stored for it. -/
theorem stored_tree_runs_as_script (level : Nat) (files : Files)
    (lines : List Session.PromptLine) (path source : String)
    (hscript : Arguments.Word.ofText path = .plain path)
    (htree : Arguments.Word.ofText (path ++ ".ast.json") = .plain (path ++ ".ast.json"))
    (htrace : traceFault? files.disk level = none)
    (hread : readText (prepared level files).disk path = .ok source) :
    let flags := List.replicate level "-v"
    let storing := invoke (flags ++ ["--emit-ast", path]) files lines
    let running := invoke (flags ++ [path]) files lines
    (IsClean source →
      (prepared level files).writeFault? (path ++ ".ast.json") = none →
      (∀ j document,
        Node.encode (.list (Stmt.nodes (Program.parse (Lexer.scan source).tokens).1)) = some j →
          j.print = some document → Json.parse document = .ok j) →
      storing.1.ending = .ok 0 ∧
        (invoke (flags ++ ["--ast", path ++ ".ast.json"]) storing.2.1 lines).1 = running.1) ∧
    (¬IsClean source →
      storing.1.output = running.1.output ∧ storing.1.ending = running.1.ending ∧
        storing.1.writing = none ∧
          ∀ names, names ≠ [traceFile] → storing.2.1.lookup names = files.lookup names) := by
  intro flags storing running
  have hnormal := readText_normalPath hread
  obtain ⟨octets, _, hoctets, -, -⟩ := exists_read_of_readText hread
  have hpath := (Files.isUsable_of_read hoctets).ne_empty
  obtain ⟨hstoring, hfiles⟩ := @invoke_emit level files lines path hscript hpath htrace
  have hrunning : running.1 = .of .utf8 (Session.run (.utf8 level) source .empty).events none
      (Session.run (.utf8 level) source .empty).result :=
    (invoke_script hscript hpath htrace).trans (runScript_of_text hread)
  constructor
  · intro hclean hwrite hloads
    obtain ⟨names, hplace, htarget, hcontents, hne⟩ := exists_place_of_tree hoctets hwrite
    obtain ⟨p, hprogram⟩ := Session.isClean_iff.mp hclean
    obtain ⟨items, hencode⟩ := Node.exists_encodeAll hprogram.isComplete
    have hdata : Node.encode (.list (Stmt.nodes p)) = some (.array items) := by
      rw [Node.encode, hencode]
      rfl
    obtain ⟨document, hprint⟩ := Node.exists_print_of_isProgram hprogram hdata
    have hitems : Json.parse document = .ok (.array items) := by
      apply hloads _ _ _ hprint
      rw [hprogram.2]
      exact hdata
    -- The first run writes under the normal form of the path, which leads to the same place.
    have hwritable : (prepared level files).writeFault? (normalPath path ++ treeEnding) = none :=
      Files.writeFault?_eq_none_iff.mpr ⟨_, htarget, hcontents⟩
    have hemit := @emit_of_isProgram (prepared level files).disk .empty path source document p items
      hnormal hprogram hencode hprint hwritable
    have hstored : storing.2.1 = withTrace level (octetsOf (textOfLines []))
        ((prepared level files).put names (octetsOf document)) := by
      rw [← Files.write_eq_put htarget]
      rw [hemit] at hfiles
      exact hfiles
    obtain ⟨htrace', hholds⟩ := holds_after htrace hplace hcontents hne
      (octetsOf document) (octetsOf (textOfLines []))
    refine ⟨?_, ?_⟩
    · rw [hstoring, hemit]
      rfl
    · rw [hstored, hrunning]
      have hpath' : path ++ treeEnding ≠ "" := append_treeEnding_ne (by decide)
      exact (invoke_tree htree hpath' htrace').trans
        (runTree_of_parse_print hprogram hencode hprint hitems hholds.read)
  · intro hdirty
    obtain ⟨events, e, hprogram⟩ := Session.exists_program_error hdirty .empty
    rw [emit_of_program_error hnormal hprogram] at hstoring hfiles
    rw [Session.run_of_program_error hprogram] at hrunning
    have hsame : storing.1 = running.1 := hstoring.trans hrunning.symm
    have hwriting : storing.1.writing = none := by
      rw [hsame, hrunning]
      exact writing_of_none events _
    have hstored : storing.2.1 =
        withTrace level (octetsOf (textOfLines storing.1.trace)) (prepared level files) := by
      rw [← hstoring] at hfiles
      exact hfiles.trans (store_of_writing_none hwriting)
    refine ⟨by rw [hsame], by rw [hsame], hwriting, ?_⟩
    intro names hne
    rw [hstored]
    exact lookup_withTrace hne htrace _

/-- The script `x;`, which reads a name without a binding, and the script `#`. -/
def failingSources : Files := [(["name.lox"], [0x78, 0x3B]), (["sign.lox"], [0x23])]

theorem stored_tree_of_failingSources :
    (invoke ["-v", "--ast", "name.lox.ast.json"]
        (invoke ["-v", "--emit-ast", "name.lox"] failingSources []).2.1 []).1.ending = .ok 65 ∧
      (invoke ["-v", "--emit-ast", "sign.lox"] failingSources []).1.ending = .ok 70 := by
  constructor
  · have hread : readText (prepared 1 failingSources).disk "name.lox" = .ok "x;" := rfl
    have hprogram : IsProgram "x;"
        [.expression (.variable ⟨.identifier, "x", some (.text "x"), some 1⟩)] :=
      ⟨by decide +kernel, by decide +kernel⟩
    have hclean : IsClean "x;" := Session.isClean_iff.mpr ⟨_, hprogram⟩
    have hload : ∀ j document,
        Node.encode (.list (Stmt.nodes (Program.parse (Lexer.scan "x;").tokens).1)) = some j →
          j.print = some document → Json.parse document = .ok j := by
      rw [hprogram.2]
      exact fun _ _ hj =>
        Json.parse_print (Node.isReadable_of_isProgram hprogram (by decide) hj)
    have hsame := ((stored_tree_runs_as_script 1 failingSources [] "name.lox" "x;" (by decide)
      (by decide) (by decide) hread).1 hclean (by decide) hload).2
    have hfault : (Session.run (.utf8 1) "x;" .empty).result =
        .error (.fault (.undefinedVariable "x" (.whole 1))) := by
      rw [Session.run_of_isProgram hprogram]
      rfl
    have hrunning := @invoke_script 1 failingSources [] "name.lox" (by decide) (by decide)
      (by decide)
    rw [runScript_of_text hread, hfault] at hrunning
    exact (congrArg Response.ending hsame).trans (congrArg Response.ending hrunning)
  · have hread : readText (prepared 1 failingSources).disk "sign.lox" = .ok "#" := rfl
    have hscan : (Lexer.scan "#").errors ≠ [] := by decide +kernel
    have hsame := (stored_tree_runs_as_script 1 failingSources [] "sign.lox" "#" (by decide)
      (by decide) (by decide) hread).2 fun hclean => hscan hclean.1
    have hrunning := @invoke_script 1 failingSources [] "sign.lox" (by decide) (by decide)
      (by decide)
    rw [runScript_of_text hread,
      Session.run_of_program_error (Session.program_of_scan_errors hscan)] at hrunning
    exact hsame.2.1.trans (congrArg Response.ending hrunning)

end CommandLine

end MiniLox
