import MiniLox.CommandLine.Files

/-!
# Paths

A path is its names with slashes between them.  Its normal form leaves out the names that stay
in the same directory, and leads to the same place; so does the path with an ending, which
becomes the ending of the last name.

A file that is written keeps all directories where they are, and all other files what they
are.
-/

namespace MiniLox

namespace Files

variable {files : Files} {path name : String} {names : List String} {location : Location}

/-! ## Names -/

theorem not_mem_of_mem_splitOn {a : Char} {text part : List Char} (h : part ∈ text.splitOn a) :
    a ∉ part := by
  induction text generalizing part with
  | nil =>
      rw [List.splitOn_nil, List.mem_singleton] at h
      subst h
      exact List.not_mem_nil
  | cons c rest ih =>
      rw [List.splitOn_cons_eq_if_modifyHead] at h
      split at h
      · rcases List.mem_cons.mp h with rfl | h
        · exact List.not_mem_nil
        · exact ih h
      · next hc =>
        obtain ⟨first, others, hsplit⟩ := List.exists_cons_of_ne_nil (List.splitOn_ne_nil a rest)
        rw [hsplit] at h ih
        rcases List.mem_cons.mp h with rfl | h
        · intro hmem
          rcases List.mem_cons.mp hmem with rfl | hmem
          · exact hc (beq_self_eq_true _)
          · exact ih List.mem_cons_self hmem
        · exact ih (List.mem_cons_of_mem _ h)

theorem not_mem_of_mem_namesOf (h : name ∈ namesOf path) : '/' ∉ name.toList := by
  obtain ⟨part, hpart, rfl⟩ := List.mem_map.mp h
  rw [String.toList_ofList]
  exact not_mem_of_mem_splitOn hpart

theorem intercalate_namesOf (path : String) : "/".intercalate (namesOf path) = path := by
  apply String.toList_inj.mp
  have hid : String.toList ∘ String.ofList = id := funext fun _ => String.toList_ofList
  have hnames : (namesOf path).map String.toList = path.toList.splitOn '/' := by
    rw [namesOf, List.map_map, hid, List.map_id]
  rw [String.toList_intercalate, hnames]
  exact List.intercalate_splitOn '/'

theorem namesOf_intercalate (hne : names ≠ []) (h : ∀ name ∈ names, '/' ∉ name.toList) :
    namesOf ("/".intercalate names) = names := by
  have hparts : ∀ part ∈ names.map String.toList, '/' ∉ part := by
    intro part hpart
    obtain ⟨name, hname, rfl⟩ := List.mem_map.mp hpart
    exact h name hname
  have hid : String.ofList ∘ String.toList = id := funext fun _ => String.ofList_toList
  have hsplit : (['/'].intercalate (names.map String.toList)).splitOn '/' =
      names.map String.toList :=
    List.splitOn_intercalate '/' hparts (by rwa [ne_eq, List.map_eq_nil_iff])
  rw [namesOf, String.toList_intercalate, show "/".toList = ['/'] from rfl, hsplit, List.map_map,
    hid, List.map_id]

theorem intercalate_concat_append (before : List String) (last ending : String) :
    "/".intercalate (before ++ [last]) ++ ending =
      "/".intercalate (before ++ [last ++ ending]) := by
  cases before with
  | nil => simp only [List.nil_append, String.intercalate_singleton]
  | cons first rest =>
      have hne : first :: rest ≠ [] := List.cons_ne_nil _ _
      rw [String.intercalate_append_of_ne_nil hne (List.cons_ne_nil _ _),
        String.intercalate_append_of_ne_nil hne (List.cons_ne_nil _ _),
        String.intercalate_singleton, String.intercalate_singleton, String.append_assoc]

/-- An ending of a path is an ending of its last name. -/
theorem namesOf_append {before : List String} {last ending : String}
    (h : namesOf path = before ++ [last]) (hending : '/' ∉ ending.toList) :
    namesOf (path ++ ending) = before ++ [last ++ ending] := by
  have hmem : ∀ name ∈ before ++ [last], '/' ∉ name.toList := by
    intro name hname
    rw [← h] at hname
    exact not_mem_of_mem_namesOf hname
  rw [← intercalate_namesOf path, h, intercalate_concat_append]
  apply namesOf_intercalate (List.concat_ne_nil _ _)
  intro name hname
  rcases List.mem_append.mp hname with hname | hname
  · exact hmem name (List.mem_append_left _ hname)
  · rw [List.mem_singleton] at hname
    rw [hname, String.toList_append, List.mem_append]
    exact not_or.mpr ⟨hmem last (List.mem_append_right _ List.mem_cons_self), hending⟩

/-! ## Usable paths -/

/-- A path that can lead anywhere. -/
structure IsUsable (path : String) : Prop where
  not_mem : '\x00' ∉ path.toList
  size_le : path.utf8ByteSize ≤ pathLimit
  ne_empty : path ≠ ""

/-- Where following a path begins. -/
def startOf (path : String) : Location :=
  if path.toList.head? = some '/' then .outside else .inside []

theorem locate_of_isUsable (files : Files) (h : IsUsable path) :
    files.locate path = (namesOf path).foldlM files.step (startOf path) := by
  have hnull : ¬path.toList.contains '\x00' := by
    rw [List.contains_iff_mem]
    exact h.not_mem
  rw [locate, if_neg hnull, if_neg (Nat.not_lt.mpr h.size_le), if_neg h.ne_empty]
  rfl

theorem isUsable_of_locate (h : files.locate path = .ok location) : IsUsable path := by
  rw [locate] at h
  split at h
  · cases h
  · next hnull =>
    split at h
    · cases h
    · next hsize =>
      split at h
      · cases h
      · next hne =>
        rw [List.contains_iff_mem] at hnull
        exact ⟨hnull, Nat.not_lt.mp hsize, hne⟩

theorem utf8ByteSize_le_of_sublist {a b : List Char} (h : a.Sublist b) :
    (String.ofList a).utf8ByteSize ≤ (String.ofList b).utf8ByteSize := by
  induction h with
  | slnil => exact Nat.le_refl _
  | cons c _ ih =>
      rw [String.ofList_cons, String.utf8ByteSize_append]
      omega
  | cons_cons c _ ih =>
      rw [String.ofList_cons, String.ofList_cons, String.utf8ByteSize_append,
        String.utf8ByteSize_append]
      omega

/-- What is left of a usable path is usable, unless it is nothing. -/
theorem IsUsable.of_sublist {part : String} (h : IsUsable path)
    (hpart : part.toList.Sublist path.toList) (hne : part ≠ "") : IsUsable part := by
  refine ⟨fun hmem => h.not_mem (hpart.subset hmem), ?_, hne⟩
  have hsize := utf8ByteSize_le_of_sublist hpart
  rw [String.ofList_toList, String.ofList_toList] at hsize
  exact Nat.le_trans hsize h.size_le

theorem intercalate_sublist {α : Type} (between : List α) {a b : List (List α)}
    (h : a.Sublist b) : (between.intercalate a).Sublist (between.intercalate b) := by
  induction h with
  | slnil => exact List.Sublist.refl _
  | @cons a b c _ ih =>
      cases b with
      | nil =>
          rw [List.intercalate_nil] at ih
          rw [List.eq_nil_of_sublist_nil ih]
          exact List.nil_sublist _
      | cons d b =>
          rw [List.intercalate_cons_cons]
          exact ih.trans (List.sublist_append_right _ _)
  | @cons_cons a b c h ih =>
      cases a with
      | nil =>
          rw [List.intercalate_singleton]
          cases b with
          | nil => simp only [List.intercalate_singleton, List.Sublist.refl]
          | cons d b =>
              rw [List.intercalate_cons_cons, List.append_assoc]
              exact List.sublist_append_left _ _
      | cons e a =>
          cases b with
          | nil => cases h
          | cons d b =>
              rw [List.intercalate_cons_cons, List.intercalate_cons_cons]
              exact (List.Sublist.refl _).append ih

/-! ## Following names -/

/-- Whether a name leads out of the directory that it stands in. -/
def isProper (name : String) : Bool := name != "" && name != "."

theorem step_of_not_proper {location' : Location} (hname : isProper name = false)
    (h : files.step location name = .ok location') : location' = location := by
  have htrivial : name = "" ∨ name = "." := by
    rw [isProper, Bool.and_eq_false_iff, bne_eq_false_iff_eq, bne_eq_false_iff_eq] at hname
    exact hname
  unfold step at h
  split at h
  · cases h
  · rw [if_pos htrivial] at h
    cases h
    rfl
  · cases h

/-- A name can be followed from a directory only. -/
theorem contents_of_step {location' : Location} (h : files.step location name = .ok location') :
    files.contents location = .error .isDirectory := by
  unfold step at h
  split at h
  · cases h
  · next hcontents => exact hcontents
  · cases h

theorem eq_inside_of_step {outer : List String} {location' : Location} (hname : isProper name)
    (hparent : name ≠ "..") (h : files.step (.inside outer) name = .ok location') :
    location' = .inside (outer ++ [name]) := by
  have hproper : ¬(name = "" ∨ name = ".") := by
    rintro (rfl | rfl) <;> cases hname
  simp only [step, contents_of_step h, if_neg hproper, if_neg hparent] at h
  split at h <;> cases h
  rfl

/-- Names that stay in the same directory can be left out. -/
theorem foldlM_filter {location' : Location}
    (h : names.foldlM files.step location = .ok location') :
    (names.filter isProper).foldlM files.step location = .ok location' := by
  induction names generalizing location with
  | nil => exact h
  | cons name rest ih =>
      rw [List.foldlM_cons] at h
      cases hstep : files.step location name with
      | error cause =>
          rw [hstep] at h
          cases h
      | ok next =>
          rw [hstep] at h
          cases hname : isProper name with
          | true =>
              rw [List.filter_cons_of_pos hname, List.foldlM_cons, hstep]
              exact ih h
          | false =>
              rw [List.filter_cons_of_neg (by rw [hname]; decide)]
              rw [step_of_not_proper hname hstep] at h
              exact ih h

/-- What is below the current directory is reached from there only. -/
theorem exists_inside_of_step {inner : List String}
    (h : files.step location name = .ok (.inside inner)) : ∃ outer, location = .inside outer := by
  cases location with
  | inside outer => exact ⟨outer, rfl⟩
  | outside =>
      simp only [step, contents] at h
      split at h
      · cases h
      · split at h
        · cases h
        · split at h <;> cases h
  | unknown => cases h

theorem exists_inside_of_foldlM {inner : List String}
    (h : names.foldlM files.step location = .ok (.inside inner)) :
    ∃ outer, location = .inside outer := by
  induction names generalizing location with
  | nil =>
      cases h
      exact ⟨inner, rfl⟩
  | cons name rest ih =>
      rw [List.foldlM_cons] at h
      cases hstep : files.step location name with
      | error cause =>
          rw [hstep] at h
          cases h
      | ok next =>
          rw [hstep] at h
          obtain ⟨outer, rfl⟩ := ih h
          exact exists_inside_of_step hstep

/-! ## Paths of files -/

/-- A path that leads, by some names, to a directory, and from there by one more. -/
structure LeadsTo (files : Files) (path : String) (before : List String) (last : String)
    (directory : List String) : Prop where
  names : namesOf path = before ++ [last]
  start : startOf path = .inside []
  reaches : before.foldlM files.step (.inside []) = .ok (.inside directory)
  proper : isProper last

theorem namesOf_ne_nil (path : String) : namesOf path ≠ [] := by
  rw [namesOf, ne_eq, List.map_eq_nil_iff]
  exact List.splitOn_ne_nil '/' path.toList

theorem startOf_eq_inside {outer : List String} (h : startOf path = .inside outer) :
    startOf path = .inside [] := by
  unfold startOf at h ⊢
  split at h
  · cases h
  · next hhead => rw [if_neg hhead]

theorem ne_empty_of_namesOf {before : List String} {last : String}
    (h : namesOf path = before ++ [last]) (hproper : isProper last) : path ≠ "" := by
  rintro rfl
  have hnames : [""] = before ++ [last] := h
  have hlast : last = "" := by
    cases before with
    | nil =>
        cases hnames
        rfl
    | cons first rest =>
        rw [List.cons_append, List.cons.injEq] at hnames
        exact (List.concat_ne_nil _ _ hnames.2.symm).elim
  rw [hlast] at hproper
  cases hproper

/-- A path that begins outside the current directory has an empty name first. -/
theorem startOf_of_head_proper {first : String} {rest : List String}
    (h : namesOf path = first :: rest) (hproper : isProper first) :
    startOf path = .inside [] := by
  unfold startOf
  split
  · next hhead =>
    obtain ⟨rest', hpath⟩ : ∃ rest', path.toList = '/' :: rest' := by
      cases hlist : path.toList with
      | nil =>
          rw [hlist] at hhead
          cases hhead
      | cons c rest' =>
          rw [hlist] at hhead
          cases hhead
          exact ⟨rest', rfl⟩
    rw [namesOf, hpath, List.splitOn_cons_eq_if_modifyHead, if_pos (beq_self_eq_true _),
      List.map_cons, List.cons.injEq] at h
    rw [← h.1] at hproper
    cases hproper
  · rfl

/-- A path of a file leads to a directory, and from there by a name to the file. -/
theorem leadsTo_of_read {octets : List UInt8} (h : files.read path = .ok octets) :
    ∃ before last directory, LeadsTo files path before last directory := by
  rw [read] at h
  cases hlocate : files.locate path with
  | error cause =>
      rw [hlocate] at h
      cases h
  | ok location =>
      rw [hlocate] at h
      change files.contents location = .ok octets at h
      rw [locate_of_isUsable files (isUsable_of_locate hlocate),
        ← List.dropLast_concat_getLast (namesOf_ne_nil path), List.foldlM_append] at hlocate
      cases hreaches : (namesOf path).dropLast.foldlM files.step (startOf path) with
      | error cause =>
          rw [hreaches] at hlocate
          cases hlocate
      | ok around =>
          rw [hreaches] at hlocate
          change (files.step around _ >>= pure) = _ at hlocate
          rw [bind_pure] at hlocate
          have hproper : isProper ((namesOf path).getLast (namesOf_ne_nil path)) := by
            cases hname : isProper ((namesOf path).getLast (namesOf_ne_nil path)) with
            | true => rfl
            | false =>
                -- The name would stay in the directory, and so lead to no file.
                rw [step_of_not_proper hname hlocate, contents_of_step hlocate] at h
                cases h
          obtain ⟨inner, rfl⟩ : ∃ inner, location = .inside inner := by
            cases location with
            | inside inner => exact ⟨inner, rfl⟩
            | outside => cases h
            | unknown => cases h
          obtain ⟨directory, rfl⟩ := exists_inside_of_step hlocate
          obtain ⟨_, hstart⟩ := exists_inside_of_foldlM hreaches
          rw [startOf_eq_inside hstart] at hreaches
          exact ⟨_, _, directory, (List.dropLast_concat_getLast _).symm, startOf_eq_inside hstart,
            hreaches, hproper⟩

namespace LeadsTo

variable {before : List String} {last ending : String} {directory : List String}

theorem ne_empty (h : LeadsTo files path before last directory) : path ≠ "" :=
  ne_empty_of_namesOf h.names h.proper

theorem locate_eq (h : LeadsTo files path before last directory) (husable : IsUsable path) :
    files.locate path = files.step (.inside directory) last := by
  rw [locate_of_isUsable files husable, h.names, h.start, List.foldlM_append, h.reaches]
  exact bind_pure (files.step (.inside directory) last)

theorem append (h : LeadsTo files path before last directory)
    (hending : '/' ∉ ending.toList) (hproper : isProper (last ++ ending)) :
    LeadsTo files (path ++ ending) before (last ++ ending) directory := by
  refine ⟨namesOf_append h.names hending, ?_, h.reaches, hproper⟩
  have hhead : (path ++ ending).toList.head? = path.toList.head? := by
    obtain ⟨c, rest, hpath⟩ := List.exists_cons_of_ne_nil
      (fun hnil => h.ne_empty (String.toList_eq_nil_iff.mp hnil))
    rw [String.toList_append, hpath]
    rfl
  rw [startOf, hhead]
  exact h.start

theorem not_mem_filter (h : LeadsTo files path before last directory) :
    ∀ name ∈ before.filter isProper ++ [last], '/' ∉ name.toList := by
  have hsublist : (before.filter isProper ++ [last]).Sublist (before ++ [last]) :=
    List.filter_sublist.append (List.Sublist.refl _)
  rw [← h.names] at hsublist
  exact fun name hname => not_mem_of_mem_namesOf (hsublist.subset hname)

theorem normalPath_eq (h : LeadsTo files path before last directory) :
    normalPath path = "/".intercalate (before.filter isProper ++ [last]) := by
  have hfilter : (namesOf path).filter isProper = before.filter isProper ++ [last] := by
    rw [h.names, List.filter_append, List.filter_cons_of_pos h.proper, List.filter_nil]
  have hhead : path.toList.head? ≠ some '/' := by
    intro hhead
    have hstart := h.start
    rw [startOf, if_pos hhead] at hstart
    cases hstart
  have hne : "/".intercalate (before.filter isProper ++ [last]) ≠ "" :=
    ne_empty_of_namesOf (namesOf_intercalate (List.concat_ne_nil _ _) h.not_mem_filter) h.proper
  have hjoined : normalPath path = if "" ++ "/".intercalate ((namesOf path).filter isProper) = ""
      then "." else "" ++ "/".intercalate ((namesOf path).filter isProper) := by
    rw [normalPath]
    -- Only a path that starts at the root keeps slashes in front.
    split
    case h_4 => rfl
    all_goals exact absurd (by rw [‹path.toList = _›]; rfl) hhead
  rw [hjoined, hfilter, String.empty_append, if_neg hne]

theorem normalPath_sublist (h : LeadsTo files path before last directory) :
    (normalPath path).toList.Sublist path.toList := by
  have hpath : path = "/".intercalate (before ++ [last]) := by
    rw [← h.names, intercalate_namesOf]
  rw [h.normalPath_eq]
  conv => rhs; rw [hpath]
  rw [String.toList_intercalate, String.toList_intercalate]
  apply intercalate_sublist
  exact (List.filter_sublist.append (List.Sublist.refl _)).map _

/-- The normal form of a path leads to the same place. -/
theorem normal (h : LeadsTo files path before last directory) :
    LeadsTo files (normalPath path) (before.filter isProper) last directory := by
  have hnames : namesOf (normalPath path) = before.filter isProper ++ [last] := by
    rw [h.normalPath_eq]
    exact namesOf_intercalate (List.concat_ne_nil _ _) h.not_mem_filter
  refine ⟨hnames, ?_, foldlM_filter h.reaches, h.proper⟩
  cases hbefore : before.filter isProper with
  | nil =>
      rw [hbefore] at hnames
      exact startOf_of_head_proper hnames h.proper
  | cons first rest =>
      rw [hbefore] at hnames
      have hfirst : first ∈ before.filter isProper := by
        rw [hbefore]
        exact List.mem_cons_self
      exact startOf_of_head_proper hnames (List.mem_filter.mp hfirst).2

theorem locate_normalPath (h : LeadsTo files path before last directory)
    (husable : IsUsable path) : files.locate (normalPath path) = files.locate path := by
  have hnormal : IsUsable (normalPath path) :=
    husable.of_sublist h.normalPath_sublist h.normal.ne_empty
  rw [h.locate_eq husable, h.normal.locate_eq hnormal]

/-- The normal form of a path leads to the same place with an ending, too. -/
theorem locate_normalPath_append (h : LeadsTo files path before last directory)
    (husable : IsUsable (path ++ ending)) (hending : '/' ∉ ending.toList)
    (hproper : isProper (last ++ ending)) :
    files.locate (normalPath path ++ ending) = files.locate (path ++ ending) := by
  have happend := h.append hending hproper
  have hnormal := h.normal.append hending hproper
  have hsublist : (normalPath path ++ ending).toList.Sublist (path ++ ending).toList := by
    rw [String.toList_append, String.toList_append]
    exact h.normalPath_sublist.append (List.Sublist.refl _)
  rw [happend.locate_eq husable,
    hnormal.locate_eq (husable.of_sublist hsublist hnormal.ne_empty)]

end LeadsTo

theorem isUsable_of_read {octets : List UInt8} (h : files.read path = .ok octets) :
    IsUsable path := by
  rw [read] at h
  cases hlocate : files.locate path with
  | ok location => exact isUsable_of_locate hlocate
  | error cause =>
      rw [hlocate] at h
      cases h

/-- A readable path has a normal form that reads the same file. -/
theorem read_normalPath {octets : List UInt8} (h : files.read path = .ok octets) :
    files.read (normalPath path) = .ok octets := by
  obtain ⟨before, last, directory, hleads⟩ := leadsTo_of_read h
  rw [read, hleads.locate_normalPath (isUsable_of_read h)]
  exact h

/-! ## Writing -/

variable {octets : List UInt8} {other : List String}

theorem lookup_put_self (names : List String) (octets : List UInt8) (files : Files) :
    (files.put names octets).lookup names = some octets := by
  induction files with
  | nil => rw [put, List.lookup_cons_self]
  | cons file rest ih =>
      obtain ⟨first, o⟩ := file
      rw [put]
      split
      · next heq =>
        subst heq
        rw [List.lookup_cons_self]
      · next hne =>
        rw [List.lookup_cons, beq_eq_false_iff_ne.mpr (Ne.symm hne)]
        exact ih

theorem lookup_put_of_ne (h : other ≠ names) :
    (files.put names octets).lookup other = files.lookup other := by
  induction files with
  | nil =>
      rw [put, List.lookup_cons, beq_eq_false_iff_ne.mpr h]
  | cons file rest ih =>
      obtain ⟨first, o⟩ := file
      rw [put]
      split
      · next heq =>
        subst heq
        rw [List.lookup_cons, List.lookup_cons, beq_eq_false_iff_ne.mpr h]
      · rw [List.lookup_cons, List.lookup_cons, ih]

theorem isDirectory_put (h : files.isDirectory other) :
    (files.put names octets).isDirectory other := by
  rw [isDirectory, Bool.or_eq_true] at h ⊢
  rcases h with h | h
  · exact Or.inl h
  · refine Or.inr ?_
    obtain ⟨file, hmem, hfile⟩ := List.any_eq_true.mp h
    have hname : ∀ (all : Files), file ∈ all → ∃ o, (file.1, o) ∈ all.put names octets := by
      intro all hmem
      induction all with
      | nil => cases hmem
      | cons first rest ih =>
          rw [put]
          rcases List.mem_cons.mp hmem with rfl | hmem
          · split
            · next heq =>
              subst heq
              exact ⟨octets, List.mem_cons_self⟩
            · exact ⟨file.2, List.mem_cons_self⟩
          · split
            · exact ⟨file.2, List.mem_cons_of_mem _ hmem⟩
            · obtain ⟨o, ho⟩ := ih hmem
              exact ⟨o, List.mem_cons_of_mem _ ho⟩
    obtain ⟨o, ho⟩ := hname files hmem
    exact List.any_eq_true.mpr ⟨_, ho, hfile⟩

theorem contents_put_self (names : List String) (octets : List UInt8) (files : Files) :
    (files.put names octets).contents (.inside names) = .ok octets := by
  rw [contents, lookup_put_self]

theorem contents_put_of_ne (h : other ≠ names) {o : List UInt8}
    (ho : files.contents (.inside other) = .ok o) :
    (files.put names octets).contents (.inside other) = .ok o := by
  rw [contents, lookup_put_of_ne h]
  rw [contents] at ho
  cases hlookup : files.lookup other with
  | none =>
      rw [hlookup] at ho
      cases ho
  | some _ =>
      rw [hlookup] at ho
      exact ho

/-- A directory stays one, whatever file is written. -/
theorem contents_put_directory (hnames : files.contents (.inside names) ≠ .error .isDirectory)
    (h : files.contents location = .error .isDirectory) :
    (files.put names octets).contents location = .error .isDirectory := by
  cases location with
  | outside => rfl
  | unknown => cases h
  | inside other =>
      have hne : other ≠ names := by
        rintro rfl
        exact hnames h
      rw [contents, lookup_put_of_ne hne]
      rw [contents] at h
      cases hlookup : files.lookup other with
      | some _ =>
          rw [hlookup] at h
          cases h
      | none =>
          rw [hlookup] at h
          have hdirectory : files.isDirectory other := by
            cases hisDirectory : files.isDirectory other with
            | true => rfl
            | false =>
                rw [hisDirectory] at h
                cases h
          simp only [isDirectory_put hdirectory, if_true]

theorem step_put (hnames : files.contents (.inside names) ≠ .error .isDirectory)
    {location' : Location} (h : files.step location name = .ok location') :
    (files.put names octets).step location name = .ok location' := by
  have hdirectory := contents_of_step h
  simp only [step, contents_put_directory hnames hdirectory]
  simp only [step, hdirectory] at h
  exact h

theorem foldlM_put (hnames : files.contents (.inside names) ≠ .error .isDirectory)
    {path : List String} {location' : Location}
    (h : path.foldlM files.step location = .ok location') :
    path.foldlM (files.put names octets).step location = .ok location' := by
  induction path generalizing location with
  | nil => exact h
  | cons name rest ih =>
      rw [List.foldlM_cons] at h ⊢
      cases hstep : files.step location name with
      | error cause =>
          rw [hstep] at h
          cases h
      | ok next =>
          rw [hstep] at h
          rw [step_put hnames hstep]
          exact ih h

/-- A path leads to the same place, whatever file is written. -/
theorem locate_put (hnames : files.contents (.inside names) ≠ .error .isDirectory)
    (h : files.locate path = .ok location) :
    (files.put names octets).locate path = .ok location := by
  have husable := isUsable_of_locate h
  rw [locate_of_isUsable _ husable] at h ⊢
  exact foldlM_put hnames h

theorem writeFault?_eq_none_iff :
    files.writeFault? path = none ↔ ∃ location, files.locate path = .ok location ∧
      files.contents location ≠ .error .isDirectory := by
  rw [writeFault?]
  cases hlocate : files.locate path with
  | error cause =>
      constructor
      · intro h
        cases h
      · rintro ⟨_, h, _⟩
        cases h
  | ok location =>
      dsimp only
      constructor
      · intro h
        refine ⟨location, rfl, ?_⟩
        intro hdirectory
        rw [hdirectory] at h
        cases h
      · rintro ⟨_, h, hcontents⟩
        cases h
        split
        · next hdirectory => exact (hcontents hdirectory).elim
        · rfl

theorem write_eq_put (h : files.locate path = .ok (.inside names)) (octets : List UInt8) :
    files.write path octets = files.put names octets := by
  rw [write, h]

/-- A path leads to a file with some octets. -/
structure Holds (files : Files) (path : String) (names : List String) (octets : List UInt8) :
    Prop where
  place : files.locate path = .ok (.inside names)
  contents : files.contents (.inside names) = .ok octets

namespace Holds

theorem read (h : Holds files path names octets) : files.read path = .ok octets := by
  rw [Files.read, h.place]
  exact h.contents

theorem ne_directory (h : Holds files path names octets) :
    files.contents (.inside names) ≠ .error .isDirectory := by
  rw [h.contents]
  nofun

theorem writeFault?_eq_none (h : Holds files path names octets) :
    files.writeFault? path = none :=
  writeFault?_eq_none_iff.mpr ⟨_, h.place, h.ne_directory⟩

theorem of_put (hplace : files.locate path = .ok (.inside names))
    (hnames : files.contents (.inside names) ≠ .error .isDirectory) (octets : List UInt8) :
    Holds (files.put names octets) path names octets :=
  ⟨locate_put hnames hplace, contents_put_self names octets files⟩

theorem put_other (h : Holds files path names octets) (hne : names ≠ other)
    (hother : files.contents (.inside other) ≠ .error .isDirectory) (o : List UInt8) :
    Holds (files.put other o) path names octets :=
  ⟨locate_put hother h.place, contents_put_of_ne hne h.contents⟩

end Holds

end Files

end MiniLox
