import Mathlib.Logic.Function.Iterate
import MiniLox.Proofs.Scoping.Rebinding

/-!
# A chain of scopes as stacks of bindings

A name that is bound in several scopes of a chain is seen in the innermost of them alone.  For
one name, therefore, a chain of scopes is a stack: of its bindings, each with the depth of the
scope that holds it, the innermost is on top.  A definition replaces the top or pushes, depending
on whether the top belongs to the current scope, and an assignment gives the top a new value.  To
leave a scope is to pop what belongs to its depth.

The stacks of an environment tell all that its scopes bind.  So what the operations leave as it
was is read off the stacks, too: an assignment changes the one binding that would have been read,
and a scope that is left has changed nothing around it but by assignments through it.
-/

namespace MiniLox

/-- An operation on an environment. -/
inductive Operation where
  | define (name : Key) (value : Value)
  | assign (name : Key) (value : Value)
  | get (name : Key)
  | enter
  | leave

/-- What an operation answers. -/
inductive Answer where
  | done
  /-- The value that was read or assigned. -/
  | found (value : Value)
  /-- No scope binds the name. -/
  | undefined (name : Key)

/-- Operations in which every scope that is entered is left, and none that was there before. -/
inductive Balanced : List Operation → Prop where
  | nil : Balanced []
  | step {op : Operation} {rest : List Operation} (henter : op ≠ .enter) (hleave : op ≠ .leave)
      (hrest : Balanced rest) : Balanced (op :: rest)
  | block {body rest : List Operation} (hbody : Balanced body) (hrest : Balanced rest) :
      Balanced (.enter :: body ++ .leave :: rest)

/-- For each name a stack of bindings, and the current depth.  A binding is the depth of a scope
and a value. -/
structure Stacks where
  depth : Nat
  entries : Key → List (Nat × Value)

/-! ## Operations on stacks -/

namespace Stacks

/-- The stacks with one of them exchanged. -/
def update (s : Stacks) (name : Key) (stack : List (Nat × Value)) : Stacks :=
  { s with entries := Function.update s.entries name stack }

/-- The stacks when no scope is entered. -/
def ofGlobals (globals : Scope) : Stacks :=
  ⟨0, fun name => (globals.get? name).toList.map (0, ·)⟩

/-- A stack with a binding of a depth on top, in the place of one of the same depth. -/
def bindTop (depth : Nat) (value : Value) : List (Nat × Value) → List (Nat × Value)
  | [] => [(depth, value)]
  | (d, v) :: rest =>
    if d = depth then (d, value) :: rest else (depth, value) :: (d, v) :: rest

/-- Pops every binding of the current depth from each stack, but of depth zero. -/
def leave (s : Stacks) : Stacks :=
  match s.depth with
  | 0 => s
  | d + 1 => ⟨d, fun name => (s.entries name).filter (·.1 ≠ d + 1)⟩

/-- Carries out an operation. -/
def perform (s : Stacks) : Operation → Stacks × Answer
  | .define name value => (s.update name (bindTop s.depth value (s.entries name)), .done)
  | .assign name value =>
    match s.entries name with
    | [] => (s, .undefined name)
    | (d, _) :: rest => (s.update name ((d, value) :: rest), .found value)
  | .get name =>
    match s.entries name with
    | [] => (s, .undefined name)
    | (_, value) :: _ => (s, .found value)
  | .enter => (⟨s.depth + 1, s.entries⟩, .done)
  | .leave => (s.leave, .done)

/-- Carries out operations in order. -/
def performAll (s : Stacks) : List Operation → Stacks × List Answer
  | [] => (s, [])
  | op :: rest =>
    let first := s.perform op
    let others := first.1.performAll rest
    (others.1, first.2 :: others.2)

end Stacks

/-! ## Operations on environments -/

namespace Environment

/-- Carries out an operation. -/
def perform (e : Environment) : Operation → Environment × Answer
  | .define name value => (e.define name value, .done)
  | .assign name value =>
    match e.assign? name value with
    | none => (e, .undefined name)
    | some f => (f, .found value)
  | .get name =>
    match e.get? name with
    | none => (e, .undefined name)
    | some value => (e, .found value)
  | .enter => (e.enter, .done)
  | .leave => (e.leave, .done)

/-- Carries out operations in order. -/
def performAll (e : Environment) : List Operation → Environment × List Answer
  | [] => (e, [])
  | op :: rest =>
    let first := e.perform op
    let others := first.1.performAll rest
    (others.1, first.2 :: others.2)

/-- What the scope of a depth binds a name to; the outermost scope has depth zero. -/
def boundAt? (e : Environment) (depth : Nat) (name : Key) : Option Value :=
  e.scopes.reverse[depth]?.bind (Scope.get? name)

/-- The bindings of a name in scopes, each with the depth of its scope. -/
def entriesIn (name : Key) : List Scope → List (Nat × Value)
  | [] => []
  | scope :: outer => (scope.get? name).toList.map (outer.length, ·) ++ entriesIn name outer

/-- The stacks of an environment. -/
def toStacks (e : Environment) : Stacks := ⟨e.depth, fun name => entriesIn name e.scopes⟩

variable {e f : Environment} {name other : Key} {value : Value} {scopes after : List Scope}

/-! ### Entries of scopes -/

theorem entriesIn_cons_some {scope : Scope} {outer : List Scope}
    (h : scope.get? name = some value) :
    entriesIn name (scope :: outer) = (outer.length, value) :: entriesIn name outer := by
  simp [entriesIn, h]

theorem entriesIn_cons_none {scope : Scope} {outer : List Scope} (h : scope.get? name = none) :
    entriesIn name (scope :: outer) = entriesIn name outer := by
  simp [entriesIn, h]

theorem lt_length_of_mem_entriesIn {entry : Nat × Value} (h : entry ∈ entriesIn name scopes) :
    entry.1 < scopes.length := by
  induction scopes with
  | nil => simp [entriesIn] at h
  | cons scope outer ih =>
      rw [entriesIn, List.mem_append] at h
      rw [List.length_cons]
      rcases h with h | h
      · obtain ⟨v, -, rfl⟩ := List.mem_map.mp h
        exact Nat.lt_succ_self _
      · exact Nat.lt_succ_of_lt (ih h)

theorem findSome?_eq (name : Key) (scopes : List Scope) :
    scopes.findSome? (Scope.get? name) = (entriesIn name scopes).head?.map Prod.snd := by
  induction scopes with
  | nil => rfl
  | cons scope outer ih =>
      cases h : scope.get? name with
      | none => rw [List.findSome?_cons, h, entriesIn_cons_none h, ih]
      | some v => rw [List.findSome?_cons, h, entriesIn_cons_some h]; rfl

theorem get?_eq (e : Environment) (name : Key) :
    e.get? name = (e.toStacks.entries name).head?.map Prod.snd :=
  findSome?_eq name e.scopes

/-- A scope binds what the entry of its depth tells. -/
theorem getElem?_reverse_bind (name : Key) (scopes : List Scope) (depth : Nat) :
    scopes.reverse[depth]?.bind (Scope.get? name) = (entriesIn name scopes).lookup depth := by
  induction scopes with
  | nil => rfl
  | cons scope outer ih =>
      rw [List.reverse_cons]
      rcases Nat.lt_trichotomy depth outer.length with hlt | rfl | hgt
      · rw [List.getElem?_append_left (by simpa using hlt), ih]
        cases h : scope.get? name with
        | none => rw [entriesIn_cons_none h]
        | some v =>
            have hne : (depth == outer.length) = false := beq_false_of_ne (Nat.ne_of_lt hlt)
            rw [entriesIn_cons_some h, List.lookup_cons, hne]
      · rw [List.getElem?_append_right (by simp)]
        cases h : scope.get? name with
        | none =>
            have hnone : (entriesIn name outer).lookup outer.length = none := by
              rw [List.lookup_eq_none_iff]
              intro entry hentry
              exact bne_iff_ne.mpr (Nat.ne_of_gt (lt_length_of_mem_entriesIn hentry))
            simp [entriesIn_cons_none h, h, hnone]
        | some v => simp [entriesIn_cons_some h, h]
      · have hnone : (entriesIn name (scope :: outer)).lookup depth = none := by
          rw [List.lookup_eq_none_iff]
          intro entry hentry
          have hentry := lt_length_of_mem_entriesIn hentry
          rw [List.length_cons] at hentry
          exact bne_iff_ne.mpr (by omega)
        rw [hnone, List.getElem?_eq_none (by simp; omega)]
        rfl

theorem boundAt?_eq (e : Environment) (depth : Nat) (name : Key) :
    e.boundAt? depth name = (e.toStacks.entries name).lookup depth :=
  getElem?_reverse_bind name e.scopes depth

theorem assignIn_eq_none_iff : assignIn name value scopes = none ↔ entriesIn name scopes = [] := by
  induction scopes with
  | nil => simp [assignIn, entriesIn]
  | cons scope outer ih =>
      cases h : scope.get? name with
      | none => simp [assignIn, h, entriesIn_cons_none h, ih]
      | some v => simp [assignIn, h, entriesIn_cons_some h]

/-- An assignment gives the first entry of the name a new value. -/
theorem entriesIn_assignIn (h : assignIn name value scopes = some after) :
    after.length = scopes.length ∧
      (∃ depth old rest, entriesIn name scopes = (depth, old) :: rest ∧
        entriesIn name after = (depth, value) :: rest) ∧
      ∀ other, other ≠ name → entriesIn other after = entriesIn other scopes := by
  induction scopes generalizing after with
  | nil => cases h
  | cons scope outer ih =>
      rw [assignIn] at h
      cases hold : scope.get? name with
      | some old =>
          rw [hold, Option.isSome_some, if_pos rfl] at h
          cases h
          refine ⟨rfl, ⟨outer.length, old, entriesIn name outer, entriesIn_cons_some hold, ?_⟩, ?_⟩
          · exact entriesIn_cons_some (Scope.get?_bind_self name value scope)
          · intro other hother
            rw [entriesIn, entriesIn, Scope.get?_bind_of_ne hother]
      | none =>
          simp only [hold, Option.isSome_none, Bool.false_eq_true, if_false] at h
          obtain ⟨inner, hinner, rfl⟩ := Option.map_eq_some_iff.mp h
          obtain ⟨hlength, ⟨depth, old, rest, hbefore, hafter⟩, hothers⟩ := ih hinner
          refine ⟨by simp [hlength], ⟨depth, old, rest, ?_, ?_⟩, ?_⟩
          · rw [entriesIn_cons_none hold, hbefore]
          · rw [entriesIn_cons_none hold, hafter]
          · intro other hother
            rw [entriesIn, entriesIn, hothers other hother, hlength]

/-! ### Stacks of environments -/

theorem toStacks_enter (e : Environment) :
    e.enter.toStacks = ⟨e.toStacks.depth + 1, e.toStacks.entries⟩ :=
  rfl

theorem toStacks_leave (e : Environment) : e.leave.toStacks = e.toStacks.leave := by
  obtain ⟨current, enclosing⟩ := e
  cases enclosing with
  | nil => rfl
  | cons outer rest =>
      change (⟨rest.length, _⟩ : Stacks) = ⟨rest.length, _⟩
      congr 1
      funext name
      have hkept : (entriesIn name (outer :: rest)).filter (·.1 ≠ rest.length + 1) =
          entriesIn name (outer :: rest) := by
        rw [List.filter_eq_self]
        intro entry hentry
        have hentry := lt_length_of_mem_entriesIn hentry
        rw [List.length_cons] at hentry
        exact decide_eq_true (Nat.ne_of_lt hentry)
      change entriesIn name (outer :: rest) =
        (entriesIn name (current :: outer :: rest)).filter (·.1 ≠ rest.length + 1)
      cases h : current.get? name with
      | none => rw [entriesIn_cons_none h, hkept]
      | some v => rw [entriesIn_cons_some h, List.filter_cons_of_neg (by simp), hkept]

theorem toStacks_define (e : Environment) (name : Key) (value : Value) :
    (e.define name value).toStacks =
      e.toStacks.update name (Stacks.bindTop e.toStacks.depth value (e.toStacks.entries name)) := by
  obtain ⟨current, enclosing⟩ := e
  change (⟨enclosing.length, _⟩ : Stacks) = ⟨enclosing.length, _⟩
  congr 1
  funext other
  by_cases hother : other = name
  · subst hother
    rw [Function.update_self]
    change entriesIn other (current.bind other value :: enclosing) =
      Stacks.bindTop enclosing.length value (entriesIn other (current :: enclosing))
    rw [entriesIn_cons_some (Scope.get?_bind_self other value current)]
    cases h : current.get? other with
    | some old => rw [entriesIn_cons_some h, Stacks.bindTop, if_pos rfl]
    | none =>
        rw [entriesIn_cons_none h]
        cases hentries : entriesIn other enclosing with
        | nil => rfl
        | cons entry rest =>
            have hentry : entry.1 < enclosing.length :=
              lt_length_of_mem_entriesIn (hentries ▸ List.mem_cons_self)
            rw [Stacks.bindTop, if_neg (Nat.ne_of_lt hentry)]
  · rw [Function.update_of_ne hother]
    change entriesIn other (current.bind name value :: enclosing) = _
    rw [entriesIn, Scope.get?_bind_of_ne hother]
    rfl

theorem assign?_eq_none_iff : e.assign? name value = none ↔ e.toStacks.entries name = [] := by
  change _ ↔ entriesIn name e.scopes = []
  have hnone : assignIn name value e.scopes = none ↔ entriesIn name e.scopes = [] :=
    assignIn_eq_none_iff
  rw [← hnone, assign?]
  split
  · next h => simp [h]
  · next h =>
    refine iff_of_true rfl ?_
    cases hassign : assignIn name value e.scopes with
    | none => rfl
    | some after =>
        obtain ⟨hlength, -, -⟩ := entriesIn_assignIn hassign
        cases after with
        | nil => cases hlength
        | cons current enclosing => exact (h current enclosing hassign).elim

theorem toStacks_assign? (h : e.assign? name value = some f) :
    ∃ depth old rest, e.toStacks.entries name = (depth, old) :: rest ∧
      f.toStacks = e.toStacks.update name ((depth, value) :: rest) := by
  rw [assign?] at h
  split at h
  · next current enclosing hassign =>
    cases h
    obtain ⟨hlength, ⟨depth, old, rest, hbefore, hafter⟩, hothers⟩ := entriesIn_assignIn hassign
    refine ⟨depth, old, rest, hbefore, ?_⟩
    have hdepth : enclosing.length = e.depth := Nat.succ.inj hlength
    change (⟨enclosing.length, _⟩ : Stacks) = ⟨e.depth, _⟩
    rw [hdepth]
    congr 1
    funext other
    by_cases hother : other = name
    · rw [hother, Function.update_self]
      exact hafter
    · rw [Function.update_of_ne hother]
      exact hothers other hother
  · cases h

/-- An operation does to the stacks of an environment what it does to the environment. -/
theorem toStacks_perform (e : Environment) (op : Operation) :
    (e.perform op).1.toStacks = (e.toStacks.perform op).1 ∧
      (e.perform op).2 = (e.toStacks.perform op).2 := by
  cases op with
  | define name value => exact ⟨toStacks_define e name value, rfl⟩
  | assign name value =>
      rw [perform, Stacks.perform]
      cases h : e.assign? name value with
      | none =>
          rw [assign?_eq_none_iff.mp h]
          exact ⟨rfl, rfl⟩
      | some f =>
          obtain ⟨depth, old, rest, hbefore, hafter⟩ := toStacks_assign? h
          rw [hbefore]
          exact ⟨hafter, rfl⟩
  | get name =>
      rw [perform, Stacks.perform, get?_eq]
      cases h : e.toStacks.entries name with
      | nil => exact ⟨rfl, rfl⟩
      | cons entry rest => exact ⟨rfl, rfl⟩
  | enter => exact ⟨toStacks_enter e, rfl⟩
  | leave => exact ⟨toStacks_leave e, rfl⟩

theorem toStacks_performAll (e : Environment) (ops : List Operation) :
    (e.performAll ops).1.toStacks = (e.toStacks.performAll ops).1 ∧
      (e.performAll ops).2 = (e.toStacks.performAll ops).2 := by
  induction ops generalizing e with
  | nil => exact ⟨rfl, rfl⟩
  | cons op rest ih =>
      obtain ⟨hstacks, hanswer⟩ := toStacks_perform e op
      obtain ⟨hothers, hanswers⟩ := ih (e.perform op).1
      rw [performAll, Stacks.performAll, ← hstacks, ← hanswer, ← hothers, ← hanswers]
      exact ⟨rfl, rfl⟩

theorem toStacks_globals (globals : Scope) :
    toStacks ⟨globals, []⟩ = Stacks.ofGlobals globals := by
  change (⟨0, _⟩ : Stacks) = ⟨0, _⟩
  congr 1
  funext name
  exact List.append_nil _

/-! ### What an assignment changes -/

/-- Entries further down belong to scopes further out. -/
theorem pairwise_entriesIn (name : Key) (scopes : List Scope) :
    (entriesIn name scopes).Pairwise fun entry below => below.1 < entry.1 := by
  induction scopes with
  | nil => exact .nil
  | cons scope outer ih =>
      cases h : scope.get? name with
      | none => rwa [entriesIn_cons_none h]
      | some v =>
          rw [entriesIn_cons_some h, List.pairwise_cons]
          exact ⟨fun entry hentry => lt_length_of_mem_entriesIn hentry, ih⟩

/-- One binding of a name is given a value: the one that is seen. -/
structure Assigns (e f : Environment) (name : Key) (value : Value) (depth : Nat) : Prop where
  /-- It is the binding that would have been read. -/
  seen : e.boundAt? depth name = e.get? name
  bound : (e.get? name).isSome
  /-- No scope further in binds the name. -/
  innermost : ∀ deeper, depth < deeper → e.boundAt? deeper name = none
  /-- What every scope binds is as before, but for that binding. -/
  changed : ∀ d other, f.boundAt? d other =
    if d = depth ∧ other = name then some value else e.boundAt? d other
  names : f.scopes.map Scope.names = e.scopes.map Scope.names
  /-- Another name is seen as before from every scope. -/
  views : ∀ k other, other ≠ name → (leave^[k] f).get? other = (leave^[k] e).get? other

theorem get?_iterate_leave (k : Nat) (hdepth : f.toStacks.depth = e.toStacks.depth)
    (hentries : f.toStacks.entries name = e.toStacks.entries name) :
    (leave^[k] f).get? name = (leave^[k] e).get? name := by
  induction k generalizing e f with
  | zero =>
      rw [Function.iterate_zero_apply, Function.iterate_zero_apply, get?_eq, get?_eq, hentries]
  | succ k ih =>
      rw [Function.iterate_succ_apply, Function.iterate_succ_apply]
      apply ih
      · rw [toStacks_leave, toStacks_leave, Stacks.leave, Stacks.leave, hdepth]
        cases e.toStacks.depth with
        | zero => exact hdepth
        | succ d => rfl
      · rw [toStacks_leave, toStacks_leave, Stacks.leave, Stacks.leave, hdepth]
        cases e.toStacks.depth with
        | zero => exact hentries
        | succ d => exact congrArg (List.filter _) hentries

theorem names_assign? (h : e.assign? name value = some f) :
    f.scopes.map Scope.names = e.scopes.map Scope.names := by
  obtain ⟨hcurrent, haround⟩ := rebound_assign? h
  rw [scopes, scopes, List.map_cons, List.map_cons, hcurrent.names_eq, haround.names_eq]

theorem exists_assigns (h : e.assign? name value = some f) :
    ∃ depth, (e.toStacks.entries name).head?.map Prod.fst = some depth ∧
      Assigns e f name value depth := by
  obtain ⟨depth, old, rest, hbefore, hafter⟩ := toStacks_assign? h
  have hsorted : (e.toStacks.entries name).Pairwise fun entry below => below.1 < entry.1 :=
    pairwise_entriesIn name e.scopes
  rw [hbefore, List.pairwise_cons] at hsorted
  refine ⟨depth, by rw [hbefore]; rfl, ?_⟩
  constructor
  · rw [boundAt?_eq, get?_eq, hbefore, List.lookup_cons, beq_self_eq_true]
    rfl
  · rw [get?_eq, hbefore]
    rfl
  · intro deeper hdeeper
    rw [boundAt?_eq, hbefore, List.lookup_eq_none_iff]
    intro entry hentry
    rcases List.mem_cons.mp hentry with rfl | hentry
    · exact bne_iff_ne.mpr (Nat.ne_of_gt hdeeper)
    · exact bne_iff_ne.mpr (Nat.ne_of_gt (Nat.lt_trans (hsorted.1 entry hentry) hdeeper))
  · intro d other
    rw [boundAt?_eq, boundAt?_eq, hafter]
    change (Function.update e.toStacks.entries name ((depth, value) :: rest) other).lookup d = _
    by_cases hother : other = name
    · subst hother
      rw [Function.update_self, hbefore, List.lookup_cons, List.lookup_cons]
      by_cases hd : d = depth
      · simp [hd]
      · simp [hd, beq_false_of_ne hd]
    · rw [Function.update_of_ne hother, if_neg fun hboth => hother hboth.2]
  · exact names_assign? h
  · intro k other hother
    apply get?_iterate_leave
    · rw [hafter]
      rfl
    · rw [hafter]
      exact Function.update_of_ne hother _ _

/-! ### What a scope that is left has changed around it -/

/-- The value that an operation gives to the binding of a name at a depth, if it does. -/
def assigned? (e : Environment) (depth : Nat) (name : Key) : Operation → Option Value
  | .assign target value =>
    if target = name ∧ (e.toStacks.entries name).head?.map Prod.fst = some depth then some value
    else none
  | _ => none

/-- The last value that operations give to the binding of a name at a depth. -/
def lastAssigned? (depth : Nat) (name : Key) (e : Environment) : List Operation → Option Value
  | [] => none
  | op :: rest =>
    (lastAssigned? depth name (e.perform op).1 rest).or (e.assigned? depth name op)

/-- The scopes around the current one bind the names that they did, and to the same values,
where nothing else is written. -/
structure WritesOuter (written : Nat → Key → Option Value) (e f : Environment) : Prop where
  depth : f.depth = e.depth
  names : f.enclosing.map Scope.names = e.enclosing.map Scope.names
  bound : ∀ d < e.depth, ∀ name, f.boundAt? d name = (written d name).or (e.boundAt? d name)

variable {g : Environment} {written later : Nat → Key → Option Value} {d : Nat}
  {body ops : List Operation}

theorem boundAt?_of_lt (h : d < e.depth) :
    e.boundAt? d name = e.enclosing.reverse[d]?.bind (Scope.get? name) := by
  rw [boundAt?, scopes, List.reverse_cons, List.getElem?_append_left]
  rwa [List.length_reverse]

theorem WritesOuter.trans (hef : WritesOuter written e f) (hfg : WritesOuter later f g) :
    WritesOuter (fun d name => (later d name).or (written d name)) e g := by
  refine ⟨hfg.depth.trans hef.depth, hfg.names.trans hef.names, fun d hd name => ?_⟩
  rw [hfg.bound d (hef.depth ▸ hd), hef.bound d hd, Option.or_assoc]

/-- What is left of a scope is what was written around it. -/
theorem WritesOuter.leave (h : WritesOuter written e.enter f) :
    f.leave.scopes.map Scope.names = e.scopes.map Scope.names ∧ f.leave.depth = e.depth ∧
      ∀ d ≤ e.depth, ∀ name, f.leave.boundAt? d name = (written d name).or (e.boundAt? d name) := by
  obtain ⟨current, enclosing⟩ := f
  obtain ⟨hdepth, hnames, hbound⟩ := h
  cases enclosing with
  | nil => cases hdepth
  | cons outer rest =>
      refine ⟨hnames, Nat.succ.inj hdepth, fun d hd name => ?_⟩
      have hd : d < e.enter.depth := Nat.lt_succ_of_le hd
      have hafter := hbound d hd name
      rw [boundAt?_of_lt (hdepth ▸ hd), boundAt?_of_lt hd] at hafter
      exact hafter

theorem writesOuter_of_enclosing (h : f.enclosing = e.enclosing) :
    WritesOuter (fun _ _ => none) e f := by
  have hdepth : f.depth = e.depth := congrArg List.length h
  refine ⟨hdepth, congrArg (List.map Scope.names) h, fun d hd name => ?_⟩
  rw [boundAt?_of_lt (hdepth ▸ hd), boundAt?_of_lt hd, h]
  rfl

theorem writesOuter_assign (e : Environment) (name : Key) (value : Value) :
    WritesOuter (fun d other => e.assigned? d other (.assign name value)) e
      (e.perform (.assign name value)).1 := by
  rw [perform]
  cases h : e.assign? name value with
  | none =>
      have hnone := assign?_eq_none_iff.mp h
      refine ⟨rfl, rfl, fun d _ other => ?_⟩
      by_cases hother : name = other
      · subst hother
        simp [assigned?, hnone]
      · simp [assigned?, hother]
  | some f =>
      obtain ⟨depth, hdepth, hassigns⟩ := exists_assigns h
      obtain ⟨-, haround⟩ := rebound_assign? h
      refine ⟨haround.depth_eq, haround.names_eq, fun d _ other => ?_⟩
      rw [hassigns.changed, assigned?]
      by_cases hother : name = other
      · subst hother
        rw [hdepth]
        by_cases hd : depth = d
        · simp [hd]
        · simp [hd, Ne.symm hd]
      · simp [hother, Ne.symm hother]

theorem perform_get (e : Environment) (name : Key) : (e.perform (.get name)).1 = e := by
  rw [perform]
  cases e.get? name <;> rfl

/-- An operation within a scope writes around it what it assigns there. -/
theorem writesOuter_perform {op : Operation} (henter : op ≠ .enter) (hleave : op ≠ .leave)
    (e : Environment) :
    WritesOuter (fun d name => e.assigned? d name op) e (e.perform op).1 := by
  cases op with
  | define name value => exact writesOuter_of_enclosing rfl
  | assign name value => exact writesOuter_assign e name value
  | get name => exact writesOuter_of_enclosing (congrArg enclosing (perform_get e name))
  | enter => exact absurd rfl henter
  | leave => exact absurd rfl hleave

theorem performAll_append (e : Environment) (ops more : List Operation) :
    (e.performAll (ops ++ more)).1 = ((e.performAll ops).1.performAll more).1 := by
  induction ops generalizing e with
  | nil => rfl
  | cons op rest ih => exact ih (e.perform op).1

theorem lastAssigned?_append (depth : Nat) (name : Key) (e : Environment)
    (ops more : List Operation) :
    lastAssigned? depth name e (ops ++ more) =
      (lastAssigned? depth name (e.performAll ops).1 more).or (lastAssigned? depth name e ops) := by
  induction ops generalizing e with
  | nil => exact Option.or_none.symm
  | cons op rest ih =>
      rw [List.cons_append, lastAssigned?, ih, lastAssigned?, Option.or_assoc]
      rfl

/-- Operations that leave what they enter write around the current scope what their assignments
write there. -/
theorem writesOuter_of_balanced (h : Balanced ops) (e : Environment) :
    WritesOuter (fun d name => lastAssigned? d name e ops) e (e.performAll ops).1 := by
  induction h generalizing e with
  | nil => exact writesOuter_of_enclosing rfl
  | @step op rest henter hleave _ ih =>
      exact (writesOuter_perform henter hleave e).trans (ih (e.perform op).1)
  | @block body rest _ _ ihBody ihRest =>
      obtain ⟨hnames, hdepth, hbound⟩ := (ihBody e.enter).leave
      have hblock : WritesOuter (fun d name => lastAssigned? d name e.enter body) e
          (e.enter.performAll body).1.leave :=
        ⟨hdepth, (List.cons.inj hnames).2, fun d hd => hbound d (Nat.le_of_lt hd)⟩
      have hall := hblock.trans (ihRest _)
      have hwritten : ∀ d name,
          lastAssigned? d name e (.enter :: body ++ .leave :: rest) =
            (lastAssigned? d name (e.enter.performAll body).1.leave rest).or
              (lastAssigned? d name e.enter body) := by
        intro d name
        rw [List.cons_append, lastAssigned?, lastAssigned?_append, lastAssigned?]
        simp [assigned?, perform]
      have hperformed : (e.performAll (.enter :: body ++ .leave :: rest)).1 =
          ((e.enter.performAll body).1.leave.performAll rest).1 :=
        performAll_append e.enter body (.leave :: rest)
      rw [hperformed]
      simpa only [hwritten] using hall

/-- A scope that has been entered and left. -/
structure LeavesBehind (body : List Operation) (e f : Environment) : Prop where
  depth : f.depth = e.depth
  /-- The scopes around it bind the names that they did. -/
  names : f.scopes.map Scope.names = e.scopes.map Scope.names
  /-- A name has the value that was last assigned through from inside, or the one it had. -/
  bound : ∀ d ≤ e.depth, ∀ name,
    f.boundAt? d name = (lastAssigned? d name e.enter body).or (e.boundAt? d name)

theorem leavesBehind_of_balanced (h : Balanced body) (e : Environment) :
    LeavesBehind body e (e.performAll (.enter :: body ++ [.leave])).1 := by
  have hperformed : (e.performAll (.enter :: body ++ [.leave])).1 =
      (e.enter.performAll body).1.leave :=
    performAll_append e.enter body [.leave]
  obtain ⟨hnames, hdepth, hbound⟩ := (writesOuter_of_balanced h e.enter).leave
  rw [hperformed]
  exact ⟨hdepth, hnames, hbound⟩

theorem perform_of_undefined {op : Operation} (h : (e.perform op).2 = .undefined name) :
    (e.perform op).1 = e := by
  cases op with
  | define => cases h
  | assign target value =>
      rw [perform] at h ⊢
      cases hassign : e.assign? target value with
      | none => rfl
      | some f =>
          rw [hassign] at h
          cases h
  | get target => exact perform_get e target
  | enter => cases h
  | leave => cases h

end Environment

open Environment

/-- Operations on a global scope, and what they do to the stacks of its names. -/
structure ShadowsAsStacks (globals : Scope) (ops : List Operation) : Prop where
  /-- Every operation answers as it does on the stacks. -/
  answers : (performAll ⟨globals, []⟩ ops).2 = ((Stacks.ofGlobals globals).performAll ops).2
  depth : (performAll ⟨globals, []⟩ ops).1.depth =
    ((Stacks.ofGlobals globals).performAll ops).1.depth
  /-- Every scope binds what the stacks tell. -/
  bound : ∀ d name, (performAll ⟨globals, []⟩ ops).1.boundAt? d name =
    (((Stacks.ofGlobals globals).performAll ops).1.entries name).lookup d
  /-- An assignment that succeeds changes the one binding that would have been read. -/
  assigns : ∀ name value f, (performAll ⟨globals, []⟩ ops).1.assign? name value = some f →
    ∃ d, Assigns (performAll ⟨globals, []⟩ ops).1 f name value d
  /-- An operation that finds no binding changes nothing. -/
  undefined : ∀ op name, ((performAll ⟨globals, []⟩ ops).1.perform op).2 = .undefined name →
    ((performAll ⟨globals, []⟩ ops).1.perform op).1 = (performAll ⟨globals, []⟩ ops).1
  /-- A scope that is left has changed nothing around it but by assignments through it. -/
  leaves : ∀ body, Balanced body → LeavesBehind body (performAll ⟨globals, []⟩ ops).1
    (performAll ⟨globals, []⟩ (ops ++ (.enter :: body ++ [.leave]))).1

/-- A chain of scopes acts as a stack of bindings for each name. -/
theorem environment_shadowsAsStacks (globals : Scope) (ops : List Operation) :
    ShadowsAsStacks globals ops := by
  obtain ⟨hstacks, hanswers⟩ := toStacks_performAll ⟨globals, []⟩ ops
  rw [toStacks_globals] at hstacks hanswers
  constructor
  · exact hanswers
  · exact congrArg Stacks.depth hstacks
  · intro d name
    rw [boundAt?_eq, hstacks]
  · intro name value f h
    obtain ⟨d, -, hassigns⟩ := exists_assigns h
    exact ⟨d, hassigns⟩
  · exact fun op name h => perform_of_undefined h
  · intro body hbody
    rw [performAll_append]
    exact leavesBehind_of_balanced hbody _

end MiniLox
