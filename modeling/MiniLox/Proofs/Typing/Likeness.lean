import Mathlib.Data.List.Forall2
import MiniLox.Node.Basic
import MiniLox.Proofs.Action
import MiniLox.Proofs.Environment

/-!
# Runs that differ in values only

Two values are alike when they have the same type, two environments when their scopes bind
the same names to values that are alike, and two trees when they differ in the values of
their literals only, and these are alike.

Two actions are alike when, in environments that are alike, they write the same number of
lines of output, leave environments that are alike, and end both in results that are related
or both in the same fault.  The relation is kept by everything that actions are made of.
-/

namespace MiniLox

/-- Two values have the same type. -/
inductive Value.Alike : Value → Value → Prop where
  | text (s t : Text) : Alike (.text s) (.text t)
  | number (m n : Number) : Alike (.number m) (.number n)
  | boolean (a b : Bool) : Alike (.boolean a) (.boolean b)
  | nil : Alike .nil .nil

theorem Value.alike_iff {v w : Value} : v.Alike w ↔ v.typeName = w.typeName := by
  constructor
  · intro h
    cases h <;> rfl
  · intro h
    cases v <;> cases w <;> first | constructor | simp [typeName] at h

mutual

/-- Two nodes are the same, but for the values of literals, which have the same types. -/
inductive Node.Alike : Node → Node → Prop where
  | null : Alike .null .null
  | list {as bs : List Node} (h : AllAlike as bs) : Alike (.list as) (.list bs)
  | literal {v w : Value} (h : v.Alike w) : Alike (.literal v) (.literal w)
  | blank : Alike .blank .blank
  | grouping {a b : Node} (h : Alike a b) : Alike (.grouping a) (.grouping b)
  | unary (op : Mark) {a b : Node} (h : Alike a b) : Alike (.unary op a) (.unary op b)
  | binary (op : Mark) {a b c d : Node} (hleft : Alike a b) (hright : Alike c d) :
      Alike (.binary a op c) (.binary b op d)
  | variable (name : Mark) : Alike (.variable name) (.variable name)
  | assign (name : Mark) {a b : Node} (h : Alike a b) : Alike (.assign name a) (.assign name b)
  | expression {a b : Node} (h : Alike a b) : Alike (.expression a) (.expression b)
  | print {a b : Node} (h : Alike a b) : Alike (.print a) (.print b)
  | declare (name : Mark) {a b : Node} (h : Alike a b) :
      Alike (.declare name a) (.declare name b)
  | block {as bs : List Node} (h : AllAlike as bs) : Alike (.block as) (.block bs)

/-- The nodes of two lists are alike, one by one. -/
inductive Node.AllAlike : List Node → List Node → Prop where
  | nil : AllAlike [] []
  | cons {a b : Node} {as bs : List Node} (h : Alike a b) (hrest : AllAlike as bs) :
      AllAlike (a :: as) (b :: bs)

end

theorem Node.Alike.ne_null {a b : Node} (h : a.Alike b) (ha : a ≠ .null) : b ≠ .null := by
  rintro rfl
  cases h
  exact ha rfl

/-! ## Environments -/

theorem rel_cases {α β : Type} {R : α → β → Prop} {x : Option α} {y : Option β}
    (h : Option.Rel R x y) : (x = none ∧ y = none) ∨ ∃ a b, x = some a ∧ y = some b ∧ R a b := by
  cases h with
  | none => exact Or.inl ⟨rfl, rfl⟩
  | some h => exact Or.inr ⟨_, _, rfl, rfl, h⟩

/-- Two scopes bind the same names, to values of the same types. -/
def Scope.Alike (s t : Scope) : Prop :=
  ∀ name, Option.Rel Value.Alike (s.get? name) (t.get? name)

/-- Two chains have the same number of scopes, and these are alike one by one. -/
def Environment.Alike (e f : Environment) : Prop :=
  List.Forall₂ Scope.Alike e.scopes f.scopes

theorem Scope.Alike.bind {s t : Scope} (h : s.Alike t) (name : Key) {v w : Value}
    (hvalue : v.Alike w) : (s.bind name v).Alike (t.bind name w) := by
  intro other
  by_cases heq : other = name
  · subst heq
    rw [get?_bind_self, get?_bind_self]
    exact .some hvalue
  · rw [get?_bind_of_ne heq, get?_bind_of_ne heq]
    exact h other

theorem Scope.alike_empty : Scope.Alike [] [] := fun _ => .none

namespace Environment

variable {e f : Environment} {v w : Value}

theorem alike_iff :
    e.Alike f ↔ e.current.Alike f.current ∧ List.Forall₂ Scope.Alike e.enclosing f.enclosing :=
  List.forall₂_cons

theorem Alike.enter (h : e.Alike f) : e.enter.Alike f.enter :=
  alike_iff.mpr ⟨Scope.alike_empty, h⟩

theorem Alike.leave (h : e.Alike f) : e.leave.Alike f.leave := by
  obtain ⟨current, enclosing⟩ := e
  obtain ⟨current', enclosing'⟩ := f
  obtain ⟨hcurrent, henclosing⟩ := alike_iff.mp h
  cases henclosing with
  | nil => exact h
  | cons houter hrest => exact alike_iff.mpr ⟨houter, hrest⟩

theorem Alike.define (h : e.Alike f) (name : Key) (hvalue : v.Alike w) :
    (e.define name v).Alike (f.define name w) := by
  obtain ⟨hcurrent, henclosing⟩ := alike_iff.mp h
  exact alike_iff.mpr ⟨hcurrent.bind name hvalue, henclosing⟩

theorem Alike.get? (h : e.Alike f) (name : Key) :
    Option.Rel Value.Alike (e.get? name) (f.get? name) := by
  rw [Environment.Alike] at h
  rw [Environment.get?, Environment.get?]
  generalize e.scopes = scopes at h
  generalize f.scopes = others at h
  induction h with
  | nil => exact .none
  | cons hscope _ ih =>
      rw [List.findSome?_cons, List.findSome?_cons]
      rcases rel_cases (hscope name) with ⟨hs, ht⟩ | ⟨v, w, hs, ht, hvalue⟩
      · rw [hs, ht]
        exact ih
      · rw [hs, ht]
        exact .some hvalue

theorem assignIn_alike {scopes others : List Scope} (h : List.Forall₂ Scope.Alike scopes others)
    (name : Key) (hvalue : v.Alike w) :
    Option.Rel (List.Forall₂ Scope.Alike) (assignIn name v scopes) (assignIn name w others) := by
  induction h with
  | nil => exact .none
  | cons hscope hrest ih =>
      rw [assignIn, assignIn]
      rcases rel_cases (hscope name) with ⟨hs, ht⟩ | ⟨_, _, hs, ht, -⟩
      · rw [hs, ht]
        rcases rel_cases ih with ⟨hs', ht'⟩ | ⟨_, _, hs', ht', houter⟩
        · rw [hs', ht']
          exact .none
        · rw [hs', ht']
          exact .some (.cons hscope houter)
      · rw [hs, ht]
        exact .some (.cons (hscope.bind name hvalue) hrest)

theorem Alike.assign? (h : e.Alike f) (name : Key) (hvalue : v.Alike w) :
    Option.Rel Environment.Alike (e.assign? name v) (f.assign? name w) := by
  rw [Environment.assign?, Environment.assign?]
  rcases rel_cases (assignIn_alike h name hvalue) with ⟨hs, ht⟩ | ⟨_, _, hs, ht, hscopes⟩
  · rw [hs, ht]
    exact .none
  · rw [hs, ht]
    cases hscopes with
    | nil => exact .none
    | cons hscope hrest => exact .some (alike_iff.mpr ⟨hscope, hrest⟩)

end Environment

/-! ## Results and actions -/

variable {α β γ δ : Type}

/-- Two results are related values, or the same fault. -/
inductive AlikeResults (R : α → β → Prop) : Except Fault α → Except Fault β → Prop where
  | ok {a : α} {b : β} (h : R a b) : AlikeResults R (.ok a) (.ok b)
  | error (fault : Fault) : AlikeResults R (.error fault) (.error fault)

/-- Two outcomes have the same number of lines of output, environments that are alike, and
results that are related. -/
structure AlikeOutcomes (R : α → β → Prop) (o : Outcome Fault α) (p : Outcome Fault β) :
    Prop where
  outputs : (outputs o.events).length = (outputs p.events).length
  environment : o.environment.Alike p.environment
  result : AlikeResults R o.result p.result

/-- Two actions have outcomes that are alike, in all environments that are alike. -/
def AlikeActions (R : α → β → Prop) (x : Action Fault α) (y : Action Fault β) : Prop :=
  ∀ e f, e.Alike f → AlikeOutcomes R (x e) (y f)

theorem AlikeResults.eq_error {R : α → β → Prop} {fault : Fault} {y : Except Fault β}
    (h : AlikeResults R (.error fault) y) : y = .error fault := by
  cases h
  rfl

theorem AlikeResults.exists_of_ok {R : α → β → Prop} {a : α} {y : Except Fault β}
    (h : AlikeResults R (.ok a) y) : ∃ b, y = .ok b ∧ R a b := by
  cases h with
  | ok h => exact ⟨_, rfl, h⟩

theorem AlikeResults.bind {R : α → β → Prop} {S : γ → δ → Prop} {x : Except Fault α}
    {y : Except Fault β} {g : α → Except Fault γ} {h : β → Except Fault δ}
    (hxy : AlikeResults R x y) (hgh : ∀ a b, R a b → AlikeResults S (g a) (h b)) :
    AlikeResults S (x >>= g) (y >>= h) := by
  cases hxy with
  | ok hab => exact hgh _ _ hab
  | error fault => exact .error fault

namespace AlikeActions

variable {R : α → β → Prop} {S : γ → δ → Prop}

theorem pure {a : α} {b : β} (h : R a b) :
    AlikeActions R (Pure.pure a : Action Fault α) (Pure.pure b : Action Fault β) :=
  fun _ _ henv => ⟨rfl, henv, .ok h⟩

theorem fail (fault : Fault) :
    AlikeActions R (Action.fail fault : Action Fault α) (Action.fail fault : Action Fault β) :=
  fun _ _ henv => ⟨rfl, henv, .error fault⟩

theorem lift {x : Except Fault α} {y : Except Fault β} (h : AlikeResults R x y) :
    AlikeActions R (Action.lift x) (Action.lift y) :=
  fun _ _ henv => ⟨rfl, henv, h⟩

theorem output (level : Nat) (line line' : Text) :
    AlikeActions Eq (Action.output level line) (Action.output level line') :=
  fun _ _ henv => ⟨rfl, henv, .ok rfl⟩

theorem trace (runLevel level : Nat) (line line' : Text) :
    AlikeActions Eq (Action.trace runLevel level line) (Action.trace runLevel level line') := by
  intro e f henv
  rw [Action.trace_ofLevel, Action.trace_ofLevel]
  refine ⟨?_, henv, .ok rfl⟩
  change (MiniLox.outputs (if level ≤ runLevel then _ else [])).length =
    (MiniLox.outputs (if level ≤ runLevel then _ else [])).length
  split <;> rfl

theorem environment : AlikeActions Environment.Alike (Action.environment (ε := Fault))
    Action.environment :=
  fun _ _ henv => ⟨rfl, henv, .ok henv⟩

theorem modify {g h : Environment → Environment}
    (hgh : ∀ e f, e.Alike f → (g e).Alike (h f)) :
    AlikeActions Eq (Action.modify (ε := Fault) g) (Action.modify h) :=
  fun _ _ henv => ⟨rfl, hgh _ _ henv, .ok rfl⟩

theorem bind {x : Action Fault α} {y : Action Fault β} {g : α → Action Fault γ}
    {h : β → Action Fault δ} (hxy : AlikeActions R x y)
    (hgh : ∀ a b, R a b → AlikeActions S (g a) (h b)) :
    AlikeActions S (x >>= g) (y >>= h) := by
  intro e f henv
  have hfirst := hxy e f henv
  have hresult := hfirst.result
  cases hx : (x e).result with
  | error fault =>
      rw [hx] at hresult
      rw [Action.bind_error hx, Action.bind_error hresult.eq_error]
      exact ⟨hfirst.outputs, hfirst.environment, .error fault⟩
  | ok a =>
      rw [hx] at hresult
      obtain ⟨b, hy, hab⟩ := hresult.exists_of_ok
      have hsecond := hgh a b hab _ _ hfirst.environment
      rw [Action.bind_ok hx, Action.bind_ok hy]
      refine ⟨?_, hsecond.environment, hsecond.result⟩
      rw [outputs_append, outputs_append, List.length_append, List.length_append,
        hfirst.outputs, hsecond.outputs]

end AlikeActions

end MiniLox
