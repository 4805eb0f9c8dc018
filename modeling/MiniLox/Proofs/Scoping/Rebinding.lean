import Mathlib.Data.List.Forall2
import MiniLox.Proofs.Environment

/-!
# New values for old names

A scope is rebound when some of its names get new values and none is added, and a chain of
scopes when each of them is.  An assignment rebinds the chain; a definition binds its name in
the current scope, where the name may be new.
-/

namespace MiniLox

namespace Scope

/-- The names that a scope binds, in the order in which they were bound first. -/
def names (scope : Scope) : List Key := scope.map Prod.fst

/-- The second scope binds the names of the first, with new values for targets at most. -/
structure Rebound (targets : List Key) (before after : Scope) : Prop where
  names_eq : after.names = before.names
  get?_eq : ∀ name, name ∉ targets → after.get? name = before.get? name

variable {targets others : List Key} {name : Key} {value : Value} {a b c : Scope}

namespace Rebound

theorem refl (targets : List Key) (scope : Scope) : Rebound targets scope scope :=
  ⟨rfl, fun _ _ => rfl⟩

theorem trans (hab : Rebound targets a b) (hbc : Rebound targets b c) :
    Rebound targets a c :=
  ⟨hbc.names_eq.trans hab.names_eq,
    fun name h => (hbc.get?_eq name h).trans (hab.get?_eq name h)⟩

theorem mono (hsubset : targets ⊆ others) (h : Rebound targets a b) : Rebound others a b :=
  ⟨h.names_eq, fun name hname => h.get?_eq name fun hmem => hname (hsubset hmem)⟩

instance : IsPreorder Scope (Rebound targets) where
  refl := refl targets
  trans _ _ _ := trans

end Rebound

theorem isSome_get?_iff : (a.get? name).isSome ↔ name ∈ a.names := by
  induction a with
  | nil => exact iff_of_false Bool.false_ne_true List.not_mem_nil
  | cons binding rest ih =>
      obtain ⟨key, v⟩ := binding
      change _ ↔ name ∈ key :: names rest
      rw [get?_cons, List.mem_cons]
      by_cases h : name = key
      · rw [if_pos h]
        exact iff_of_true rfl (Or.inl h)
      · rw [if_neg h, ih, or_iff_right h]

theorem names_bind (name : Key) (value : Value) (scope : Scope) :
    (scope.bind name value).names =
      if name ∈ scope.names then scope.names else scope.names ++ [name] := by
  induction scope with
  | nil => rfl
  | cons binding rest ih =>
      obtain ⟨key, v⟩ := binding
      have hnames : ∀ (w : Value) (s : Scope), names ((key, w) :: s) = key :: s.names :=
        fun _ _ => rfl
      rw [bind, hnames]
      by_cases h : key = name
      · rw [if_pos h, hnames, if_pos (List.mem_cons.mpr (Or.inl h.symm))]
      · rw [if_neg h, hnames, ih]
        by_cases hmem : name ∈ names rest
        · rw [if_pos hmem, if_pos (List.mem_cons_of_mem key hmem)]
        · have hcons : name ∉ key :: names rest := by
            rw [List.mem_cons]
            exact not_or_intro (Ne.symm h) hmem
          rw [if_neg hmem, if_neg hcons, List.cons_append]

theorem rebound_bind (h : name ∈ a.names) : Rebound [name] a (a.bind name value) := by
  constructor
  · rw [names_bind, if_pos h]
  · intro other hother
    exact get?_bind_of_ne (List.ne_of_not_mem_cons hother)

/-! ### Scopes in order -/

variable {as bs cs : List Scope}

theorem rebound_all_trans (hab : List.Forall₂ (Rebound targets) as bs)
    (hbc : List.Forall₂ (Rebound targets) bs cs) : List.Forall₂ (Rebound targets) as cs := by
  induction hab generalizing cs with
  | nil => exact hbc
  | cons hscope _ ih =>
      cases hbc with
      | cons hnext hrest => exact .cons (hscope.trans hnext) (ih hrest)

theorem names_eq_of_rebound_all (h : List.Forall₂ (Rebound targets) as bs) :
    bs.map names = as.map names := by
  induction h with
  | nil => rfl
  | cons hscope _ ih => rw [List.map_cons, List.map_cons, hscope.names_eq, ih]

theorem rebound_of_getElem? (h : List.Forall₂ (Rebound targets) as bs) {i : Nat}
    (ha : as[i]? = some a) (hb : bs[i]? = some b) : Rebound targets a b := by
  obtain ⟨hi, rfl⟩ := List.getElem?_eq_some_iff.mp ha
  obtain ⟨hj, rfl⟩ := List.getElem?_eq_some_iff.mp hb
  exact h.get hi hj

end Scope

namespace Environment

variable {targets others : List Key} {name : Key} {value : Value}

/-- The scopes around the current one have been rebound. -/
def ReboundAround (targets : List Key) (before after : Environment) : Prop :=
  List.Forall₂ (Scope.Rebound targets) before.enclosing after.enclosing

variable {e f g : Environment}

namespace ReboundAround

theorem refl (targets : List Key) (e : Environment) : ReboundAround targets e e :=
  List.forall₂_same.mpr fun scope _ => Scope.Rebound.refl targets scope

theorem trans (hef : ReboundAround targets e f) (hfg : ReboundAround targets f g) :
    ReboundAround targets e g :=
  Scope.rebound_all_trans hef hfg

theorem mono (hsubset : targets ⊆ others) (h : ReboundAround targets e f) :
    ReboundAround others e f :=
  h.imp fun _ _ => Scope.Rebound.mono hsubset

theorem depth_eq (h : ReboundAround targets e f) : f.depth = e.depth :=
  h.length_eq.symm

theorem names_eq (h : ReboundAround targets e f) :
    f.enclosing.map Scope.names = e.enclosing.map Scope.names :=
  Scope.names_eq_of_rebound_all h

end ReboundAround

/-- To leave a scope in which only the scopes around it were rebound is to rebind them. -/
theorem rebound_leave (h : ReboundAround targets e.enter f) :
    Scope.Rebound targets e.current f.leave.current ∧ ReboundAround targets e f.leave := by
  obtain ⟨current, enclosing⟩ := f
  cases h with
  | cons hcurrent henclosing => exact ⟨hcurrent, henclosing⟩

theorem rebound_assignIn {scopes after : List Scope} (h : assignIn name value scopes = some after) :
    List.Forall₂ (Scope.Rebound [name]) scopes after := by
  induction scopes generalizing after with
  | nil => cases h
  | cons scope outer ih =>
      rw [assignIn] at h
      split at h
      · next hbound =>
        cases h
        exact .cons (Scope.rebound_bind (Scope.isSome_get?_iff.mp hbound))
          (List.forall₂_same.mpr fun s _ => Scope.Rebound.refl _ s)
      · obtain ⟨rest, hrest, rfl⟩ := Option.map_eq_some_iff.mp h
        exact .cons (Scope.Rebound.refl _ scope) (ih hrest)

theorem rebound_assign? (h : e.assign? name value = some f) :
    Scope.Rebound [name] e.current f.current ∧ ReboundAround [name] e f := by
  rw [assign?] at h
  split at h
  · next current enclosing hassign =>
    cases h
    cases rebound_assignIn hassign with
    | cons hcurrent henclosing => exact ⟨hcurrent, henclosing⟩
  · cases h

end Environment

end MiniLox
