import MiniLox.Environment
import MiniLox.Proofs.Text.Plain

/-!
# Laws of scopes
-/

namespace MiniLox

theorem Key.text_inj {x y : String} (h : Key.text x = Key.text y) : x = y :=
  Text.ofString_injective (Key.text.inj h)

namespace Scope

variable {name other : Key} {value : Value} {scope : Scope}

theorem get?_cons (key : Key) (v : Value) (rest : Scope) :
    get? name ((key, v) :: rest) = if name = key then some v else get? name rest := by
  rw [get?, List.lookup_cons]
  by_cases h : name = key
  · rw [if_pos h, beq_iff_eq.mpr h]
  · rw [if_neg h, beq_false_of_ne h]
    rfl

@[simp] theorem get?_bind_self (name : Key) (value : Value) (scope : Scope) :
    (scope.bind name value).get? name = some value := by
  induction scope with
  | nil =>
      rw [bind, get?_cons, if_pos rfl]
  | cons binding rest ih =>
      obtain ⟨key, v⟩ := binding
      rw [bind]
      by_cases h : key = name
      · rw [if_pos h, get?_cons, if_pos h.symm]
      · rw [if_neg h, get?_cons, if_neg (Ne.symm h), ih]

theorem get?_bind_of_ne (h : other ≠ name) :
    (scope.bind name value).get? other = scope.get? other := by
  induction scope with
  | nil =>
      rw [bind, get?_cons, if_neg h]
  | cons binding rest ih =>
      obtain ⟨key, v⟩ := binding
      rw [bind]
      by_cases hkey : key = name
      · subst hkey
        rw [if_pos rfl, get?_cons, get?_cons, if_neg h, if_neg h]
      · rw [if_neg hkey, get?_cons, get?_cons, ih]

end Scope

namespace Environment

variable {name : Key} {value : Value}

theorem get?_global (globals : Scope) : get? ⟨globals, []⟩ name = globals.get? name := by
  rw [get?, scopes, List.findSome?_cons]
  cases globals.get? name <;> rfl

theorem assign?_global (globals : Scope) :
    assign? ⟨globals, []⟩ name value =
      if (globals.get? name).isSome then some ⟨globals.bind name value, []⟩ else none := by
  by_cases h : (globals.get? name).isSome
  · rw [assign?, scopes, assignIn, if_pos h, if_pos h]
  · rw [assign?, scopes, assignIn, if_neg h, if_neg h, assignIn]
    rfl

end Environment

end MiniLox
