import MiniLox.Json.Basic

/-!
# Equal data

Two pieces of data are the same exactly if they are equal, so that equality of data is decidable.
-/

namespace MiniLox.Json

mutual

theorem eq_of_same : {a b : Json} → a.same b = true → a = b
  | .null, .null, _ => rfl
  | .boolean _, .boolean _, h => congrArg boolean (eq_of_beq h)
  | .whole _, .whole _, h => congrArg whole (eq_of_beq h)
  | .real _, .real _, h => congrArg real (eq_of_beq h)
  | .text _, .text _, h => congrArg text (eq_of_beq h)
  | .array _, .array _, h => congrArg array (eq_of_sameItems h)
  | .object _, .object _, h => congrArg object (eq_of_sameMembers h)

theorem eq_of_sameItems : {as bs : List Json} → sameItems as bs = true → as = bs
  | [], [], _ => rfl
  | _ :: _, _ :: _, h => by
      obtain ⟨hfirst, hrest⟩ := Bool.and_eq_true_iff.mp h
      rw [eq_of_same hfirst, eq_of_sameItems hrest]

theorem eq_of_sameMembers : {as bs : List (Text × Json)} → sameMembers as bs = true → as = bs
  | [], [], _ => rfl
  | (_, _) :: _, (_, _) :: _, h => by
      obtain ⟨hfirst, hrest⟩ := Bool.and_eq_true_iff.mp h
      obtain ⟨hname, hvalue⟩ := Bool.and_eq_true_iff.mp hfirst
      rw [eq_of_beq hname, eq_of_same hvalue, eq_of_sameMembers hrest]

end

mutual

theorem same_self : (a : Json) → a.same a = true
  | .null => rfl
  | .boolean b => beq_self_eq_true b
  | .whole i => beq_self_eq_true i
  | .real n => beq_self_eq_true n
  | .text s => beq_self_eq_true s
  | .array items => sameItems_self items
  | .object members => sameMembers_self members

theorem sameItems_self : (items : List Json) → sameItems items items = true
  | [] => rfl
  | item :: rest => Bool.and_eq_true_iff.mpr ⟨same_self item, sameItems_self rest⟩

theorem sameMembers_self : (members : List (Text × Json)) → sameMembers members members = true
  | [] => rfl
  | (name, value) :: rest =>
      Bool.and_eq_true_iff.mpr ⟨Bool.and_eq_true_iff.mpr ⟨beq_self_eq_true name, same_self value⟩,
        sameMembers_self rest⟩

end

theorem same_iff {a b : Json} : a.same b = true ↔ a = b := by
  constructor
  · exact eq_of_same
  · rintro rfl
    exact same_self a

instance : DecidableEq Json := fun _ _ => decidable_of_iff _ same_iff

end MiniLox.Json
