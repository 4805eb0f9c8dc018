import Mathlib.Data.List.Basic
import MiniLox.Text.Basic

/-!
# Plain texts

The strings are the plain texts: a string is a plain text, and every plain text is one string.
-/

namespace MiniLox

namespace Text

variable {s : String} {a b : Text}

@[simp] theorem points_ofString (s : String) : (ofString s).points = s.toList.map .char := rfl

theorem ofString_injective : Function.Injective ofString := by
  intro s u h
  have hchars : s.toList = u.toList :=
    List.map_injective_iff.mpr (fun _ _ => CodePoint.char.inj) (congrArg points h)
  exact String.toList_injective hchars

theorem append_assoc (a b c : Text) : a ++ b ++ c = a ++ (b ++ c) :=
  congrArg Text.mk (List.append_assoc _ _ _)

@[simp] theorem isPlain_append : (a ++ b).isPlain = (a.isPlain && b.isPlain) := List.all_append

@[simp] theorem isPlain_ofString (s : String) : (ofString s).isPlain = true := by
  simp [isPlain, CodePoint.isChar, CodePoint.char?]

@[simp] theorem chars_ofString (s : String) : (ofString s).chars = s.toList := by
  simp [chars, List.filterMap_map, Function.comp_def, CodePoint.char?]

@[simp] theorem chars_append : (a ++ b).chars = a.chars ++ b.chars := List.filterMap_append

@[simp] theorem plain?_ofString (s : String) : (ofString s).plain? = some s := by
  rw [plain?, if_pos (isPlain_ofString s), chars_ofString, String.ofList_toList]

/-- Every plain text is one string. -/
theorem exists_ofString_eq (h : a.isPlain) : ∃ s, a = ofString s := by
  refine ⟨String.ofList a.chars, congrArg Text.mk ?_⟩
  rw [String.toList_ofList, chars]
  obtain ⟨points⟩ := a
  induction points with
  | nil => rfl
  | cons p rest ih =>
      rw [isPlain, List.all_cons, Bool.and_eq_true] at h
      cases p with
      | char c => exact congrArg (CodePoint.char c :: ·) (ih h.2)
      | half _ => exact absurd h.1 Bool.false_ne_true

theorem plain?_eq_some_iff : a.plain? = some s ↔ a = ofString s := by
  constructor
  · intro h
    rw [plain?] at h
    split at h
    · next hplain =>
      obtain ⟨u, rfl⟩ := exists_ofString_eq hplain
      rw [chars_ofString, String.ofList_toList] at h
      rw [Option.some.inj h]
    · cases h
  · rintro rfl
    exact plain?_ofString s

end Text

end MiniLox
