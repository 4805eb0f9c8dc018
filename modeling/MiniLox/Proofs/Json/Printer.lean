import MiniLox.Json.Printer
import MiniLox.Proofs.Text.Plain
import MiniLox.Text.Utf8

/-!
# Line ends of documents

A document is put together from the documents of its parts, if all of these have one.  It has no
returns: those in texts are escaped, and what is written between texts has none.  Its text is
therefore the same after it has been stored in a file and read from it.
-/

namespace MiniLox

/-- A text without returns. -/
def Text.Returnless (text : List Char) : Prop := '\r' ∉ text

instance (text : List Char) : Decidable (Text.Returnless text) :=
  inferInstanceAs (Decidable ('\r' ∉ text))

open Text (Returnless)

namespace Text

variable {a b : List Char} {c : Char}

theorem unifyLineEnds_of_returnless {text : List Char} (h : Returnless text) :
    unifyLineEnds text = text := by
  induction text with
  | nil => rfl
  | cons c rest ih =>
      have hc : c ≠ '\r' := by
        rintro rfl
        exact h List.mem_cons_self
      rw [unifyLineEnds, ih fun hmem => h (List.mem_cons_of_mem _ hmem)]
      · rintro _ rfl
        exact fun _ => hc rfl
      · exact hc

@[simp] theorem returnless_append : Returnless (a ++ b) ↔ Returnless a ∧ Returnless b := by
  rw [Returnless, List.mem_append, not_or]
  rfl

@[simp] theorem returnless_cons : Returnless (c :: a) ↔ c ≠ '\r' ∧ Returnless a := by
  rw [Returnless, List.mem_cons, not_or]
  exact and_congr_left fun _ => ne_comm

@[simp] theorem returnless_nil : Returnless [] := List.not_mem_nil

theorem Returnless.of_subset (h : Returnless b) (hsubset : a ⊆ b) : Returnless a :=
  fun hmem => h (hsubset hmem)

theorem returnless_of_digits (h : ∀ c ∈ a, c.isDigit) : Returnless a :=
  fun hmem => absurd (h _ hmem) (by decide)

theorem returnless_replicate {n : Nat} (h : c ≠ '\r') : Returnless (List.replicate n c) :=
  fun hmem => h (List.eq_of_mem_replicate hmem).symm

theorem returnless_intercalate {between : String} {parts : List String}
    (hbetween : Returnless between.toList) (h : ∀ part ∈ parts, Returnless part.toList) :
    Returnless (between.intercalate parts).toList := by
  induction parts with
  | nil => exact List.not_mem_nil
  | cons part rest ih =>
      obtain ⟨hpart, hrest⟩ := List.forall_mem_cons.mp h
      cases rest with
      | nil =>
          rw [String.intercalate_singleton]
          exact hpart
      | cons next rest =>
          rw [String.intercalate_cons_cons, String.toList_append, String.toList_append,
            returnless_append, returnless_append]
          exact ⟨⟨hpart, hbetween⟩, ih hrest⟩

end Text

open Text

/-! ## Numbers -/

theorem returnless_toDigits (n : Nat) : Returnless (Nat.toDigits 10 n) :=
  returnless_of_digits fun _ h => Nat.isDigit_of_mem_toDigits (by decide) (by decide) h

theorem returnless_toString_nat (n : Nat) : Returnless (toString n).toList := by
  rw [Nat.toString_eq_ofList_toDigits, String.toList_ofList]
  exact returnless_toDigits n

theorem returnless_toString_int (i : Int) : Returnless (toString i).toList := by
  cases i with
  | ofNat n => exact returnless_toString_nat n
  | negSucc n =>
      change Returnless ("-" ++ toString (n + 1)).toList
      rw [String.toList_append, returnless_append]
      exact ⟨by decide, returnless_toString_nat (n + 1)⟩

theorem returnless_stripZeros {digits : List Char} (h : Returnless digits) :
    Returnless (Decimal.stripZeros digits) := by
  apply h.of_subset
  intro c hc
  rw [Decimal.stripZeros, List.mem_reverse] at hc
  exact List.mem_reverse.mp ((List.dropWhile_suffix _).subset hc)

theorem returnless_split (d : Decimal) : Returnless d.split.1 ∧ Returnless d.split.2 := by
  have hzeros : ∀ n, Returnless (List.replicate n '0') :=
    fun n => returnless_replicate (by decide)
  have hdigits := returnless_toDigits d.coefficient
  rw [Decimal.split]
  split
  · refine ⟨?_, returnless_nil⟩
    dsimp only
    split
    · exact hdigits
    · exact returnless_append.mpr ⟨hdigits, hzeros _⟩
  · have hpadded : Returnless (List.replicate
        ((-d.exponent).toNat + 1 - (Nat.toDigits 10 d.coefficient).length) '0' ++
          Nat.toDigits 10 d.coefficient) := returnless_append.mpr ⟨hzeros _, hdigits⟩
    exact ⟨hpadded.of_subset (List.take_subset _ _), hpadded.of_subset (List.drop_subset _ _)⟩

theorem returnless_positional (d : Decimal) : Returnless d.positional.toList := by
  obtain ⟨hwhole, hfraction⟩ := returnless_split d
  rw [Decimal.positional]
  dsimp only
  rw [String.toList_ofList]
  split
  · exact hwhole
  · rw [returnless_append, returnless_cons]
    exact ⟨hwhole, by decide, returnless_stripZeros hfraction⟩

theorem returnless_exponentText (e : Int) : Returnless (Number.exponentText e).toList := by
  have hsize := returnless_toString_nat e.natAbs
  rw [Number.exponentText, String.toList_append, returnless_append]
  constructor
  · split <;> decide
  · split
    · rw [String.toList_append, returnless_append]
      exact ⟨by decide, hsize⟩
    · exact hsize

theorem returnless_decimalText (d : Decimal) : Returnless (Number.decimalText d).toList := by
  have hpositional := returnless_positional d
  have hdigits := returnless_stripZeros (returnless_toDigits d.coefficient)
  rw [Number.decimalText]
  dsimp only
  split
  · split
    · exact hpositional
    · rw [String.toList_append, returnless_append]
      exact ⟨hpositional, by decide⟩
  · split
    · decide
    · next c hstrip =>
      rw [hstrip] at hdigits
      rw [String.toList_append, String.toList_ofList, returnless_append]
      exact ⟨hdigits, returnless_exponentText _⟩
    · next c rest _ hstrip =>
      rw [hstrip, returnless_cons] at hdigits
      rw [String.toList_append, String.toList_ofList, returnless_append, returnless_cons,
        returnless_cons]
      exact ⟨⟨hdigits.1, by decide, hdigits.2⟩, returnless_exponentText _⟩

theorem returnless_literalWith (n : Number) {undefined huge : String}
    (hundefined : Returnless undefined.toList) (hhuge : Returnless huge.toList) :
    Returnless (n.literalWith undefined huge).toList := by
  have hsigned : ∀ (negative : Bool) (text : String), Returnless text.toList →
      Returnless (if negative then "-" ++ text else text).toList := by
    intro negative text htext
    split
    · rw [String.toList_append, returnless_append]
      exact ⟨by decide, htext⟩
    · exact htext
  cases n with
  | nan => exact hundefined
  | infinity negative => exact hsigned negative huge hhuge
  | finite negative m =>
      apply hsigned
      split
      · decide
      · exact returnless_decimalText _

/-! ## Documents -/

namespace Json

variable {level : Nat} {text : String} {lines : List String}

theorem printAt_text_eq_some {t : Text} (h : printAt level (.text t) = some text) :
    ∃ s : String, t = s ∧ text = printText s := by
  obtain ⟨s, hs, h⟩ := Option.bind_eq_some_iff.mp h
  exact ⟨s, Text.plain?_eq_some_iff.mp hs, (Option.some.inj h).symm⟩

theorem printAt_array_eq_some {items : List Json} (h : printAt level (.array items) = some text) :
    ∃ lines, printItems (level + 1) items = some lines ∧
      text = bracketed "[" "]" level lines := by
  obtain ⟨lines, hlines, h⟩ := Option.bind_eq_some_iff.mp h
  exact ⟨lines, hlines, (Option.some.inj h).symm⟩

theorem printAt_object_eq_some {members : List (Text × Json)}
    (h : printAt level (.object members) = some text) :
    ∃ lines, printMembers (level + 1) members = some lines ∧
      text = bracketed "\x7b" "\x7d" level lines := by
  obtain ⟨lines, hlines, h⟩ := Option.bind_eq_some_iff.mp h
  exact ⟨lines, hlines, (Option.some.inj h).symm⟩

theorem printItems_cons_eq_some {item : Json} {items : List Json}
    (h : printItems level (item :: items) = some lines) :
    ∃ text others, printAt level item = some text ∧ printItems level items = some others ∧
      lines = text :: others := by
  obtain ⟨text, htext, h⟩ := Option.bind_eq_some_iff.mp h
  obtain ⟨others, hothers, h⟩ := Option.bind_eq_some_iff.mp h
  exact ⟨text, others, htext, hothers, (Option.some.inj h).symm⟩

theorem printMembers_cons_eq_some {name : Text} {value : Json} {members : List (Text × Json)}
    (h : printMembers level ((name, value) :: members) = some lines) :
    ∃ (s text : String) (others : List String), name = s ∧ printAt level value = some text ∧
      printMembers level members = some others ∧
        lines = (printText s ++ ": " ++ text) :: others := by
  obtain ⟨s, hs, h⟩ := Option.bind_eq_some_iff.mp h
  obtain ⟨text, htext, h⟩ := Option.bind_eq_some_iff.mp h
  obtain ⟨others, hothers, h⟩ := Option.bind_eq_some_iff.mp h
  exact ⟨s, text, others, Text.plain?_eq_some_iff.mp hs, htext, hothers, (Option.some.inj h).symm⟩

theorem returnless_hexDigits (width n : Nat) : Returnless (Text.hexDigits width n) := by
  induction width generalizing n with
  | zero => exact returnless_nil
  | succ width ih =>
      have hdigit : ∀ m < 16, Nat.digitChar m ≠ '\r' := by decide
      rw [Text.hexDigits, returnless_append, returnless_cons]
      exact ⟨ih _, hdigit _ (Nat.mod_lt _ (by decide)), returnless_nil⟩

theorem returnless_escapedChar (c : Char) : Returnless (escapedChar c) := by
  unfold escapedChar
  split
  · decide
  · decide
  · decide
  · decide
  · decide
  · decide
  · decide
  · next hreturn _ _ _ =>
    split
    · rw [returnless_cons, returnless_cons]
      exact ⟨by decide, by decide, returnless_hexDigits _ _⟩
    · rw [returnless_cons]
      exact ⟨hreturn, returnless_nil⟩

theorem returnless_printText (s : String) : Returnless (printText s).toList := by
  rw [printText, String.toList_ofList, returnless_append, returnless_cons]
  refine ⟨⟨by decide, ?_⟩, by decide⟩
  intro hmem
  obtain ⟨c, -, hc⟩ := List.mem_flatMap.mp hmem
  exact returnless_escapedChar c hc

theorem returnless_lineStart (level : Nat) : Returnless (lineStart level).toList := by
  rw [lineStart, String.toList_append, returnless_append,
    String.toList_ofList (l := List.replicate (2 * level) ' ')]
  exact ⟨by decide, returnless_replicate (by decide)⟩

theorem returnless_bracketed {opening closing : String} {level : Nat} {lines : List String}
    (hopening : Returnless opening.toList) (hclosing : Returnless closing.toList)
    (h : ∀ line ∈ lines, Returnless line.toList) :
    Returnless (bracketed opening closing level lines).toList := by
  have hbetween : Returnless ("," ++ lineStart (level + 1)).toList := by
    rw [String.toList_append, returnless_append]
    exact ⟨by decide, returnless_lineStart _⟩
  rw [bracketed]
  split
  · rw [String.toList_append, returnless_append]
    exact ⟨hopening, hclosing⟩
  · simp only [String.toList_append, returnless_append]
    exact ⟨⟨⟨⟨hopening, returnless_lineStart _⟩, returnless_intercalate hbetween h⟩,
      returnless_lineStart _⟩, hclosing⟩

mutual

theorem returnless_printAt (level : Nat) :
    (j : Json) → ∀ text ∈ printAt level j, Returnless text.toList
  | .null, _, rfl => (by decide : Returnless "null".toList)
  | .boolean true, _, rfl => (by decide : Returnless "true".toList)
  | .boolean false, _, rfl => (by decide : Returnless "false".toList)
  | .whole i, _, rfl => returnless_toString_int i
  | .real n, _, rfl => returnless_literalWith n (by decide) (by decide)
  | .text _, _, h => by
      obtain ⟨s, -, rfl⟩ := printAt_text_eq_some h
      exact returnless_printText s
  | .array items, _, h => by
      obtain ⟨lines, hlines, rfl⟩ := printAt_array_eq_some h
      exact returnless_bracketed (by decide) (by decide)
        (returnless_printItems (level + 1) items lines hlines)
  | .object members, _, h => by
      obtain ⟨lines, hlines, rfl⟩ := printAt_object_eq_some h
      exact returnless_bracketed (by decide) (by decide)
        (returnless_printMembers (level + 1) members lines hlines)

theorem returnless_printItems (level : Nat) : (items : List Json) →
    ∀ lines ∈ printItems level items, ∀ line ∈ lines, Returnless line.toList
  | [], _, rfl => List.forall_mem_nil _
  | item :: rest, _, h => by
      obtain ⟨first, others, hfirst, hothers, rfl⟩ := printItems_cons_eq_some h
      exact List.forall_mem_cons.mpr ⟨returnless_printAt level item first hfirst,
        returnless_printItems level rest others hothers⟩

theorem returnless_printMembers (level : Nat) : (members : List (Text × Json)) →
    ∀ lines ∈ printMembers level members, ∀ line ∈ lines, Returnless line.toList
  | [], _, rfl => List.forall_mem_nil _
  | (name, value) :: rest, _, h => by
      obtain ⟨name, text, others, -, htext, hothers, rfl⟩ := printMembers_cons_eq_some h
      refine List.forall_mem_cons.mpr ⟨?_, returnless_printMembers level rest others hothers⟩
      rw [String.toList_append, String.toList_append, returnless_append, returnless_append]
      exact ⟨⟨returnless_printText name, by decide⟩, returnless_printAt level value text htext⟩

end

theorem returnless_print {j : Json} {text : String} (h : j.print = some text) :
    Returnless text.toList :=
  returnless_printAt 0 j text h

end Json

end MiniLox
