import MiniLox.CommandLine.Run

/-!
# Text through octets

The octets of a text are read as the text.  The first octet of a character tells how many
follow; each of these carries six binary digits, and those of the whole character are the
digits of its code point.
-/

namespace MiniLox

namespace Text

variable {offset n m : Nat} {text : List Char} {rest : List UInt8}

/-! ## Octets of one character -/

/-- An octet after the first one of a character, with six binary digits. -/
def tailOctet (m : Nat) : UInt8 := .ofNat (m % 64 + 0x80)

/-- An octet starts a character with some binary digits, of which a number of octets follow,
and the next of these may be the second. -/
def leads (first : UInt8) (bits following : Nat) (second : UInt8) : Bool :=
  (Utf8Lead.of? first).any fun lead =>
    lead.bits == bits && lead.following == following &&
      decide (lead.low ≤ second) && decide (second ≤ lead.high)

/-- Fewer digits than two octets need have none. -/
theorem leads_two : ∀ n < 32, 2 ≤ n → ∀ m < 64,
    leads (.ofNat (n + 0xC0)) n 1 (.ofNat (m + 0x80)) := by
  decide +kernel

/-- Neither fewer digits than three octets need, nor those of half a character. -/
theorem leads_three : ∀ n < 16, ∀ m < 64, (n = 0 → 32 ≤ m) → (n = 13 → m < 32) →
    leads (.ofNat (n + 0xE0)) n 2 (.ofNat (m + 0x80)) := by
  decide +kernel

/-- Neither fewer digits than four octets need, nor more than a character has. -/
theorem leads_four : ∀ n < 5, ∀ m < 64, (n = 0 → 16 ≤ m) → (n = 4 → m < 16) →
    leads (.ofNat (n + 0xF0)) n 3 (.ofNat (m + 0x80)) := by
  decide +kernel

theorem decodeFrom_one (h : n < 0x80) :
    decodeFrom offset none text (.ofNat n :: rest) =
      decodeFrom (offset + 1) none (Char.ofNat n :: text) rest := by
  have hall : ∀ n < 0x80, leads (.ofNat n) n 0 0x80 := by decide
  have hlead := hall n h
  rw [leads] at hlead
  rw [decodeFrom]
  cases hfirst : Utf8Lead.of? (.ofNat n) with
  | none =>
      rw [hfirst] at hlead
      cases hlead
  | some lead =>
      rw [hfirst] at hlead
      simp only [Option.any_some, Bool.and_eq_true, beq_iff_eq] at hlead
      dsimp only
      rw [if_pos hlead.1.1.2, hlead.1.1.1]

/-- Two octets that start a character leave the digits of both, and the octets after them. -/
theorem decodeFrom_lead {first : UInt8} {following : Nat}
    (h : leads first n (following + 1) (tailOctet m)) :
    decodeFrom offset none text (first :: tailOctet m :: rest) =
      if following = 0 then
        decodeFrom (offset + 2) none (Char.ofNat (n * 64 + m % 64) :: text) rest
      else
        decodeFrom (offset + 2)
          (some ⟨offset, first, n * 64 + m % 64, 2, following, 0x80, 0xBF⟩) text rest := by
  have hdigits : (tailOctet m).toNat - 0x80 = m % 64 := by
    rw [tailOctet, UInt8.toNat_ofNat']
    omega
  rw [leads] at h
  cases hfirst : Utf8Lead.of? first with
  | none =>
      rw [hfirst] at h
      cases h
  | some lead =>
      rw [hfirst] at h
      simp only [Option.any_some, Bool.and_eq_true, beq_iff_eq, decide_eq_true_eq] at h
      obtain ⟨⟨⟨hbits, hfollowing⟩, hlow⟩, hhigh⟩ := h
      rw [decodeFrom, hfirst]
      dsimp only
      rw [if_neg (by omega), decodeFrom]
      dsimp only
      rw [if_pos ⟨hlow, hhigh⟩, hfollowing, hbits, hdigits]
      by_cases hlast : following = 0
      · rw [if_pos hlast, if_pos (by omega)]
      · rw [if_neg hlast, if_neg (by omega)]
        rfl

theorem decodeFrom_tail {first taken missing : Nat} {octet : UInt8} {bits : Nat} :
    decodeFrom offset (some ⟨first, octet, bits, taken, missing, 0x80, 0xBF⟩) text
        (tailOctet m :: rest) =
      if missing = 1 then
        decodeFrom (offset + 1) none (Char.ofNat (bits * 64 + m % 64) :: text) rest
      else
        decodeFrom (offset + 1)
          (some ⟨first, octet, bits * 64 + m % 64, taken + 1, missing - 1, 0x80, 0xBF⟩) text
          rest := by
  have hdigits : (tailOctet m).toNat - 0x80 = m % 64 := by
    rw [tailOctet, UInt8.toNat_ofNat']
    omega
  have hlow : 0x80 ≤ tailOctet m := by
    rw [UInt8.le_iff_toNat_le, tailOctet, UInt8.toNat_ofNat']
    change 128 ≤ _
    omega
  have hhigh : tailOctet m ≤ 0xBF := by
    rw [UInt8.le_iff_toNat_le, tailOctet, UInt8.toNat_ofNat']
    change _ ≤ 191
    omega
  rw [decodeFrom]
  dsimp only
  rw [if_pos ⟨hlow, hhigh⟩, hdigits]

/-! ## Texts -/

/-- The octets of a character are read as the character. -/
theorem decodeFrom_utf8EncodeChar (c : Char) (offset : Nat) (text : List Char)
    (rest : List UInt8) :
    ∃ count, decodeFrom offset none text (String.utf8EncodeChar c ++ rest) =
      decodeFrom (offset + count) none (c :: text) rest := by
  have hchar : Char.ofNat c.val.toNat = c := Char.ofNat_toNat c
  have hvalid : c.val.toNat < 0xD800 ∨ 0xDFFF < c.val.toNat ∧ c.val.toNat < 0x110000 := c.valid
  rw [String.utf8EncodeChar]
  generalize c.val.toNat = v at hchar hvalid
  split
  · exact ⟨1, by rw [← hchar]; exact decodeFrom_one (by omega)⟩
  · split
    · have hlead : leads (.ofNat (v / 64 % 0x20 + 0xC0)) (v / 64 % 0x20) 1 (tailOctet v) :=
        leads_two _ (by omega) (by omega) _ (by omega)
      refine ⟨2, (decodeFrom_lead hlead).trans ?_⟩
      rw [if_pos rfl, show v / 64 % 0x20 * 64 + v % 64 = v by omega, hchar]
      rfl
    · split
      · have hlead : leads (.ofNat (v / 4096 % 0x10 + 0xE0)) (v / 4096 % 0x10) 2
            (tailOctet (v / 64)) :=
          leads_three _ (by omega) _ (by omega) (by omega) (by omega)
        refine ⟨3, (decodeFrom_lead hlead).trans ?_⟩
        rw [if_neg (by decide)]
        refine decodeFrom_tail.trans ?_
        rw [if_pos rfl,
          show (v / 4096 % 0x10 * 64 + v / 64 % 64) * 64 + v % 64 = v by omega, hchar]
        rfl
      · have hlead : leads (.ofNat (v / 262144 % 0x08 + 0xF0)) (v / 262144 % 0x08) 3
            (tailOctet (v / 4096)) :=
          leads_four _ (by omega) _ (by omega) (by omega) (by omega)
        refine ⟨4, (decodeFrom_lead hlead).trans ?_⟩
        rw [if_neg (by decide)]
        refine decodeFrom_tail.trans ?_
        rw [if_neg (by decide)]
        refine decodeFrom_tail.trans ?_
        rw [if_pos rfl, show ((v / 262144 % 0x08 * 64 + v / 4096 % 64) * 64 + v / 64 % 64) * 64 +
          v % 64 = v by omega, hchar]
        rfl

/-- The octets of a text are read as its characters. -/
theorem decode_octetsOf (text : Text) :
    decode (CommandLine.octetsOf text) = .ok text.chars := by
  have hall : ∀ (before after : List Char) (offset : Nat),
      decodeFrom offset none before (after.flatMap String.utf8EncodeChar) =
        .ok (before.reverse ++ after) := by
    intro before after offset
    induction after generalizing before offset with
    | nil => rw [List.flatMap_nil, decodeFrom, List.append_nil]
    | cons c after ih =>
        obtain ⟨count, hcount⟩ :=
          decodeFrom_utf8EncodeChar c offset before (after.flatMap String.utf8EncodeChar)
        rw [List.flatMap_cons, hcount, ih, List.reverse_cons, List.append_assoc]
        rfl
  have htext := hall [] text.chars 0
  rw [List.reverse_nil, List.nil_append] at htext
  exact htext

end Text

end MiniLox
