import MiniLox.Proofs.Json.Numerals
import MiniLox.Proofs.Json.Printer

/-!
# Documents read back

Data has a document and is read back from it as it was, if its texts are plain, its whole
numbers have no more digits than may be read, and the names of each object differ.

Every value is read from the front of a longer text, in which a comma, a line end or nothing
follows; the induction is on the data, with one step lemma for each way in which a reader goes on.
-/

namespace MiniLox

open Numeric
open Decimal (IsWhole pointed ofDigits)
open Number (exponentChars)

namespace Json

variable {text rest mid : List Char}

/-! ## Text -/

theorem reads_escape {start : List Char} {tail : List CodePoint} {letter c : Char}
    (hletter : letter ≠ 'u') (hescape : shortEscape? letter = some c)
    (h : Reads (readText start rest) tail mid) :
    Reads (readText start ('\\' :: letter :: rest)) (.char c :: tail) mid := by
  rw [readText, hescape]
  · exact h.bind fun _ => reads_ok rfl rfl
  · exact hletter

theorem reads_plain {start : List Char} {tail : List CodePoint} {c : Char} (hquote : c ≠ '"')
    (hslash : c ≠ '\\') (hcontrol : ¬c < ' ') (h : Reads (readText start rest) tail mid) :
    Reads (readText start (c :: rest)) (.char c :: tail) mid := by
  rw [readText, if_neg hcontrol]
  · exact h.bind fun _ => reads_ok rfl rfl
  · exact hquote
  · rintro rfl
    exact fun _ => hslash rfl
  · rintro _ rfl
    exact fun _ => hslash rfl
  · rintro _ _ rfl
    exact fun _ => hslash rfl

theorem reads_readUnit {start : List Char} {a b c d : Char} {code : Nat}
    (hcode : hexValues? a b c d = some code) (hlow : code < 0xD800) (hrest : rest ≠ []) :
    Reads (readUnit start (a :: b :: c :: d :: rest)) (loneUnit code) rest := by
  by_cases hpair : ∃ i j k l m tail, rest = '\\' :: 'u' :: i :: j :: k :: l :: m :: tail
  · obtain ⟨i, j, k, l, m, tail, rfl⟩ := hpair
    have hhalf : ¬(0xD800 ≤ code ∧ code < 0xDC00) := by omega
    simp only [readUnit, hcode, if_neg hhalf]
    exact reads_ok rfl rfl
  · obtain ⟨next, tail, rfl⟩ := List.exists_cons_of_ne_nil hrest
    have hother : ∀ i j k l m more, next = '\\' →
        tail = 'u' :: i :: j :: k :: l :: m :: more → False := by
      rintro i j k l m more rfl rfl
      exact hpair ⟨i, j, k, l, m, more, rfl⟩
    simp only [readUnit, hcode]
    exact reads_ok rfl rfl

/-- Four digits write every number below two to the power of sixteen. -/
theorem hexValues?_hexDigits {n : Nat} (h : n < 0x20) :
    ∃ a b c d, Text.hexDigits 4 n = [a, b, c, d] ∧ hexValues? a b c d = some n := by
  have hall : ∀ n < 0x20, ∃ a b c d, Text.hexDigits 4 n = [a, b, c, d] ∧
      hexValues? a b c d = some n := by
    intro n hn
    refine ⟨_, _, _, _, rfl, ?_⟩
    revert n
    decide
  exact hall n h

/-- A character is written as a letter after a backslash, as four digits, or as itself. -/
theorem escapedChar_cases (c : Char) :
    (∃ letter, escapedChar c = ['\\', letter] ∧ letter ≠ 'u' ∧ shortEscape? letter = some c) ∨
      (c.toNat < 0x20 ∧ escapedChar c = '\\' :: 'u' :: Text.hexDigits 4 c.toNat) ∨
      (escapedChar c = [c] ∧ c ≠ '"' ∧ c ≠ '\\' ∧ ¬c.toNat < 0x20) := by
  unfold escapedChar
  split
  · exact .inl ⟨_, rfl, by decide, rfl⟩
  · exact .inl ⟨_, rfl, by decide, rfl⟩
  · exact .inl ⟨_, rfl, by decide, rfl⟩
  · exact .inl ⟨_, rfl, by decide, rfl⟩
  · exact .inl ⟨_, rfl, by decide, rfl⟩
  · exact .inl ⟨_, rfl, by decide, rfl⟩
  · exact .inl ⟨_, rfl, by decide, rfl⟩
  · next hquote hslash _ _ _ _ _ =>
    split
    · next hcontrol => exact .inr (.inl ⟨hcontrol, rfl⟩)
    · next hcontrol => exact .inr (.inr ⟨rfl, hquote, hslash, hcontrol⟩)

theorem reads_escapedChar {start : List Char} {tail : List CodePoint} {next : Char} (c : Char)
    (h : Reads (readText start (next :: rest)) tail mid) :
    Reads (readText start (escapedChar c ++ next :: rest)) (.char c :: tail) mid := by
  rcases escapedChar_cases c with ⟨letter, htext, hletter, hescape⟩ | ⟨hcontrol, htext⟩ |
    ⟨htext, hquote, hslash, hcontrol⟩
  · rw [htext]
    exact reads_escape hletter hescape h
  · obtain ⟨i, j, k, l, hdigits, hvalue⟩ := hexValues?_hexDigits hcontrol
    have hc : loneUnit c.toNat = .char c := by
      rw [loneUnit, dif_neg (by omega), Char.ofNat_toNat]
    have hunit : Reads (readUnit ('u' :: i :: j :: k :: l :: next :: rest)
        (i :: j :: k :: l :: next :: rest)) (.char c) (next :: rest) := by
      rw [← hc]
      exact reads_readUnit hvalue (by omega) (List.cons_ne_nil _ _)
    rw [htext, hdigits]
    change Reads (readText start ('\\' :: 'u' :: i :: j :: k :: l :: next :: rest)) _ _
    rw [readText]
    exact hunit.bind fun _ => h.bind fun _ => reads_ok rfl rfl
  · rw [htext]
    exact reads_plain hquote hslash hcontrol h

/-- A text ends at the quote that no escape stands for. -/
theorem reads_readText (start : List Char) (s : List Char) :
    Reads (readText start (s.flatMap escapedChar ++ '"' :: rest)) (s.map .char) rest := by
  induction s with
  | nil =>
      change Reads (readText start ('"' :: rest)) _ _
      rw [readText]
      exact reads_ok rfl rfl
  | cons c s ih =>
      rw [List.flatMap_cons, List.append_assoc]
      obtain ⟨next, others, hnext⟩ : ∃ next others,
          s.flatMap escapedChar ++ '"' :: rest = next :: others := by
        cases s.flatMap escapedChar with
        | nil => exact ⟨_, _, rfl⟩
        | cons next others => exact ⟨next, _, rfl⟩
      rw [hnext] at ih ⊢
      exact reads_escapedChar c ih

/-! ## Steps of the readers -/

/-- The characters that a value which is no number begins with, and the minus of a number. -/
def valueStarts : List Char := ['"', '\x7b', '[', 'n', 't', 'f', 'N', 'I', '-']

theorem readValue_eq {c : Char} (hc : c ∉ valueStarts) :
    readValue (c :: text) = readNumber false (c :: text) (c :: text) := by
  simp only [valueStarts, List.mem_cons, not_or] at hc
  rw [readValue]
  all_goals grind

theorem reads_digit {c : Char} {v : Json} (hc : c.isDigit)
    (h : Reads (readNumber false (c :: text) (c :: text)) v rest) :
    Reads (readValue (c :: text)) v rest := by
  have hstart : c ∉ valueStarts := by
    have hall : valueStarts.all fun d => !d.isDigit := by decide
    intro hmem
    have hnot := List.all_eq_true.mp hall c hmem
    rw [hc] at hnot
    cases hnot
  rwa [readValue_eq hstart]

theorem reads_minus {c : Char} {v : Json} (hc : c.isDigit)
    (h : Reads (readNumber true ('-' :: c :: text) (c :: text)) v rest) :
    Reads (readValue ('-' :: c :: text)) v rest := by
  rw [readValue]
  · exact h.bind fun _ => reads_ok rfl rfl
  · intro after heq
    cases heq
    exact absurd hc (by decide)

/-- No value is read from a text that begins with something else. -/
theorem Reads.exists_start {v : Json} (h : Reads (readValue text) v rest) :
    ∃ c more, text = c :: more ∧ (c.isDigit ∨ c ∈ valueStarts) := by
  match text with
  | [] =>
      obtain ⟨shorter, -⟩ := h
      exact absurd shorter (Nat.not_lt_zero _)
  | c :: more =>
      refine ⟨c, more, rfl, ?_⟩
      by_cases hc : c ∈ valueStarts
      · exact .inr hc
      · by_cases hdigit : c.isDigit
        · exact .inl hdigit
        · obtain ⟨shorter, h⟩ := h
          rw [readValue_eq hc, readNumber, if_neg hdigit] at h
          · cases h
          · rintro rfl
            exact hdigit (by decide)

theorem Reads.skip_eq {v : Json} (h : Reads (readValue text) v rest) : skip text = text := by
  obtain ⟨c, more, rfl, hc⟩ := h.exists_start
  apply List.dropWhile_cons_of_neg
  have hall : ∀ d, isSpace d → ¬d.isDigit ∧ d ∉ valueStarts := by
    intro d hd
    simp only [isSpace, Bool.or_eq_true, beq_iff_eq] at hd
    rcases hd with ((rfl | rfl) | rfl) | rfl
    · decide
    · decide
    · decide
    · decide
  intro hspace
  exact hc.elim (hall c hspace).1 (hall c hspace).2

/-- An item is followed by the closing bracket, or by a comma and more items. -/
theorem reads_readItems {v : Json} {items : List Json} (h : Reads (readValue text) v mid)
    (hend : skip mid = ']' :: rest ∧ items = [v] ∨ ∃ after others, skip mid = ',' :: after ∧
      Reads (readItems (skip after)) others rest ∧ items = v :: others) :
    Reads (readItems text) items rest := by
  rw [readItems]
  apply h.bind
  intro shorter
  rcases hend with ⟨hskip, rfl⟩ | ⟨after, others, hskip, hothers, rfl⟩
  · dsimp only
    split
    · next heq =>
      cases hskip.symm.trans heq
      exact reads_ok rfl rfl
    · next heq => cases hskip.symm.trans heq
    · next hbracket _ => exact absurd hskip (hbracket _)
  · dsimp only
    split
    · next heq => cases hskip.symm.trans heq
    · next heq =>
      cases hskip.symm.trans heq
      exact hothers.bind fun _ => reads_ok rfl rfl
    · next hcomma => exact absurd hskip (hcomma _)

/-- A member is followed by the closing brace, or by a comma and more members. -/
theorem reads_readMembers {name : List CodePoint} {afterName afterColon : List Char} {v : Json}
    {before members : List (Text × Json)}
    (hname : Reads (readText ('"' :: text) text) name afterName)
    (hcolon : skip afterName = ':' :: afterColon) (h : Reads (readValue (skip afterColon)) v mid)
    (hend : skip mid = '\x7d' :: rest ∧ members = insert ⟨name⟩ v before ∨
      ∃ after, skip mid = ',' :: after ∧
        Reads (readMembers (insert ⟨name⟩ v before) (skip after)) members rest) :
    Reads (readMembers before ('"' :: text)) members rest := by
  rw [readMembers]
  apply hname.bind
  intro shorter
  dsimp only
  split
  · next heq =>
    cases hcolon.symm.trans heq
    apply h.bind
    intro shorter
    rcases hend with ⟨hskip, rfl⟩ | ⟨after, hskip, hothers⟩
    · dsimp only
      split
      · next heq =>
        cases hskip.symm.trans heq
        exact reads_ok rfl rfl
      · next heq => cases hskip.symm.trans heq
      · next hbrace _ => exact absurd hskip (hbrace _)
    · dsimp only
      split
      · next heq => cases hskip.symm.trans heq
      · next heq =>
        cases hskip.symm.trans heq
        exact hothers.bind fun _ => reads_ok rfl rfl
      · next hcomma => exact absurd hskip (hcomma _)
  · next hnot => exact absurd hcolon (hnot _)

theorem reads_array {items : List Json} (hopen : ∀ tail, skip text ≠ ']' :: tail)
    (h : Reads (readItems (skip text)) items rest) :
    Reads (readValue ('[' :: text)) (.array items) rest := by
  rw [readValue]
  split
  · next heq => exact absurd heq (hopen _)
  · exact h.bind fun _ => reads_ok rfl rfl

theorem reads_object {members : List (Text × Json)} {after : List Char}
    (hopen : skip text = '"' :: after) (h : Reads (readMembers [] ('"' :: after)) members rest) :
    Reads (readValue ('\x7b' :: text)) (.object members) rest := by
  rw [readValue]
  split
  · next heq => cases hopen.symm.trans heq
  · rw [← hopen] at h
    exact h.bind fun _ => reads_ok rfl rfl

theorem skip_cons {c : Char} (h : ¬isSpace c) : skip (c :: text) = c :: text :=
  List.dropWhile_cons_of_neg h

theorem reads_array_nil : Reads (readValue ('[' :: ']' :: rest)) (.array []) rest := by
  have hskip : skip (']' :: rest) = ']' :: rest := skip_cons (by decide)
  rw [readValue]
  split
  · next heq =>
    cases hskip.symm.trans heq
    exact reads_ok rfl rfl
  · next hnot => exact absurd hskip (hnot _)

theorem reads_object_nil : Reads (readValue ('\x7b' :: '\x7d' :: rest)) (.object []) rest := by
  have hskip : skip ('\x7d' :: rest) = '\x7d' :: rest := skip_cons (by decide)
  rw [readValue]
  split
  · next heq =>
    cases hskip.symm.trans heq
    exact reads_ok rfl rfl
  · next hnot => exact absurd hskip (hnot _)

/-! ## Line ends -/

theorem skip_lineStart (level : Nat) : skip ((lineStart level).toList ++ text) = skip text := by
  have hspace : ∀ c ∈ (lineStart level).toList, isSpace c := by
    intro c hc
    rw [lineStart, String.toList_append, String.toList_ofList (l := List.replicate (2 * level) ' ')]
      at hc
    rcases List.mem_append.mp hc with hc | hc
    · cases List.mem_singleton.mp hc
      rfl
    · rw [List.eq_of_mem_replicate hc]
      rfl
  exact List.dropWhile_append_of_pos hspace

theorem endsValue_lineStart (level : Nat) : EndsValue ((lineStart level).toList ++ text) := by
  rw [lineStart, String.toList_append]
  rintro _ ⟨⟩
  exact .inr rfl

theorem endsValue_comma : EndsValue (',' :: text) := by
  rintro _ ⟨⟩
  exact .inl rfl

/-! ## Documents -/

mutual

/-- Data that can be read back where whole numbers have no more digits than a limit: its texts are
plain, its whole numbers are not too long, and the names of each of its objects differ. -/
def IsReadable (limit : Nat) : Json → Prop
  | .text s => s.isPlain
  | .whole i => (Nat.toDigits 10 i.natAbs).length ≤ limit
  | .array items => AreReadable limit items
  | .object members => (members.map Prod.fst).Nodup ∧ AreReadableMembers limit members
  | .null | .boolean _ | .real _ => True

/-- Items that can be read back. -/
def AreReadable (limit : Nat) : List Json → Prop
  | [] => True
  | item :: rest => item.IsReadable limit ∧ AreReadable limit rest

/-- Members whose names are plain, and whose values can be read back. -/
def AreReadableMembers (limit : Nat) : List (Text × Json) → Prop
  | [] => True
  | (name, value) :: rest => name.isPlain ∧ value.IsReadable limit ∧ AreReadableMembers limit rest

end

theorem insert_of_not_mem {name : Text} {value : Json} {members : List (Text × Json)}
    (h : name ∉ members.map Prod.fst) : insert name value members = members ++ [(name, value)] := by
  induction members with
  | nil => rfl
  | cons m rest ih =>
      obtain ⟨n, v⟩ := m
      rw [List.map_cons, List.mem_cons, not_or] at h
      rw [insert, if_neg (Ne.symm h.1), ih h.2, List.cons_append]

/-- A number is read after its sign. -/
theorem reads_signed {negative : Bool} {whole after : List Char} {v : Json}
    (hwhole : IsWhole whole)
    (h : ∀ start, Reads (readNumber negative start (whole ++ after)) v rest) :
    Reads (readValue ((if negative then ['-'] else []) ++ (whole ++ after))) v rest := by
  obtain ⟨c, others, rfl, hc⟩ : ∃ c others, whole = c :: others ∧ c.isDigit := by
    rcases hwhole with rfl | ⟨c, others, rfl, -, hdigits⟩
    · exact ⟨'0', [], rfl, rfl⟩
    · exact ⟨c, others, rfl, hdigits c List.mem_cons_self⟩
  cases negative with
  | false => exact reads_digit hc (h _)
  | true => exact reads_minus hc (h _)

theorem reads_whole (i : Int) (hlength : (Nat.toDigits 10 i.natAbs).length ≤ digitLimit)
    (hrest : EndsValue rest) : Reads (readValue ((toString i).toList ++ rest)) (.whole i) rest := by
  have hwhole := Decimal.isWhole_toDigits i.natAbs
  have htext : (toString i).toList =
      (if decide (i < 0) then ['-'] else []) ++ Nat.toDigits 10 i.natAbs := by
    cases i with
    | ofNat n =>
        change (toString n).toList = _
        rw [Nat.toString_eq_ofList_toDigits, String.toList_ofList]
        rfl
    | negSucc n =>
        change ("-" ++ toString (n + 1)).toList = _
        rw [String.toList_append, Nat.toString_eq_ofList_toDigits,
          String.toList_ofList (l := Nat.toDigits 10 (n + 1)),
          decide_eq_true (Int.negSucc_lt_zero n)]
        rfl
  have hvalue : (if decide (i < 0) then -(Nat.ofDigitChars 10 (Nat.toDigits 10 i.natAbs) 0 : Int)
      else Nat.ofDigitChars 10 (Nat.toDigits 10 i.natAbs) 0) = i := by
    rw [Nat.ofDigitChars_toDigits (by decide) (by decide)]
    split
    · next h =>
      have := of_decide_eq_true h
      omega
    · next h =>
      have := of_decide_eq_false (Bool.not_eq_true _ ▸ h)
      omega
  rw [htext, List.append_assoc]
  apply reads_signed hwhole
  intro start
  have hread := @reads_readNumber_whole rest _ start (decide (i < 0)) hwhole hlength hrest
  rwa [hvalue] at hread

theorem reads_real (n : Number) (hrest : EndsValue rest) :
    Reads (readValue ((n.literalWith "NaN" "Infinity").toList ++ rest)) (.real n) rest := by
  cases n with
  | nan =>
      change Reads (readValue ('N' :: 'a' :: 'N' :: rest)) _ _
      rw [readValue]
      exact reads_ok rfl rfl
  | infinity negative =>
      cases negative with
      | false =>
          change Reads
            (readValue ('I' :: 'n' :: 'f' :: 'i' :: 'n' :: 'i' :: 't' :: 'y' :: rest)) _ _
          rw [readValue]
          exact reads_ok rfl rfl
      | true =>
          change Reads
            (readValue ('-' :: 'I' :: 'n' :: 'f' :: 'i' :: 'n' :: 'i' :: 't' :: 'y' :: rest)) _ _
          rw [readValue]
          exact reads_ok rfl rfl
  | finite negative m =>
      rw [Number.literalWith]
      have hsign : ∀ text : String, (if negative then "-" ++ text else text).toList =
          (if negative then ['-'] else []) ++ text.toList := by
        intro text
        cases negative with
        | false => rfl
        | true => exact String.toList_append
      rw [hsign, List.append_assoc]
      by_cases hcode : m.code = 0
      · rw [if_pos hcode]
        obtain ⟨_, hlt⟩ := m
        subst hcode
        have hwhole : IsWhole ['0'] := .inl rfl
        have hread : ∀ start, Reads (readNumber negative start (['0'] ++ ('.' :: '0' :: rest)))
            (.real (.finite negative ⟨0, hlt⟩)) rest := fun start =>
          @reads_readNumber rest ['0'] ['0'] start negative none hwhole
            Decimal.isDigit_singleton_zero (.inl (List.cons_ne_nil _ _)) hrest
        exact @reads_signed rest negative ['0'] _ _ hwhole hread
      · obtain ⟨whole, fraction, exponent, htext, hwhole, hfraction, hreal, hvalue⟩ :=
          Number.exists_decimalText_eq (Magnitude.coefficient_shortest_ne_zero hcode)
        rw [if_neg hcode, htext, List.append_assoc, List.append_assoc]
        apply reads_signed hwhole
        intro start
        have hread := @reads_readNumber rest whole fraction start negative exponent hwhole hfraction
          hreal hrest
        rwa [hvalue, Magnitude.toNumber_shortest hcode] at hread

theorem Reads.exists_value {items : List Json} (h : Reads (readItems text) items rest) :
    ∃ v mid, Reads (readValue text) v mid := by
  rw [readItems] at h
  cases hvalue : readValue text with
  | error e =>
      obtain ⟨_, h⟩ := h
      rw [hvalue] at h
      cases h
  | ok r => exact ⟨r.value, r.rest, r.shorter, rfl⟩

theorem toList_bracketed_nil {opening closing : String} {level : Nat} :
    (bracketed opening closing level []).toList = opening.toList ++ closing.toList := by
  rw [bracketed, if_pos List.isEmpty_nil, String.toList_append]

theorem toList_bracketed {opening closing : String} {level : Nat} {lines : List String}
    (h : lines ≠ []) :
    (bracketed opening closing level lines).toList ++ rest =
      opening.toList ++ ((lineStart (level + 1)).toList ++
        ((("," ++ lineStart (level + 1)).intercalate lines).toList ++
          ((lineStart level).toList ++ (closing.toList ++ rest)))) := by
  rw [bracketed, if_neg (by rwa [List.isEmpty_iff])]
  simp only [String.toList_append, List.append_assoc]

theorem toList_intercalate_cons {level : Nat} {line next : String} {others : List String} :
    (("," ++ lineStart level).intercalate (line :: next :: others)).toList ++ rest =
      line.toList ++ (',' :: ((lineStart level).toList ++
        ((("," ++ lineStart level).intercalate (next :: others)).toList ++ rest))) := by
  rw [String.intercalate_cons_cons]
  simp only [String.toList_append, List.append_assoc]
  rfl

theorem toList_member {name value : String} :
    (printText name ++ ": " ++ value).toList ++ rest =
      '"' :: (name.toList.flatMap escapedChar ++
        '"' :: ':' :: ' ' :: (value.toList ++ rest)) := by
  rw [String.toList_append, String.toList_append, printText, String.toList_ofList]
  simp only [List.append_assoc, List.cons_append]
  rfl

/-- Members begin with the quote of the first name. -/
theorem exists_toList_printMembers {level : Nat} {m : Text × Json}
    {members : List (Text × Json)} {lines : List String}
    (h : printMembers level (m :: members) = some lines) (rest : List Char) :
    ∃ after, (("," ++ lineStart level).intercalate lines).toList ++ rest = '"' :: after := by
  obtain ⟨name, text, others, -, -, -, rfl⟩ := printMembers_cons_eq_some h
  cases others with
  | nil =>
      rw [String.intercalate_singleton, toList_member]
      exact ⟨_, rfl⟩
  | cons line lines =>
      rw [toList_intercalate_cons, toList_member]
      exact ⟨_, rfl⟩

theorem skip_printMembers {level : Nat} {m : Text × Json} {members : List (Text × Json)}
    {lines : List String} (h : printMembers level (m :: members) = some lines)
    (rest : List Char) :
    skip ((("," ++ lineStart level).intercalate lines).toList ++ rest) =
      (("," ++ lineStart level).intercalate lines).toList ++ rest := by
  obtain ⟨after, hafter⟩ := exists_toList_printMembers h rest
  rw [hafter, skip_cons (by decide)]

/-- A member whose name is new is added to those before it. -/
theorem reads_member {name : String} {value : Json} {valueText : List Char}
    {before members : List (Text × Json)} (hvalue : Reads (readValue valueText) value mid)
    (hfresh : (name : Text) ∉ before.map Prod.fst)
    (hend : skip mid = '\x7d' :: rest ∧ members = before ++ [((name : Text), value)] ∨
      ∃ after, skip mid = ',' :: after ∧
        Reads (readMembers (before ++ [((name : Text), value)]) (skip after)) members rest) :
    Reads (readMembers before ('"' :: (name.toList.flatMap escapedChar ++
      '"' :: ':' :: ' ' :: valueText))) members rest := by
  have hskip : skip (' ' :: valueText) = valueText := hvalue.skip_eq
  rw [← insert_of_not_mem hfresh] at hend
  rw [← hskip] at hvalue
  exact reads_readMembers (reads_readText _ _) (skip_cons (by decide)) hvalue hend

theorem not_mem_of_nodup {name : Text} {value : Json} {before members : List (Text × Json)}
    (h : ((before ++ (name, value) :: members).map Prod.fst).Nodup) :
    name ∉ before.map Prod.fst := by
  rw [List.map_append, List.map_cons, List.nodup_append] at h
  exact fun hmem => h.2.2 name hmem name List.mem_cons_self rfl

/-! The induction is on the data.  What is read up to is whatever follows, as long as it ends a
value; of members also those before are carried along, since they are collected in reading. -/

mutual

theorem reads_printAt (level : Nat) : (j : Json) → j.IsReadable digitLimit → {text : String} →
    printAt level j = some text → {rest : List Char} → EndsValue rest →
      Reads (readValue (text.toList ++ rest)) j rest
  | .null, _, _, htext, rest, _ => by
      cases htext
      change Reads (readValue ('n' :: 'u' :: 'l' :: 'l' :: rest)) _ _
      rw [readValue]
      exact reads_ok rfl rfl
  | .boolean true, _, _, htext, rest, _ => by
      cases htext
      change Reads (readValue ('t' :: 'r' :: 'u' :: 'e' :: rest)) _ _
      rw [readValue]
      exact reads_ok rfl rfl
  | .boolean false, _, _, htext, rest, _ => by
      cases htext
      change Reads (readValue ('f' :: 'a' :: 'l' :: 's' :: 'e' :: rest)) _ _
      rw [readValue]
      exact reads_ok rfl rfl
  | .whole i, h, _, htext, _, hrest => by
      cases htext
      rw [IsReadable] at h
      exact reads_whole i h hrest
  | .real n, _, _, htext, _, hrest => by
      cases htext
      exact reads_real n hrest
  | .text _, _, _, htext, rest, _ => by
      obtain ⟨s, rfl, rfl⟩ := printAt_text_eq_some htext
      rw [printText, String.toList_ofList, List.append_assoc]
      change Reads (readValue ('"' :: (s.toList.flatMap escapedChar ++ '"' :: rest))) _ _
      rw [readValue]
      exact (reads_readText _ _).bind fun _ => reads_ok rfl rfl
  | .array [], _, _, htext, rest, _ => by
      cases htext
      rw [toList_bracketed_nil]
      exact reads_array_nil
  | .array (item :: items), h, _, htext, rest, _ => by
      rw [IsReadable] at h
      obtain ⟨lines, hlines, rfl⟩ := printAt_array_eq_some htext
      have hitems := @reads_printItems level (item :: items) (List.cons_ne_nil _ _) h lines hlines
        rest
      obtain ⟨_, _, hfirst⟩ := hitems.exists_value
      have hskip := (skip_lineStart (level + 1)).trans hfirst.skip_eq
      obtain ⟨_, _, -, -, rfl⟩ := printItems_cons_eq_some hlines
      rw [← hskip] at hitems
      rw [toList_bracketed (List.cons_ne_nil _ _)]
      refine reads_array ?_ hitems
      -- The first item does not begin with the bracket that ends an empty array.
      intro tail hbracket
      rw [hskip.symm.trans hbracket] at hfirst
      obtain ⟨_, _, heq, hstart⟩ := hfirst.exists_start
      cases heq
      exact absurd hstart (by decide)
  | .object [], _, _, htext, rest, _ => by
      cases htext
      rw [toList_bracketed_nil]
      exact reads_object_nil
  | .object (m :: members), h, _, htext, rest, _ => by
      rw [IsReadable] at h
      obtain ⟨lines, hlines, rfl⟩ := printAt_object_eq_some htext
      have hmembers := @reads_printMembers level [] (m :: members) (List.cons_ne_nil _ _) h.1 h.2
        lines hlines rest
      obtain ⟨after, hafter⟩ := exists_toList_printMembers hlines
        ((lineStart level).toList ++ '\x7d' :: rest)
      have hskip : skip ((lineStart (level + 1)).toList ++
          ((("," ++ lineStart (level + 1)).intercalate lines).toList ++
          ((lineStart level).toList ++ '\x7d' :: rest))) = '"' :: after := by
        rw [skip_lineStart, hafter, skip_cons (by decide)]
      obtain ⟨_, _, _, -, -, -, rfl⟩ := printMembers_cons_eq_some hlines
      rw [hafter] at hmembers
      rw [toList_bracketed (List.cons_ne_nil _ _)]
      exact reads_object hskip hmembers

theorem reads_printItems (level : Nat) : (items : List Json) → items ≠ [] →
    AreReadable digitLimit items → {lines : List String} →
      printItems (level + 1) items = some lines → {rest : List Char} →
        Reads (readItems ((("," ++ lineStart (level + 1)).intercalate lines).toList ++
          ((lineStart level).toList ++ ']' :: rest))) items rest
  | [], hne, _, _, _, _ => (hne rfl).elim
  | [item], _, h, _, hlines, rest => by
      rw [AreReadable] at h
      obtain ⟨text, _, htext, hnil, rfl⟩ := printItems_cons_eq_some hlines
      cases hnil
      have hitem := reads_printAt (level + 1) item h.1 htext
        (@endsValue_lineStart (']' :: rest) level)
      rw [String.intercalate_singleton]
      refine reads_readItems hitem (.inl ⟨?_, rfl⟩)
      rw [skip_lineStart, skip_cons (by decide)]
  | item :: next :: others, _, h, _, hlines, rest => by
      rw [AreReadable] at h
      obtain ⟨text, lines, htext, hnext, rfl⟩ := printItems_cons_eq_some hlines
      have hothers := @reads_printItems level (next :: others) (List.cons_ne_nil _ _) h.2 lines
        hnext rest
      obtain ⟨_, _, hfirst⟩ := hothers.exists_value
      have htail := (skip_lineStart (level + 1)).trans hfirst.skip_eq
      rw [← htail] at hothers
      obtain ⟨_, _, -, -, rfl⟩ := printItems_cons_eq_some hnext
      rw [toList_intercalate_cons]
      exact reads_readItems (reads_printAt (level + 1) item h.1 htext endsValue_comma)
        (.inr ⟨_, next :: others, skip_cons (by decide), hothers, rfl⟩)

theorem reads_printMembers (level : Nat) : (before members : List (Text × Json)) →
    members ≠ [] → ((before ++ members).map Prod.fst).Nodup →
      AreReadableMembers digitLimit members → {lines : List String} →
        printMembers (level + 1) members = some lines → {rest : List Char} →
          Reads (readMembers before ((("," ++ lineStart (level + 1)).intercalate lines).toList ++
            ((lineStart level).toList ++ '\x7d' :: rest))) (before ++ members) rest
  | _, [], hne, _, _, _, _, _ => (hne rfl).elim
  | before, [(name, value)], _, hnames, h, _, hlines, rest => by
      rw [AreReadableMembers] at h
      obtain ⟨s, text, _, rfl, htext, hnil, rfl⟩ := printMembers_cons_eq_some hlines
      cases hnil
      have hvalue := reads_printAt (level + 1) value h.2.1 htext
        (@endsValue_lineStart ('\x7d' :: rest) level)
      have hfresh := not_mem_of_nodup hnames
      rw [String.intercalate_singleton, toList_member]
      refine reads_member hvalue hfresh (.inl ⟨?_, rfl⟩)
      rw [skip_lineStart, skip_cons (by decide)]
  | before, (name, value) :: next :: others, _, hnames, h, _, hlines, rest => by
      rw [AreReadableMembers] at h
      obtain ⟨s, text, lines, rfl, htext, hnext, rfl⟩ := printMembers_cons_eq_some hlines
      have hfresh := not_mem_of_nodup hnames
      rw [List.append_cons] at hnames
      have hothers := @reads_printMembers level _ (next :: others) (List.cons_ne_nil _ _) hnames
        h.2.2 lines hnext rest
      have hskip := (skip_lineStart (level + 1)).trans
        (skip_printMembers hnext ((lineStart level).toList ++ '\x7d' :: rest))
      rw [← hskip, ← List.append_cons] at hothers
      have hvalue := reads_printAt (level + 1) value h.2.1 htext (@endsValue_comma
        ((lineStart (level + 1)).toList ++ ((("," ++ lineStart (level + 1)).intercalate
          lines).toList ++ ((lineStart level).toList ++ '\x7d' :: rest))))
      obtain ⟨_, _, _, -, -, -, rfl⟩ := printMembers_cons_eq_some hnext
      rw [toList_intercalate_cons, toList_member]
      exact reads_member hvalue hfresh (.inr ⟨_, skip_cons (by decide), hothers⟩)

end

mutual

theorem exists_printAt {limit : Nat} (level : Nat) : (j : Json) → j.IsReadable limit →
    ∃ text, printAt level j = some text
  | .null, _ | .boolean _, _ | .whole _, _ | .real _, _ => ⟨_, rfl⟩
  | .text s, h => by
      rw [IsReadable] at h
      obtain ⟨s, rfl⟩ := Text.exists_ofString_eq h
      rw [printAt, Text.plain?_ofString]
      exact ⟨_, rfl⟩
  | .array items, h => by
      rw [IsReadable] at h
      obtain ⟨lines, hlines⟩ := exists_printItems (level + 1) items h
      rw [printAt, hlines]
      exact ⟨_, rfl⟩
  | .object members, h => by
      rw [IsReadable] at h
      obtain ⟨lines, hlines⟩ := exists_printMembers (level + 1) members h.2
      rw [printAt, hlines]
      exact ⟨_, rfl⟩

theorem exists_printItems {limit : Nat} (level : Nat) : (items : List Json) →
    AreReadable limit items → ∃ lines, printItems level items = some lines
  | [], _ => ⟨_, rfl⟩
  | item :: rest, h => by
      rw [AreReadable] at h
      obtain ⟨text, htext⟩ := exists_printAt level item h.1
      obtain ⟨lines, hlines⟩ := exists_printItems level rest h.2
      rw [printItems, htext, hlines]
      exact ⟨_, rfl⟩

theorem exists_printMembers {limit : Nat} (level : Nat) : (members : List (Text × Json)) →
    AreReadableMembers limit members → ∃ lines, printMembers level members = some lines
  | [], _ => ⟨_, rfl⟩
  | (name, value) :: rest, h => by
      rw [AreReadableMembers] at h
      obtain ⟨s, rfl⟩ := Text.exists_ofString_eq h.1
      obtain ⟨text, htext⟩ := exists_printAt level value h.2.1
      obtain ⟨lines, hlines⟩ := exists_printMembers level rest h.2.2
      rw [printMembers, Text.plain?_ofString, htext, hlines]
      exact ⟨_, rfl⟩

end

/-- Data that can be read back has a document. -/
theorem exists_print {j : Json} {limit : Nat} (h : j.IsReadable limit) :
    ∃ text, j.print = some text :=
  exists_printAt 0 j h

/-- Data is read back from its document. -/
theorem parse_print {j : Json} {text : String} (h : j.IsReadable digitLimit)
    (hprint : j.print = some text) : parse text = .ok j := by
  have hread : Reads (readValue text.toList) j [] := by
    have hfront := @reads_printAt 0 j h text hprint [] nofun
    rwa [List.append_nil] at hfront
  obtain ⟨c, more, htext, hc⟩ := hread.exists_start
  have hmark : text.toList.head? ≠ some '\uFEFF' := by
    rw [htext]
    rintro ⟨⟩
    exact absurd hc (by decide)
  have hdocument : readDocument text.toList = .ok j := by
    rw [← hread.skip_eq] at hread
    obtain ⟨shorter, hvalue⟩ := hread
    rw [readDocument, if_neg hmark]
    change (readValue (skip text.toList) >>= _) = _
    rw [hvalue]
    rfl
  rw [parse, hdocument]
  rfl

end Json

end MiniLox
