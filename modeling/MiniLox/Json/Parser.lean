import MiniLox.Json.Basic
import MiniLox.Numeric.Numeral
import MiniLox.Reading

/-!
# Reading documents

`Json.parse` reads the text of a document.  Besides the usual notation it takes
the three words for numbers that are not finite; a number with a fraction or an
exponent is a floating-point number, and any other is a whole number.

Each reader returns what it has read together with the rest of the text, which
is shorter than the text it was given; this is what ends the recursion.  A
failure says what was expected and how much of the text was left there.
-/

namespace MiniLox.Json

open Numeric

/-- What a reader did not find. -/
inductive Expectation where
  | value
  | memberName
  | colon
  | comma
  | endOfText
  | closingQuote
  | noControl
  | escape
  | unicodeEscape
  | noByteOrderMark
deriving DecidableEq

/-- A failed expectation, with the length of the text that was left. -/
structure Failure where
  expectation : Expectation
  remaining : Nat

/-- Why a reader stops. -/
inductive ReadError where
  | unexpected (failure : Failure)
  /-- A whole number with more digits than the limit. -/
  | tooManyDigits (count : Nat)

/-- The result of reading from a text. -/
abbrev Reader (α : Type) (text : List Char) := Except ReadError (Reading Char α text)

/-- A failure in front of a text. -/
def failAt {α : Type} (expectation : Expectation) (text : List Char) : Except ReadError α :=
  .error (.unexpected ⟨expectation, text.length⟩)

/-- Whether a character may stand between the parts of a document. -/
def isSpace (c : Char) : Bool := c == ' ' || c == '\t' || c == '\n' || c == '\r'

/-- The text after the white space at its start. -/
def skip (text : List Char) : List Char := text.dropWhile isSpace

theorem length_skip_le (text : List Char) : (skip text).length ≤ text.length :=
  length_dropWhile_le isSpace text

/-- The value of a hexadecimal digit. -/
def hexValue? (c : Char) : Option Nat :=
  if '0' ≤ c ∧ c ≤ '9' then some (c.toNat - '0'.toNat)
  else if 'a' ≤ c ∧ c ≤ 'f' then some (c.toNat - 'a'.toNat + 10)
  else if 'A' ≤ c ∧ c ≤ 'F' then some (c.toNat - 'A'.toNat + 10)
  else none

/-- The number that four hexadecimal digits write. -/
def hexValues? (a b c d : Char) : Option Nat := do
  return (((← hexValue? a) * 16 + (← hexValue? b)) * 16 + (← hexValue? c)) * 16 + (← hexValue? d)

/-- The character that a letter after a backslash stands for. -/
def shortEscape? : Char → Option Char
  | '"' => some '"'
  | '\\' => some '\\'
  | '/' => some '/'
  | 'b' => some '\x08'
  | 'f' => some '\x0c'
  | 'n' => some '\n'
  | 'r' => some '\r'
  | 't' => some '\t'
  | _ => none

/-- The character that two halves of sixteen bits make up, if they are such halves. -/
def joinHalves? (high low : Nat) : Option Char :=
  if 0xD800 ≤ high ∧ high < 0xDC00 ∧ 0xDC00 ≤ low ∧ low < 0xE000 then
    some (Char.ofNat (0x10000 + (high - 0xD800) * 0x400 + (low - 0xDC00)))
  else none

/-- The code point with a number of sixteen bits: a half that stands alone, or a
character. -/
def loneUnit (code : Nat) : CodePoint :=
  if h : 0xD800 ≤ code ∧ code < 0xE000 then .half ⟨code - 0xD800, by omega⟩
  else .char (Char.ofNat code)

/-- The digits after `\u`, and after a second one if it completes the character.
Another character must follow the digits; `start` is the text from the letter on. -/
def readUnit (start text : List Char) : Reader CodePoint text :=
  match text with
  | a :: b :: c :: d :: rest =>
    match hexValues? a b c d, rest with
    | none, _ => failAt .unicodeEscape start
    | _, [] => failAt .unicodeEscape start
    | some high, '\\' :: 'u' :: i :: j :: k :: l :: m :: tail =>
      if 0xD800 ≤ high ∧ high < 0xDC00 then
        match hexValues? i j k l with
        | none => failAt .unicodeEscape ('u' :: i :: j :: k :: l :: m :: tail)
        | some low =>
          match joinHalves? high low with
          | some joined => .ok ⟨.char joined, m :: tail, by simp only [List.length_cons]; omega⟩
          | none => .ok ⟨loneUnit high, '\\' :: 'u' :: i :: j :: k :: l :: m :: tail, by
              simp only [List.length_cons]; omega⟩
      else .ok ⟨loneUnit high, '\\' :: 'u' :: i :: j :: k :: l :: m :: tail, by
        simp only [List.length_cons]; omega⟩
    | some code, next :: tail => .ok ⟨loneUnit code, next :: tail, by
        simp only [List.length_cons]; omega⟩
  | _ => failAt .unicodeEscape start

/-- The text up to the closing quote; `start` is the text from the opening one. -/
def readText (start : List Char) (text : List Char) : Reader (List CodePoint) text :=
  match text with
  | [] => failAt .closingQuote start
  | '"' :: rest => .ok ⟨[], rest, by simp⟩
  | ['\\'] => failAt .closingQuote start
  | '\\' :: 'u' :: rest => do
    let unit ← readUnit ('u' :: rest) rest
    have := unit.shorter
    let tail ← readText start unit.rest
    return ⟨unit.value :: tail.value, tail.rest, by
      have := tail.shorter; simp only [List.length_cons]; omega⟩
  | '\\' :: c :: rest =>
    match shortEscape? c with
    | none => failAt .escape ('\\' :: c :: rest)
    | some escaped => do
      let tail ← readText start rest
      return ⟨.char escaped :: tail.value, tail.rest, by
        have := tail.shorter; simp only [List.length_cons]; omega⟩
  | c :: rest =>
    if c < ' ' then failAt .noControl (c :: rest)
    else do
      let tail ← readText start rest
      return ⟨.char c :: tail.value, tail.rest, by
        have := tail.shorter; simp only [List.length_cons]; omega⟩
termination_by text.length
decreasing_by all_goals simp only [List.length_cons]; omega

/-- The digits of a fraction, and the rest; a point must have a digit after it. -/
def spanFraction : List Char → List Char × List Char
  | '.' :: c :: rest => if c.isDigit then spanDigits (c :: rest) else ([], '.' :: c :: rest)
  | other => ([], other)

theorem length_spanFraction_le (text : List Char) :
    (spanFraction text).2.length ≤ text.length := by
  unfold spanFraction
  split
  · split
    · exact Nat.le_succ_of_le (length_dropWhile_le Char.isDigit _)
    · exact Nat.le_refl _
  · exact Nat.le_refl _

/-- The number that the parts of its text stand for. -/
def numberOf (negative : Bool) (whole fraction : List Char) (exponent : Option Int) :
    Except ReadError Json :=
  match fraction, exponent with
  | [], none =>
    if digitLimit < whole.length then .error (.tooManyDigits whole.length)
    else
      let size : Int := Nat.ofDigitChars 10 whole 0
      .ok (.whole (if negative then -size else size))
  | _, _ =>
    let d := Decimal.ofDigits whole fraction
    .ok (.real (Decimal.toNumber negative ⟨d.coefficient, d.exponent + exponent.getD 0⟩))

/-- What follows the first digits of a number. -/
def readNumberTail (negative : Bool) (whole rest : List Char) {text : List Char}
    (shorter : rest.length < text.length) : Reader Json text :=
  (numberOf negative whole (spanFraction rest).1 (spanExponent (spanFraction rest).2).1).map
    fun value => ⟨value, (spanExponent (spanFraction rest).2).2, by
      have := length_spanFraction_le rest
      have := length_spanExponent_le (spanFraction rest).2
      omega⟩

/-- A number; `start` is the text from its sign. -/
def readNumber (negative : Bool) (start text : List Char) : Reader Json text :=
  match text with
  | '0' :: rest => readNumberTail negative ['0'] rest (by simp)
  | c :: rest =>
    if c.isDigit then
      readNumberTail negative (c :: rest.takeWhile Char.isDigit) (rest.dropWhile Char.isDigit)
        (Nat.lt_succ_of_le (length_dropWhile_le _ _))
    else failAt .value start
  | [] => failAt .value start

mutual

/-- One value, from its first character on. -/
def readValue (text : List Char) : Reader Json text :=
  match text with
  | '"' :: rest => do
    let t ← readText ('"' :: rest) rest
    return ⟨.text ⟨t.value⟩, t.rest, by
      have := t.shorter; simp only [List.length_cons]; omega⟩
  | '\x7b' :: rest =>
    have hskip := length_skip_le rest
    match h : skip rest with
    | '\x7d' :: tail => .ok ⟨.object [], tail, by
        rw [h] at hskip; simp only [List.length_cons] at *; omega⟩
    | inside => do
      let members ← readMembers [] inside
      return ⟨.object members.value, members.rest, by
        have := members.shorter
        rw [h] at hskip; simp only [List.length_cons]; omega⟩
  | '[' :: rest =>
    have hskip := length_skip_le rest
    match h : skip rest with
    | ']' :: tail => .ok ⟨.array [], tail, by
        rw [h] at hskip; simp only [List.length_cons] at *; omega⟩
    | inside => do
      let items ← readItems inside
      return ⟨.array items.value, items.rest, by
        have := items.shorter
        rw [h] at hskip; simp only [List.length_cons]; omega⟩
  | 'n' :: 'u' :: 'l' :: 'l' :: rest => .ok ⟨.null, rest, by simp only [List.length_cons]; omega⟩
  | 't' :: 'r' :: 'u' :: 'e' :: rest =>
    .ok ⟨.boolean true, rest, by simp only [List.length_cons]; omega⟩
  | 'f' :: 'a' :: 'l' :: 's' :: 'e' :: rest =>
    .ok ⟨.boolean false, rest, by simp only [List.length_cons]; omega⟩
  | 'N' :: 'a' :: 'N' :: rest => .ok ⟨.real .nan, rest, by simp only [List.length_cons]; omega⟩
  | 'I' :: 'n' :: 'f' :: 'i' :: 'n' :: 'i' :: 't' :: 'y' :: rest =>
    .ok ⟨.real (.infinity false), rest, by simp only [List.length_cons]; omega⟩
  | '-' :: 'I' :: 'n' :: 'f' :: 'i' :: 'n' :: 'i' :: 't' :: 'y' :: rest =>
    .ok ⟨.real (.infinity true), rest, by simp only [List.length_cons]; omega⟩
  | '-' :: rest => do
    let n ← readNumber true ('-' :: rest) rest
    return n.weaken (Nat.le_succ _)
  | other => readNumber false other other
termination_by 2 * text.length
decreasing_by
  all_goals
    rw [h] at hskip
    simp only [List.length_cons]
    omega

/-- The items of an array and its closing bracket. -/
def readItems (text : List Char) : Reader (List Json) text := do
  let item ← readValue text
  have := item.shorter
  have hskip := length_skip_le item.rest
  match h : skip item.rest with
  | ']' :: tail => return ⟨[item.value], tail, by
      rw [h] at hskip; simp only [List.length_cons] at hskip; omega⟩
  | ',' :: tail =>
    have hnext := length_skip_le tail
    let items ← readItems (skip tail)
    return ⟨item.value :: items.value, items.rest, by
      have := items.shorter; rw [h] at hskip; simp only [List.length_cons] at hskip; omega⟩
  | other => failAt .comma other
termination_by 2 * text.length + 1
decreasing_by
  · omega
  · rw [h] at hskip
    simp only [List.length_cons] at hskip
    omega

/-- The members of an object and its closing bracket, after those already read. -/
def readMembers (before : List (Text × Json)) (text : List Char) :
    Reader (List (Text × Json)) text :=
  match text with
  | '"' :: afterQuote => do
    let name ← readText ('"' :: afterQuote) afterQuote
    have := name.shorter
    have hname := length_skip_le name.rest
    match h : skip name.rest with
    | ':' :: afterColon =>
      have hcolon := length_skip_le afterColon
      let value ← readValue (skip afterColon)
      have hvalue := value.shorter
      have hrest := length_skip_le value.rest
      let members := insert ⟨name.value⟩ value.value before
      match h' : skip value.rest with
      | '\x7d' :: tail => return ⟨members, tail, by
          rw [h'] at hrest; rw [h] at hname; simp only [List.length_cons] at *; omega⟩
      | ',' :: tail =>
        have hnext := length_skip_le tail
        let all ← readMembers members (skip tail)
        return ⟨all.value, all.rest, by
          have := all.shorter
          rw [h'] at hrest; rw [h] at hname; simp only [List.length_cons] at *; omega⟩
      | other => failAt .comma other
    | other => failAt .colon other
  | other => failAt .memberName other
termination_by 2 * text.length + 1
decreasing_by
  · rw [h] at hname
    simp only [List.length_cons] at *
    omega
  · rw [h] at hname
    rw [h'] at hrest
    simp only [List.length_cons] at *
    omega

end

/-- Why a text is no document. -/
inductive ParseError where
  /-- An expectation that failed after a number of characters, in a line and column. -/
  | unexpected (expectation : Expectation) (offset line column : Nat)
  /-- A whole number with more digits than the limit. -/
  | tooManyDigits (count : Nat)
deriving DecidableEq

/-- A failure with its place in the text. -/
def locate (text : List Char) : ReadError → ParseError
  | .tooManyDigits count => .tooManyDigits count
  | .unexpected f =>
    let offset := text.length - f.remaining
    let before := text.take offset
    .unexpected f.expectation offset (before.count '\n' + 1)
      ((before.reverse.takeWhile (· != '\n')).length + 1)

/-- The one value of a document. -/
def readDocument (text : List Char) : Except ReadError Json := do
  if text.head? = some '\uFEFF' then failAt .noByteOrderMark text
  let value ← readValue (skip text)
  match skip value.rest with
  | [] => return value.value
  | extra => failAt .endOfText extra

/-- Reads the text of a document. -/
def parse (text : String) : Except ParseError Json :=
  (readDocument text.toList).mapError (locate text.toList)

/-- What is wrong in front of the place of a failure. -/
def Expectation.message : Expectation → String
  | .value => "Expecting value"
  | .memberName => "Expecting property name enclosed in double quotes"
  | .colon => "Expecting ':' delimiter"
  | .comma => "Expecting ',' delimiter"
  | .endOfText => "Extra data"
  | .closingQuote => "Unterminated string starting at"
  | .noControl => "Invalid control character at"
  | .escape => "Invalid \\escape"
  | .unicodeEscape => "Invalid \\uXXXX escape"
  | .noByteOrderMark => "Unexpected UTF-8 BOM (decode using utf-8-sig)"

/-- What is wrong with a text, and where. -/
def ParseError.message : ParseError → String
  | .unexpected e offset line column =>
    s!"{e.message}: line {line} column {column} (char {offset})"
  | .tooManyDigits count =>
    s!"Exceeds the limit ({digitLimit} digits) for integer string conversion: value has " ++
      s!"{count} digits; use sys.set_int_max_str_digits() to increase the limit"

end MiniLox.Json
