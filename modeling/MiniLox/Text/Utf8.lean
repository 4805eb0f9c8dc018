/-!
# Reading octets as text

A file is a sequence of octets in which each character takes one to four.
`decode` reads it strictly.  Where it cannot go on, the fault says which octets
are at fault: an octet that starts no character, the octets of a character that
the next octet does not continue, or those of a character that the end cuts short.

Text is read with one kind of line end: `unifyLineEnds` replaces a return, alone
or before a line feed, by a line feed.
-/

namespace MiniLox.Text

/-- Why a sequence of octets is not text. -/
inductive Utf8Cause where
  /-- An octet that starts no character. -/
  | start
  /-- The next octet does not continue the character. -/
  | continuation
  /-- The octets end inside a character. -/
  | truncated
deriving DecidableEq

/-- The octets from `first`, `count` of them, are not text; `octet` is the first. -/
structure Utf8Fault where
  cause : Utf8Cause
  first : Nat
  count : Nat
  octet : UInt8
deriving DecidableEq

/-- What the first octet of a character says of the rest: its own part of the
code point, how many octets follow, and the bounds of the second octet. -/
structure Utf8Lead where
  bits : Nat
  following : Nat
  low : UInt8
  high : UInt8

/-- The lead of a character, if the octet starts one. -/
def Utf8Lead.of? (b : UInt8) : Option Utf8Lead :=
  if b < 0x80 then some ⟨b.toNat, 0, 0x80, 0xBF⟩
  else if b < 0xC2 then none
  else if b < 0xE0 then some ⟨b.toNat - 0xC0, 1, 0x80, 0xBF⟩
  else if b = 0xE0 then some ⟨0, 2, 0xA0, 0xBF⟩
  else if b = 0xED then some ⟨0xD, 2, 0x80, 0x9F⟩
  else if b < 0xF0 then some ⟨b.toNat - 0xE0, 2, 0x80, 0xBF⟩
  else if b = 0xF0 then some ⟨0, 3, 0x90, 0xBF⟩
  else if b < 0xF4 then some ⟨b.toNat - 0xF0, 3, 0x80, 0xBF⟩
  else if b = 0xF4 then some ⟨4, 3, 0x80, 0x8F⟩
  else none

/-- Where reading stands inside a character that began at `first`. -/
structure Utf8Pending where
  first : Nat
  octet : UInt8
  bits : Nat
  /-- How many octets of the character have been read. -/
  taken : Nat
  /-- How many are still to come. -/
  missing : Nat
  low : UInt8
  high : UInt8

/-- Reads octets from an offset, inside a character or between two. -/
def decodeFrom (offset : Nat) (pending : Option Utf8Pending) (text : List Char) :
    List UInt8 → Except Utf8Fault (List Char)
  | [] => match pending with
    | none => .ok text.reverse
    | some p => .error ⟨.truncated, p.first, p.taken, p.octet⟩
  | b :: rest => match pending with
    | none => match Utf8Lead.of? b with
      | none => .error ⟨.start, offset, 1, b⟩
      | some lead =>
        if lead.following = 0 then decodeFrom (offset + 1) none (Char.ofNat lead.bits :: text) rest
        else decodeFrom (offset + 1)
          (some ⟨offset, b, lead.bits, 1, lead.following, lead.low, lead.high⟩) text rest
    | some p =>
      if p.low ≤ b ∧ b ≤ p.high then
        let bits := p.bits * 64 + (b.toNat - 0x80)
        if p.missing = 1 then decodeFrom (offset + 1) none (Char.ofNat bits :: text) rest
        else decodeFrom (offset + 1)
          (some { p with bits, taken := p.taken + 1, missing := p.missing - 1
                         low := 0x80, high := 0xBF }) text rest
      else .error ⟨.continuation, p.first, p.taken, p.octet⟩

/-- Reads octets as text. -/
def decode (octets : List UInt8) : Except Utf8Fault (List Char) := decodeFrom 0 none [] octets

/-- Text with a line feed at every line end. -/
def unifyLineEnds : List Char → List Char
  | [] => []
  | '\r' :: '\n' :: rest => '\n' :: unifyLineEnds rest
  | '\r' :: rest => '\n' :: unifyLineEnds rest
  | c :: rest => c :: unifyLineEnds rest

/-- The hexadecimal digits of an octet. -/
def octetText (b : UInt8) : String :=
  String.ofList [Nat.digitChar (b.toNat / 16), Nat.digitChar (b.toNat % 16)]

/-- What is wrong with the octets. -/
def Utf8Cause.message : Utf8Cause → String
  | .start => "invalid start byte"
  | .continuation => "invalid continuation byte"
  | .truncated => "unexpected end of data"

/-- The octets at fault and what is wrong with them. -/
def Utf8Fault.message (f : Utf8Fault) : String :=
  let place :=
    if f.count = 1 then s!"byte 0x{octetText f.octet} in position {f.first}"
    else s!"bytes in position {f.first}-{f.first + f.count - 1}"
  s!"'utf-8' codec can't decode {place}: {f.cause.message}"

end MiniLox.Text
