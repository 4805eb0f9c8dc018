import MiniLox.Numeric.Format

/-!
# Numbers

A number is a floating-point number of 64 bits: one of the two zeros, another
finite number with its sign, a signed infinity, or the number that is none.

The operations compute the exact result over whole numbers of units and round it
once.  `Number.toSingle` rounds to the format of 32 bits, without leaving the type:
every number of 32 bits is also one of 64.
-/

namespace MiniLox

open Numeric

/-- The code of a nonnegative finite number of 64 bits. -/
structure Magnitude where
  /-- The position among the nonnegative finite numbers, in increasing order. -/
  code : Nat
  code_lt : code < Format.double.limit
deriving DecidableEq

/-- A floating-point number of 64 bits. -/
inductive Number where
  /-- The result of an operation that has none. -/
  | nan
  /-- An infinity, below or above every finite number. -/
  | infinity (negative : Bool)
  /-- A finite number; both zeros are among them. -/
  | finite (negative : Bool) (magnitude : Magnitude)
deriving DecidableEq

/-- The number of units of a magnitude. -/
def Magnitude.units (m : Magnitude) : Nat := Format.double.units m.code

namespace Number

/-- The number with a code, an infinity when the code is beyond the finite ones. -/
def ofCode (negative : Bool) (code : Nat) : Number :=
  if h : code < Format.double.limit then .finite negative ⟨code, h⟩ else .infinity negative

/-- The number nearest to `num / den`, taken with a sign. -/
def ofRatio (negative : Bool) (num den : Nat) : Number :=
  ofCode negative (Format.double.round num den)

/-- The number nearest to a whole number. -/
def ofInt (i : Int) : Number := ofRatio (i < 0) i.natAbs 1

/-- Whether the number is an infinity or none. -/
def isFinite : Number → Bool
  | .finite _ _ => true
  | _ => false

/-- The same number with the opposite sign. -/
def neg : Number → Number
  | .nan => .nan
  | .infinity s => .infinity (!s)
  | .finite s m => .finite (!s) m

/-- The number of units of a signed magnitude. -/
def signedUnits (negative : Bool) (m : Magnitude) : Int :=
  if negative then -(m.units : Int) else m.units

/-- The sum, rounded to 64 bits.  A sum of nothing is negative only if both
terms are. -/
def add : Number → Number → Number
  | .nan, _ => .nan
  | _, .nan => .nan
  | .infinity s, .infinity t => if s = t then .infinity s else .nan
  | .infinity s, .finite _ _ => .infinity s
  | .finite _ _, .infinity t => .infinity t
  | .finite s a, .finite t b =>
    let sum := signedUnits s a + signedUnits t b
    ofRatio (if sum = 0 then s && t else decide (sum < 0)) sum.natAbs (2 ^ Format.double.scale)

/-- The difference, rounded to 64 bits. -/
def sub (a b : Number) : Number := a.add b.neg

/-- The product, rounded to 64 bits. -/
def mul : Number → Number → Number
  | .nan, _ => .nan
  | _, .nan => .nan
  | .infinity s, .infinity t => .infinity (s != t)
  | .infinity s, .finite t b => if b.code = 0 then .nan else .infinity (s != t)
  | .finite s a, .infinity t => if a.code = 0 then .nan else .infinity (s != t)
  | .finite s a, .finite t b =>
    ofRatio (s != t) (a.units * b.units) (2 ^ (2 * Format.double.scale))

/-- The quotient, rounded to 64 bits.  A number divided by zero is an infinity,
and zero divided by zero is none. -/
def div : Number → Number → Number
  | .nan, _ => .nan
  | _, .nan => .nan
  | .infinity _, .infinity _ => .nan
  | .infinity s, .finite t _ => .infinity (s != t)
  | .finite s _, .infinity t => ofCode (s != t) 0
  | .finite s a, .finite t b =>
    if b.code = 0 then
      if a.code = 0 then .nan else .infinity (s != t)
    else ofRatio (s != t) a.units b.units

/-- The distance from zero. -/
def abs : Number → Number
  | .nan => .nan
  | .infinity _ => .infinity false
  | .finite _ m => .finite false m

/-- The number nearest to this one among those of 32 bits, an infinity when
this one is too large for them. -/
def toSingle : Number → Number
  | .finite s m =>
    let code := Format.single.round m.units (2 ^ Format.double.scale)
    if code < Format.single.limit then
      ofRatio s (Format.single.units code) (2 ^ Format.single.scale)
    else .infinity s
  | n => n

/-- Whether the number is one of 32 bits. -/
def IsSingle (n : Number) : Prop := n.toSingle = n

instance (n : Number) : Decidable n.IsSingle := inferInstanceAs (Decidable (n.toSingle = n))

/-- The place of a number in the order of numbers; the two zeros share one, and
`nan` has none. -/
def rank? : Number → Option Int
  | .nan => none
  | .infinity s => some (if s then -(Format.double.limit : Int) else Format.double.limit)
  | .finite s m => some (if s then -(m.code : Int) else m.code)

/-- Whether two ranks exist and are related. -/
def compareWith (related : Int → Int → Bool) (a b : Number) : Bool :=
  match a.rank?, b.rank? with
  | some x, some y => related x y
  | _, _ => false

/-- Whether the first number is less. -/
def lt : Number → Number → Bool := compareWith fun x y => decide (x < y)

/-- Whether the first number is less or they are equal. -/
def le : Number → Number → Bool := compareWith fun x y => decide (x ≤ y)

/-- Whether the numbers are equal in value: the zeros are, and `nan` equals nothing. -/
def eq : Number → Number → Bool := compareWith fun x y => decide (x = y)

/-- The 64 bits of the number, sign first; `nan` has its usual pattern. -/
def toBits : Number → Nat
  | .nan => Format.double.limit + 2 ^ 51
  | .infinity s => (if s then 2 ^ 63 else 0) + Format.double.limit
  | .finite s m => (if s then 2 ^ 63 else 0) + m.code

/-- The number with the given 64 bits. -/
def ofBits (bits : Nat) : Number :=
  let code := bits % 2 ^ 63
  if Format.double.limit < code then .nan else ofCode (decide (2 ^ 63 ≤ bits)) code

end Number

end MiniLox
