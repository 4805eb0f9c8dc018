/-!
# Binary floating-point formats

The nonnegative finite numbers of a binary format are whole multiples of its
smallest positive number, the *unit*.  In increasing order they are `0, 1, 2, …`
units up to the precision of the format, then every second multiple, then every
fourth, and so on.  The position of a number in this list is its *code*.

`Format.units` gives the number of units that a code stands for, and
`Format.round` the code nearest to a quotient of whole numbers, a half going to
the even code.  Codes grow with the numbers they stand for, so comparing two
numbers is comparing their codes, and rounding up past the last number of one
binade yields the first number of the next without a special case.
-/

namespace MiniLox.Numeric

-- A power of natural numbers means the same term whichever other instances are in scope.
attribute [instance (2000), default_instance (20000)] instPowNat

/-- A binary floating-point format. -/
structure Format where
  /-- The number of binary digits that a number keeps. -/
  precision : Nat
  /-- The unit is two to the power of minus `scale`. -/
  scale : Nat
  /-- The first code beyond the finite numbers. -/
  limit : Nat

/-- The format of 64 bits. -/
def Format.double : Format := ⟨53, 1074, 2047 * 2 ^ 52⟩

/-- The format of 32 bits. -/
def Format.single : Format := ⟨24, 149, 255 * 2 ^ 23⟩

/-- The whole number nearest to `num / den`, a half going to the even neighbour. -/
def nearestEven (num den : Nat) : Nat :=
  let q := num / den
  let r := num % den
  if 2 * r < den ∨ (2 * r = den ∧ q % 2 = 0) then q else q + 1

namespace Format

/-- The number of units that a code stands for. -/
def units (f : Format) (code : Nat) : Nat :=
  let half := 2 ^ (f.precision - 1)
  if code < half then code else (code % half + half) * 2 ^ (code / half - 1)

/-- The number of binary digits by which `q` exceeds the precision. -/
def excess (f : Format) (q : Nat) : Nat := q.log2 + 1 - f.precision

/-- The code nearest to `num / den`; it is `limit` or more exactly when the
quotient is too large for the format. -/
def round (f : Format) (num den : Nat) : Nat :=
  let scaled := num * 2 ^ f.scale
  let extra := f.excess (scaled / den)
  extra * 2 ^ (f.precision - 1) + nearestEven scaled (den * 2 ^ extra)

end Format

end MiniLox.Numeric
