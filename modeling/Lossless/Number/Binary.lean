/-!
# Binary floating point

A binary format stores a number as a multiple of its smallest positive number, the *quantum*, with
a limited count of leading bits. Rounding works on exact fractions of naturals: the quotient is
expressed in quanta, cut to the precision, and rounded to the nearest, a half going to the even
neighbour. The bit pattern then falls out of one addition, because neighbouring patterns are
neighbouring numbers.
-/

namespace Lossless

/-- A binary format, given by the bits of its significand and of its exponent. -/
structure BinaryFormat where
  precision : Nat
  exponentBits : Nat
deriving DecidableEq, Repr

namespace BinaryFormat

/-- The format of 32 bits. -/
def binary32 : BinaryFormat := ⟨24, 8⟩

/-- The format of 64 bits. -/
def binary64 : BinaryFormat := ⟨53, 11⟩

/-- The quantum is two to the power of minus this. -/
def quantumPlaces (f : BinaryFormat) : Nat := Nat.pow 2 (f.exponentBits - 1) + f.precision - 3

/-- The pattern of infinity, the first that is no finite number. -/
def infinityBits (f : BinaryFormat) : Nat :=
  (Nat.pow 2 f.exponentBits - 1) * Nat.pow 2 (f.precision - 1)

/-- The bit that marks a negative number. -/
def signBit (f : BinaryFormat) : Nat := Nat.pow 2 (f.exponentBits + f.precision - 1)

/-- The quotient of two naturals, rounded to the nearest natural, and from half way to the even
one. -/
def roundDiv (num den : Nat) : Nat :=
  let quotient := num / den
  let remainder := num % den
  if 2 * remainder < den then quotient
  else if den < 2 * remainder then quotient + 1
  else quotient + quotient % 2

/-- How many low places, counted in quanta, a fraction has to give up to fit the precision. -/
def dropped (f : BinaryFormat) (num den : Nat) : Nat :=
  let quanta := num * Nat.pow 2 f.quantumPlaces / den
  if quanta < Nat.pow 2 f.precision then 0 else quanta.log2 + 1 - f.precision

/-- The pattern of the non-negative number nearest to a fraction, or none if it rounds to infinity.
A significand that rounds up to the next power of two carries into the exponent by itself. -/
def nearestBits? (f : BinaryFormat) (num den : Nat) : Option Nat :=
  let places := f.dropped num den
  let significand := roundDiv (num * Nat.pow 2 f.quantumPlaces) (den * Nat.pow 2 places)
  let bits := places * Nat.pow 2 (f.precision - 1) + significand
  if bits < f.infinityBits then some bits else none

/-- The pattern nearest to a fraction with a sign. -/
def signedBits? (f : BinaryFormat) (negative : Bool) (num den : Nat) : Option Nat :=
  (f.nearestBits? num den).map fun bits => if negative then f.signBit + bits else bits

/-- The pattern without its sign. -/
def magnitude (f : BinaryFormat) (bits : Nat) : Nat := bits % f.signBit

/-- Whether two patterns stand for equal numbers: the two zeros are equal, and a pattern above
infinity is no number and equals nothing, not even itself. -/
def sameNumber (f : BinaryFormat) (a b : Nat) : Bool :=
  f.magnitude a ≤ f.infinityBits && f.magnitude b ≤ f.infinityBits &&
    (a == b || (f.magnitude a == 0 && f.magnitude b == 0))

end BinaryFormat

end Lossless
