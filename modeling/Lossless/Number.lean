import Lossless.Number.Binary

/-!
# Numeric literals

The value of a numeric literal. An integer is kept in 32 bits if it fits and else in 64; a literal
with a decimal point is a binary32 number unless it is too large, and else a binary64 number. The
floating-point values are kept as bit patterns, so that every value is exact.
-/

namespace Lossless

/-- The value of a numeric literal. -/
inductive Number where
  | int (value : Int32)
  | long (value : Int64)
  | float (bits : UInt32)
  | double (bits : UInt64)
deriving DecidableEq, Repr

namespace Number

/-- The value of an integer literal; a fractional one has none. -/
def toInt64? : Number → Option Int64
  | .int v => some v.toInt64
  | .long v => some v
  | .float _ | .double _ => none

/-- Whether two literals have equal values of the same type. Floating-point values are compared as
numbers and not by their patterns. -/
def same : Number → Number → Bool
  | .int a, .int b => a == b
  | .long a, .long b => a == b
  | .float a, .float b => BinaryFormat.binary32.sameNumber a.toNat b.toNat
  | .double a, .double b => BinaryFormat.binary64.sameNumber a.toNat b.toNat
  | _, _ => false

/-! ## Reading literals -/

/-- The sign of a literal, true for a minus, and what follows it. -/
def splitSign : List Char → Bool × List Char
  | '-' :: cs => (true, cs)
  | '+' :: cs => (false, cs)
  | cs => (false, cs)

/-- The natural number that a list of decimal digits spells, the most significant first. -/
def ofDigits (ds : List Char) : Nat :=
  ds.foldl (fun n d => 10 * n + (d.toNat - '0'.toNat)) 0

/-- An integer in the narrowest type that holds it. -/
def ofInt? (z : Int) : Option Number :=
  if -0x80000000 ≤ z ∧ z < 0x80000000 then some (.int (Int32.ofInt z))
  else if -0x8000000000000000 ≤ z ∧ z < 0x8000000000000000 then some (.long (Int64.ofInt z))
  else none

/-- A signed fraction in the narrowest type in which it is finite. -/
def ofFraction? (negative : Bool) (num den : Nat) : Option Number :=
  match BinaryFormat.binary32.signedBits? negative num den with
  | some bits => some (.float (UInt32.ofNat bits))
  | none =>
    (BinaryFormat.binary64.signedBits? negative num den).map fun bits => .double (UInt64.ofNat bits)

/-- Reads a text that is an optional sign and digits. -/
def readInteger? (text : List Char) : Option Number :=
  let (negative, ds) := splitSign text
  if ds.isEmpty || !ds.all Char.isDigit then none
  else ofInt? (if negative then -(ofDigits ds : Int) else ofDigits ds)

/-- Reads a text that is an optional sign and digits around one decimal point. -/
def readFraction? (text : List Char) : Option Number :=
  let (negative, body) := splitSign text
  let whole := body.takeWhile (· != '.')
  let places := (body.dropWhile (· != '.')).drop 1
  let ds := whole ++ places
  if ds.isEmpty || !ds.all Char.isDigit then none
  else ofFraction? negative (ofDigits ds) (Nat.pow 10 places.length)

end Number

end Lossless
