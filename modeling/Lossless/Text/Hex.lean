import Lossless.Text.Blank

/-!
# Hexadecimal offsets

An annotation gives an offset in hexadecimal, such as `0x1A2B`. White space around it, one `0x` or
`0X` in front and one plus sign before the digits are allowed; the value has to fit in 64 bits.
-/

namespace Lossless.Text

/-- The value of a hexadecimal digit of either case. -/
def hexDigit? (c : Char) : Option Nat :=
  if '0' ≤ c ∧ c ≤ '9' then some (c.toNat - '0'.toNat)
  else if 'a' ≤ c ∧ c ≤ 'f' then some (c.toNat - 'a'.toNat + 10)
  else if 'A' ≤ c ∧ c ≤ 'F' then some (c.toNat - 'A'.toNat + 10)
  else none

/-- The number that hexadecimal digits spell, the most significant first. -/
def ofHexDigits (ds : List Nat) : Nat := ds.foldl (fun n d => 16 * n + d) 0

/-- Reads one or more hexadecimal digits. -/
def hexNumber? (cs : List Char) : Option Nat :=
  if cs.isEmpty then none else (cs.mapM hexDigit?).map ofHexDigits

/-- A text without one `0x` or else one `0X` in front. -/
def dropHexMark : List Char → List Char
  | '0' :: 'x' :: cs => cs
  | '0' :: 'X' :: cs => cs
  | cs => cs

/-- A text without one plus sign in front. -/
def dropPlus : List Char → List Char
  | '+' :: cs => cs
  | cs => cs

/-- Reads an offset of at most 64 bits. -/
def hexOffset? (cs : List Char) : Option Nat :=
  (hexNumber? (dropPlus (dropHexMark (trim cs)))).filter (· < UInt64.size)

end Lossless.Text
