import Lossless.Text.Printable

/-!
# Quoted text

A text between quotation marks, written so that it stays on one line and can be read back: the
quotation mark and the backslash are escaped, so are the line breaks, the tab and the null
character, and any other character that shows nothing of its own is written as its number.
-/

namespace Lossless.Text

/-- A number in hexadecimal, with lower-case digits and no leading zero. -/
def hexDigits (n : Nat) : List Char := Nat.toDigits 16 n

/-- How one character is written inside quotation marks. -/
def escapeChar (c : Char) : List Char :=
  if c = '"' then ['\\', '"']
  else if c = '\\' then ['\\', '\\']
  else if c = '\x00' then ['\\', '0']
  else if c = '\t' then ['\\', 't']
  else if c = '\n' then ['\\', 'n']
  else if c = '\r' then ['\\', 'r']
  else if isPrintable c then [c]
  else ['\\', 'u', '{'] ++ hexDigits c.toNat ++ ['}']

/-- A text between quotation marks. -/
def quoted (cs : List Char) : List Char := '"' :: (cs.flatMap escapeChar ++ ['"'])

end Lossless.Text
