import Lossless.Diagnostic

/-!
# Diagnostics with their source line

How a diagnostic is shown is up to a renderer. The plain one shows it with the line it points into
and marks under the characters it covers. Lines and columns are counted from one. A range that goes
past the end of its line is marked up to there; an empty one gets a single mark. No blank stands
behind the bar of a line without text.
-/

namespace Lossless

namespace Text

/-- A place in a text: the number of its line, counted from zero, the characters of that line in
front of it, and the text from there on. -/
structure Place where
  line : Nat
  before : List Char
  after : List Char
deriving DecidableEq, Repr

/-- The place that lies `offset` bytes behind another one, or the end of the text. -/
def Place.advance (offset : Nat) (line : Nat) (before : List Char) : List Char → Place
  | [] => ⟨line, before, []⟩
  | c :: cs =>
    if offset = 0 then ⟨line, before, c :: cs⟩
    else if c = '\n' then Place.advance (offset - c.utf8Size) (line + 1) [] cs
    else Place.advance (offset - c.utf8Size) line (before ++ [c]) cs

/-- The place at a byte offset of a text. -/
def place (offset : Nat) (text : List Char) : Place := Place.advance offset 0 [] text

/-- The characters of a text up to the end of its first line. -/
def firstLine (cs : List Char) : List Char := cs.takeWhile (· != '\n')

/-- The number of characters that the first `n` bytes of a text reach into. -/
def charsWithin : Nat → List Char → Nat
  | _, [] => 0
  | n, c :: cs => if n = 0 then 0 else 1 + charsWithin (n - c.utf8Size) cs

end Text

/-- How a diagnostic is shown that is about a file with the given path and text. -/
abbrev Renderer : Type := Diagnostic → String → List Char → String

/-- The plain renderer: a diagnostic with the line of the text it points into. -/
def Diagnostic.render (d : Diagnostic) (path : String) (text : List Char) : String :=
  let place := Text.place d.span.start text
  let tail := Text.firstLine place.after
  let marks := max 1 (Text.charsWithin d.span.length tail)
  let number := toString (place.line + 1)
  let margin := String.ofList (List.replicate number.length ' ')
  let source := String.ofList (place.before ++ tail)
  let indent := String.ofList (List.replicate place.before.length ' ')
  let under := String.ofList (List.replicate marks '^')
  String.intercalate "\n"
    [s!"error: {d.message}",
     s!"{margin}--> {path}:{number}:{place.before.length + 1}",
     s!"{margin} |",
     if source.isEmpty then s!"{number} |" else s!"{number} | {source}",
     s!"{margin} | {indent}{under} here",
     s!"{margin} |"]

end Lossless
