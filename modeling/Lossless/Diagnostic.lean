import Lossless.Lexeme

/-!
# Diagnostics and errors

A diagnostic is a message about a range of a text. An error of a parse is lexical or grammatical,
and then has a diagnostic, or it says that a file could not be read.
-/

namespace Lossless

/-- A message about a range of a text. -/
structure Diagnostic where
  message : String
  span : Span
deriving DecidableEq, Repr

/-- A diagnostic on one line. -/
def Diagnostic.display (d : Diagnostic) : String := s!"{d.message} at {d.span.display}"

/-- The diagnostic of a lexical error. -/
def Fault.diagnostic (f : Fault) : Diagnostic := ⟨f.cause.message, f.span⟩

/-- Why a file could not be read or written. -/
inductive FileCause where
  | notFound
  | notText
  | isDirectory
  | notDirectory
  | other (reason : String)
deriving DecidableEq, Repr

def FileCause.message : FileCause → String
  | .notFound => "No such file or directory (os error 2)"
  | .notText => "stream did not contain valid UTF-8"
  | .isDirectory => "Is a directory (os error 21)"
  | .notDirectory => "Not a directory (os error 20)"
  | .other reason => reason

/-- What can go wrong when a text is parsed. -/
inductive Error where
  | lexical (d : Diagnostic)
  | grammar (d : Diagnostic)
  | unreadable (path : String) (cause : FileCause)
deriving DecidableEq, Repr

namespace Error

/-- The diagnostic of an error that is about a text. -/
def diagnostic? : Error → Option Diagnostic
  | .lexical d | .grammar d => some d
  | .unreadable _ _ => none

/-- An error on one line. -/
def display : Error → String
  | .lexical d => s!"lexical error: {d.display}"
  | .grammar d => s!"parse error: {d.display}"
  | .unreadable path _ => s!"failed to read `{path}`"

end Error

end Lossless
