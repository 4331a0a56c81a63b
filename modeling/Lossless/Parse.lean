import Lossless.Diagnostic
import Lossless.Grammar.Progress

/-!
# Parsing a text

The two ways into the grammar: a whole text is parsed as a unit, and a single class declaration is
parsed at its byte offset, with nothing behind it being looked at. Both report what happens on the
way; the events that were reported before an error stay.
-/

namespace Lossless

/-- What a parse reports and what comes out of it. -/
structure Report where
  events : List Event
  result : Except Error Node

/-- The error of a failed parse. -/
def Grammar.Failure.error : Grammar.Failure → Error
  | .lexical f => .lexical f.diagnostic
  | .grammar cause span => .grammar ⟨cause.message, span⟩

/-- Runs a rule on a stream from its beginning. The rule must be one that can be entered without
knowing what comes. -/
def Grammar.parse (rule : Rule) (entry : rule.needs = 0) (s : Stream) : Report :=
  match h : run (depthFor s) rule [] ⟨s, []⟩ with
  | .done node state => ⟨state.log.reverse, .ok node⟩
  | .failed failure log => ⟨log.reverse, .error failure.error⟩
  | .exhausted => absurd h (run_ne_exhausted entry [] ⟨s, []⟩)

/-- Parses a whole text and reports on it. -/
def reportUnit (text : String) : Report :=
  Grammar.parse .unitItems rfl (Stream.ofLexer (Lexer.new text.toList))

/-- Parses a whole text. -/
def parseUnit (text : String) : Except Error Node := (reportUnit text).result

/-- The error for an offset at which no character starts. It points at the end of the text. -/
def offsetError (text : String) (offset : Nat) : Error :=
  .grammar
    ⟨s!"declaration offset {offset} is not a character boundary of the input",
      .empty (Text.width text.toList)⟩

/-- Parses the class declaration at a byte offset of a text and reports on it. -/
def reportDeclarationAt (text : String) (offset : Nat) : Report :=
  match Lexer.at? text.toList offset with
  | none => ⟨[], .error (offsetError text offset)⟩
  | some lexer =>
    let report := Grammar.parse .classDecl rfl (Stream.ofLexer lexer)
    { report with events := .declaration offset :: report.events }

/-- Parses the class declaration at a byte offset of a text. -/
def parseDeclarationAt (text : String) (offset : Nat) : Except Error Node :=
  (reportDeclarationAt text offset).result

/-- The byte offset at which a marker first occurs in a text. -/
def declarationOffset? (text marker : String) : Option Nat :=
  Text.offsetOf? marker.toList text.toList

end Lossless
