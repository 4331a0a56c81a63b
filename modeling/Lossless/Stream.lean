import Lossless.Terminal

/-!
# Streams of terminals

The grammar works on all terminals of a text at once: up to the end of the text or, if the text is
at fault, up to the first lexical error. Past the end of the text the empty terminal repeats; past
a lexical error there is nothing but that error.
-/

namespace Lossless

/-- How a sequence of terminals ends: with the text, or at the first lexical error. -/
inductive Ending where
  | finish (position : Nat)
  | fault (f : Fault)
deriving DecidableEq, Repr

/-- The terminals of a text up to its end, whose own terminal is the last, or up to the first
lexical error. -/
structure Stream where
  terminals : List Terminal
  ending : Ending
deriving DecidableEq, Repr

namespace Stream

/-- A stream with one more terminal in front. -/
def cons (t : Terminal) (s : Stream) : Stream := ⟨t :: s.terminals, s.ending⟩

/-- The stream of a run of lexemes over a text that ends at `position`. -/
def ofRun (position : Nat) (run : List (Except Fault Lexeme)) : Stream :=
  match _ : promote position run with
  | .terminal t rest => (ofRun position rest).cons t
  | .finish t => ⟨[t], .finish position⟩
  | .fault f _ => ⟨[], .fault f⟩
termination_by run.length
decreasing_by exact length_lt_of_promote (by assumption)

/-- The stream of everything a lexer still has to read. -/
def ofLexer (l : Lexer) : Stream := ofRun l.finish l.run

end Stream

end Lossless
