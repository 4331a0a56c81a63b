import Lossless.Terminal

/-!
# Reading terminals with lookahead

A reader hands out terminals one after the other and lets its user look ahead by any distance.
Terminals that were looked at wait in a queue and are handed out later. A lexical error is reported
by the call that meets it, once; the reader then goes on behind it.
-/

namespace Lossless

/-- A reader: the lexemes not yet made into terminals, the position of the end of the text, and the
terminals that were looked at and not yet handed out. -/
structure Reader where
  run : List (Except Fault Lexeme)
  position : Nat
  queue : List Terminal

namespace Reader

/-- A reader of everything a lexer still has to read. -/
def ofLexer (l : Lexer) : Reader := ⟨l.run, l.finish, []⟩

/-- Makes one more terminal. -/
def advance (r : Reader) : Except Fault Terminal × Reader :=
  match promote r.position r.run with
  | .terminal t rest => (.ok t, { r with run := rest })
  | .finish t => (.ok t, { r with run := [] })
  | .fault f rest => (.error f, { r with run := rest })

/-- Hands out the next terminal. At the end of the text it is the empty one, each time. -/
def read (r : Reader) : Except Fault Terminal × Reader :=
  match r.queue with
  | t :: ts => (.ok t, { r with queue := ts })
  | [] => r.advance

/-- Makes `n` more terminals and one, puts them into the queue and gives the last one. -/
def extend : Nat → Reader → Except Fault Terminal × Reader
  | n, r =>
    match r.advance with
    | (.error f, r') => (.error f, r')
    | (.ok t, r') =>
      let r'' := { r' with queue := r'.queue ++ [t] }
      match n with
      | 0 => (.ok t, r'')
      | m + 1 => extend m r''

/-- The terminal `n` places ahead, without handing out any. -/
def peek (n : Nat) (r : Reader) : Except Fault Terminal × Reader :=
  match r.queue[n]? with
  | some t => (.ok t, r)
  | none => extend (n - r.queue.length) r

/-- The place of the terminal `n` places ahead, without handing out any. -/
def range (n : Nat) (r : Reader) : Except Fault Span × Reader :=
  ((r.peek n).1.map Terminal.span, (r.peek n).2)

end Reader

end Lossless
