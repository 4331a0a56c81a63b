import Lossless.Lexeme

/-!
# The lexer

A lexer goes through a text lexeme by lexeme and knows the byte position of each. It goes on after
an error: the characters that failed are held back and count as the beginning of whatever lexeme
succeeds next, so that the lexemes and errors of a run always touch each other. At the end of the
text an empty lexeme stands, again and again.
-/

namespace Lossless

/-- A lexer in the middle of a text: the position at which the next lexeme starts, the characters
held back from failed lexemes, and the characters not yet read. -/
structure Lexer where
  start : Nat
  held : List Char
  rest : List Char
deriving DecidableEq, Repr

namespace Lexer

def new (text : List Char) : Lexer := ⟨0, [], text⟩

/-- A lexer at a byte offset of a text, if a character starts or the text ends there. -/
def at? (text : List Char) (offset : Nat) : Option Lexer :=
  (Text.dropBytes? offset text).map fun rest => ⟨offset, [], rest⟩

/-- The position of the first character not yet read. -/
def position (l : Lexer) : Nat := l.start + Text.width l.held

/-- The empty lexeme at the end of the text. -/
def endLexeme (l : Lexer) : Lexeme := ⟨.endOfInput, .empty l.position, [], none⟩

/-- Reads one lexeme off the rest `c :: cs`. The text of the lexeme begins with the characters that
were held back; on success nothing is held back any longer. -/
def step (l : Lexer) (c : Char) (cs : List Char) : Except Fault Lexeme × Lexer :=
  let cut := Lexeme.scan c cs
  let text := l.held ++ cut.taken
  let span : Span := ⟨l.start, l.start + Text.width text⟩
  match Lexeme.evaluate cut.shape text with
  | .ok (kind, value) => (.ok ⟨kind, span, text, value⟩, ⟨span.stop, [], cut.rest⟩)
  | .error cause => (.error ⟨cause, span⟩, ⟨l.start, text, cut.rest⟩)

/-- The next lexeme or error, and the lexer behind it. -/
def next (l : Lexer) : Except Fault Lexeme × Lexer :=
  match l.rest with
  | [] => (.ok l.endLexeme, l)
  | c :: cs => l.step c cs

theorem step_rest (l : Lexer) (c : Char) (cs : List Char) :
    (l.step c cs).2.rest = (Lexeme.scan c cs).rest := by
  unfold step
  dsimp only
  split <;> rfl

/-- The position moves on by what was taken, whether the lexeme succeeded or failed. -/
theorem step_position (l : Lexer) (c : Char) (cs : List Char) :
    (l.step c cs).2.position = l.position + Text.width (Lexeme.scan c cs).taken := by
  unfold step position
  dsimp only
  split <;> simp [Nat.add_assoc]

/-- Every lexeme and error up to the end of the text, which is not itself listed. -/
def run : Lexer → List (Except Fault Lexeme)
  | ⟨_, _, []⟩ => []
  | ⟨start, held, c :: cs⟩ =>
    (step ⟨start, held, c :: cs⟩ c cs).1 :: run (step ⟨start, held, c :: cs⟩ c cs).2
termination_by l => l.rest.length
decreasing_by
  rw [step_rest]
  exact Lexeme.scan_rest_length_lt c cs

theorem run_of_nil {l : Lexer} (h : l.rest = []) : l.run = [] := by
  obtain ⟨start, held, rest⟩ := l
  cases h
  rw [run]

/-- In front of a character, the run is what one step gives and then the run of what it leaves. -/
theorem run_of_cons {l : Lexer} {c : Char} {cs : List Char} (h : l.rest = c :: cs) :
    l.run = (l.step c cs).1 :: (l.step c cs).2.run := by
  obtain ⟨start, held, rest⟩ := l
  cases h
  rw [run]

/-- The position of the end of the text. -/
def finish (l : Lexer) : Nat := l.position + Text.width l.rest

/-- A run ends where the text ends. -/
theorem step_finish (l : Lexer) (c : Char) (cs : List Char) (h : l.rest = c :: cs) :
    (l.step c cs).2.finish = l.finish := by
  have hw := congrArg Text.width (Lexeme.scan_append c cs)
  rw [Text.width_append] at hw
  rw [finish, step_position, step_rest, finish, h]
  omega

end Lexer

end Lossless
