import Lossless.Lexer
import Lossless.Token

/-!
# Terminals

Lexemes become terminals by taking in the blanks around them. The blanks behind a terminal, up to
the next lexeme that is none, belong to it, so only the first terminal can have blanks in front.
The text ends in one more terminal, which is empty.

To know where the blanks behind a terminal end, the lexeme after them has to be seen. If there is
an error instead, the terminal cannot be completed and is lost together with its blanks.
-/

namespace Lossless

/-- A token and its place in the text, blanks excluded. -/
structure Terminal where
  token : Token
  span : Span
deriving DecidableEq, Repr

/-- The piece of trivia that a blank lexeme is. -/
def Lexeme.piece? (l : Lexeme) : Option Piece :=
  match l.kind with
  | .whitespace => some ⟨.whitespace, l.span.length⟩
  | .tab => some ⟨.tab, l.span.length⟩
  | .newline => some ⟨.newline, l.span.length⟩
  | _ => none

/-- The own text of the terminal that a lexeme becomes: a string loses its first and last
character. -/
def Lexeme.ownText (l : Lexeme) : String :=
  String.ofList (if l.kind = .stringLit then (l.text.drop 1).dropLast else l.text)

namespace Terminal

/-- The terminal that a lexeme becomes between the given blanks. -/
def ofLexeme (l : Lexeme) (before after : List Piece) : Terminal where
  token :=
    { kind := l.kind, text := l.ownText, value := l.value
      leading := ⟨before⟩, trailing := ⟨after⟩ }
  span := l.span

/-- The terminal at the end of a text. -/
def finish (position : Nat) (before : List Piece) : Terminal where
  token := { kind := .endOfInput, text := "", leading := ⟨before⟩ }
  span := .empty position

end Terminal

/-- What comes after a run of blanks. -/
inductive Gap where
  | lexeme (blanks : List Piece) (l : Lexeme) (rest : List (Except Fault Lexeme))
  | finish (blanks : List Piece)
  | fault (f : Fault) (rest : List (Except Fault Lexeme))

/-- A gap with one more piece in front. An error leaves no blanks. -/
def Gap.cons (p : Piece) : Gap → Gap
  | .lexeme blanks l rest => .lexeme (p :: blanks) l rest
  | .finish blanks => .finish (p :: blanks)
  | .fault f rest => .fault f rest

/-- Reads the blanks at the front of a run of lexemes. -/
def Gap.read : List (Except Fault Lexeme) → Gap
  | [] => .finish []
  | .error f :: rest => .fault f rest
  | .ok l :: rest =>
    match l.piece? with
    | some p => (Gap.read rest).cons p
    | none => .lexeme [] l rest

/-- What comes first in a run of lexemes: a terminal, the terminal at the end, or an error. -/
inductive Promotion where
  | terminal (t : Terminal) (rest : List (Except Fault Lexeme))
  | finish (t : Terminal)
  | fault (f : Fault) (rest : List (Except Fault Lexeme))

/-- Makes the first terminal of a run of lexemes over a text that ends at `position`. -/
def promote (position : Nat) (run : List (Except Fault Lexeme)) : Promotion :=
  match Gap.read run with
  | .fault f rest => .fault f rest
  | .finish before => .finish (.finish position before)
  | .lexeme before l rest =>
    match Gap.read rest with
    | .fault f rest => .fault f rest
    | .finish after => .terminal (.ofLexeme l before after) []
    | .lexeme after l' rest => .terminal (.ofLexeme l before after) (.ok l' :: rest)

/-! ## Progress -/

/-- The lexemes that are left behind a gap. -/
def Gap.rest : Gap → List (Except Fault Lexeme)
  | .lexeme _ _ rest => rest
  | .finish _ => []
  | .fault _ rest => rest

theorem Gap.rest_cons (p : Piece) (g : Gap) : (g.cons p).rest = g.rest := by
  cases g <;> rfl

/-- Reading a gap takes at least one lexeme off a run. -/
theorem Gap.rest_read_length (run : List (Except Fault Lexeme)) :
    (Gap.read run).rest.length ≤ run.length - 1 := by
  fun_induction Gap.read run with
  | case1 => simp [Gap.rest]
  | case2 => simp [Gap.rest]
  | case3 l rest p hp ih =>
    rw [Gap.rest_cons]
    simp only [List.length_cons]
    omega
  | case4 => simp [Gap.rest]

/-- A terminal uses up at least one lexeme. -/
theorem length_lt_of_promote {position : Nat} {run rest : List (Except Fault Lexeme)} {t : Terminal}
    (h : promote position run = .terminal t rest) : rest.length < run.length := by
  have h₁ := Gap.rest_read_length run
  unfold promote at h
  split at h
  · cases h
  · cases h
  · rename_i before l rest₁ hgap
    rw [hgap] at h₁
    simp only [Gap.rest] at h₁
    have h₂ := Gap.rest_read_length rest₁
    -- A gap with a lexeme was not read from an empty run, so the lexeme itself is used up.
    have hne : run ≠ [] := by
      rintro rfl
      simp [Gap.read] at hgap
    have hpos := List.length_pos_iff.2 hne
    split at h
    · cases h
    · cases h
      simpa using hpos
    · rename_i after l' rest₂ hgap'
      cases h
      rw [hgap'] at h₂
      simp only [Gap.rest] at h₂
      have hne₁ : rest₁ ≠ [] := by
        rintro rfl
        simp [Gap.read] at hgap'
      have hpos₁ := List.length_pos_iff.2 hne₁
      simp only [List.length_cons]
      omega

end Lossless
