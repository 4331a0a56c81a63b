/-!
# Trivia

The blanks around a token: runs of spaces, runs of tabs and line breaks. A piece keeps only its
kind and its length, since these two give its text back, and a trivia value is a list of pieces.
A blank text has exactly one reading in pieces (`Trivia.ofChars?`), but not every list of pieces is
such a reading: neighbouring runs of spaces stay apart once they have been put side by side.
-/

namespace Lossless

/-- What a piece of trivia consists of. -/
inductive PieceKind where
  | whitespace
  | tab
  | newline
deriving DecidableEq, Repr, Inhabited

/-- The kinds of pieces in their order. -/
def PieceKind.all : List PieceKind := [.whitespace, .tab, .newline]

/-- A run of spaces, a run of tabs or one line break, with its length in bytes. -/
structure Piece where
  kind : PieceKind
  length : Nat
deriving DecidableEq, Repr, Inhabited

/-- The text of a piece. A line break of length two is a carriage return with a line feed, any other
a single line feed. -/
def Piece.chars (p : Piece) : List Char :=
  match p.kind with
  | .whitespace => List.replicate p.length ' '
  | .tab => List.replicate p.length '\t'
  | .newline => if p.length = 2 then ['\r', '\n'] else ['\n']

/-- The blanks on one side of a token. -/
structure Trivia where
  pieces : List Piece := []
deriving DecidableEq, Repr, Inhabited

namespace Trivia

def empty : Trivia := ⟨[]⟩

def isEmpty (t : Trivia) : Bool := t.pieces.isEmpty

/-- The text of all pieces. -/
def chars (t : Trivia) : List Char := t.pieces.flatMap Piece.chars

def length (t : Trivia) : Nat := t.pieces.foldr (fun p n => p.length + n) 0

/-- Whether some piece is of the given kind. -/
def contains (t : Trivia) (k : PieceKind) : Bool := t.pieces.any (·.kind == k)

/-- A further piece behind the others. -/
def push (t : Trivia) (p : Piece) : Trivia := ⟨t.pieces ++ [p]⟩

/-- Two runs of blanks side by side, piece by piece. -/
instance : Append Trivia := ⟨fun s t => ⟨s.pieces ++ t.pieces⟩⟩

@[simp] theorem pieces_append (s t : Trivia) : (s ++ t).pieces = s.pieces ++ t.pieces := rfl

@[simp] theorem chars_empty : chars empty = [] := rfl

@[simp] theorem chars_mk_nil : chars ⟨[]⟩ = [] := rfl

@[simp] theorem chars_mk_cons (p : Piece) (ps : List Piece) :
    chars ⟨p :: ps⟩ = p.chars ++ chars ⟨ps⟩ := rfl

@[simp] theorem chars_append (s t : Trivia) : (s ++ t).chars = s.chars ++ t.chars := by
  simp [chars]

/-! ## Reading a blank text -/

/-- Reads one more character in front of pieces that are already read: it lengthens a run of its own
kind and otherwise starts a piece. -/
def prepend (k : PieceKind) : List Piece → List Piece
  | [] => [⟨k, 1⟩]
  | p :: ps => if p.kind = k then ⟨k, p.length + 1⟩ :: ps else ⟨k, 1⟩ :: p :: ps

/-- The pieces of a blank text, with runs of spaces and of tabs taken whole. A carriage return
counts only together with a line feed; any other character makes the text no trivia. -/
def readPieces? : List Char → Option (List Piece)
  | [] => some []
  | ' ' :: cs => (readPieces? cs).map (prepend .whitespace)
  | '\t' :: cs => (readPieces? cs).map (prepend .tab)
  | '\n' :: cs => (readPieces? cs).map (⟨.newline, 1⟩ :: ·)
  | '\r' :: '\n' :: cs => (readPieces? cs).map (⟨.newline, 2⟩ :: ·)
  | _ => none

/-- The trivia that a text spells, if it holds nothing but blanks. -/
def ofChars? (cs : List Char) : Option Trivia := (readPieces? cs).map fun ps => ⟨ps⟩

end Trivia

end Lossless
