import Lossless.Kind
import Lossless.Number
import Lossless.Text.Span

/-!
# Lexemes

A lexeme is the longest piece of text that its first characters can start: a run of spaces or tabs,
a line break, an operator, a number, a string or a word. `scan` cuts one lexeme off the front of a
text and says what it looks like; nothing is lost in the cut (`scan_append`) and at least one
character is taken. Whether a number fits a type is decided later, from its whole text.
-/

namespace Lossless

/-- Why a piece of text is no lexeme. -/
inductive LexicalCause where
  | secondPoint
  | unterminatedString
  | integerOutOfRange
  | fractionOutOfRange
deriving DecidableEq, Repr

def LexicalCause.message : LexicalCause → String
  | .secondPoint => "found second decimal point in numeric value"
  | .unterminatedString => "unterminated string literal"
  | .integerOutOfRange => "unsupported integer numeric literal"
  | .fractionOutOfRange => "unsupported floating point numeric literal"

/-- A lexical error and the text it covers. -/
structure Fault where
  cause : LexicalCause
  span : Span
deriving DecidableEq, Repr

/-- A piece of text with its kind and its place, and the value if it is a number. -/
structure Lexeme where
  kind : Kind
  span : Span
  text : List Char
  value : Option Number
deriving DecidableEq, Repr

/-- What a piece of text looks like. -/
inductive Shape where
  | plain (kind : Kind)
  | integer
  | fraction
  | broken (cause : LexicalCause)
deriving DecidableEq, Repr

/-- The outcome of cutting one lexeme off a text. -/
structure Cut where
  shape : Shape
  taken : List Char
  rest : List Char
deriving DecidableEq, Repr

namespace Lexeme

/-! ## Character classes -/

/-- The operators and line breaks of two characters. -/
def pair? : Char → Char → Option Kind
  | '\r', '\n' => some .newline
  | '=', '=' => some .equalsEquals
  | '=', '>' => some .fatArrow
  | '<', '=' => some .lessEquals
  | '>', '=' => some .greaterEquals
  | '*', '/' => some .blockCommentEnd
  | '/', '/' => some .doubleSlash
  | '/', '*' => some .blockCommentStart
  | '+', '=' => some .plusEquals
  | '-', '=' => some .minusEquals
  | _, _ => none

/-- The lexemes of one character. -/
def single? : Char → Option Kind
  | '\n' => some .newline
  | '\r' => some .carriageReturn
  | '(' => some .leftParen
  | ')' => some .rightParen
  | '{' => some .leftBrace
  | '}' => some .rightBrace
  | '[' => some .leftBracket
  | ']' => some .rightBracket
  | '@' => some .atSign
  | '.' => some .dot
  | '!' => some .bang
  | ':' => some .colon
  | ';' => some .semicolon
  | ',' => some .comma
  | '#' => some .hash
  | '|' => some .pipe
  | '=' => some .equals
  | '<' => some .less
  | '>' => some .greater
  | '*' => some .star
  | '/' => some .slash
  | '+' => some .plus
  | '-' => some .minus
  | _ => none

/-- The characters that end a word. A word may go on with any other character, also with one that
is an operator at the start of a lexeme. -/
def isBoundary (c : Char) : Bool :=
  ['=', '<', '>', '-', ' ', '.', ',', ':', ';', '*', '#', '`', '\n', '\r', '\t', '(', ')', '{', '}',
    '[', ']'].contains c

/-- Whether a number starts here: at a digit, or at a sign with a digit behind it. -/
def startsNumber (c : Char) (cs : List Char) : Bool :=
  c.isDigit || ((c == '+' || c == '-') && (cs.head?.any Char.isDigit))

/-! ## Cutting -/

/-- Takes a first character and all that follow it and satisfy `p`. -/
def cutRun (kind : Kind) (p : Char → Bool) (c : Char) (cs : List Char) : Cut :=
  ⟨.plain kind, c :: cs.takeWhile p, cs.dropWhile p⟩

/-- Takes a number whose first character is `c`. A second decimal point is taken too, and breaks
it. -/
def cutNumber (c : Char) (cs : List Char) : Cut :=
  let whole := cs.takeWhile Char.isDigit
  match cs.dropWhile Char.isDigit with
  | '.' :: tail =>
    let places := tail.takeWhile Char.isDigit
    match tail.dropWhile Char.isDigit with
    | '.' :: rest => ⟨.broken .secondPoint, c :: whole ++ '.' :: places ++ ['.'], rest⟩
    | rest => ⟨.fraction, c :: whole ++ '.' :: places, rest⟩
  | rest => ⟨.integer, c :: whole, rest⟩

/-- Takes a string whose opening quotation mark is `c`. It runs to the next quotation mark; nothing
is escaped in it. -/
def cutString (c : Char) (cs : List Char) : Cut :=
  match cs.dropWhile (· != '"') with
  | q :: rest => ⟨.plain .stringLit, c :: cs.takeWhile (· != '"') ++ [q], rest⟩
  | [] => ⟨.broken .unterminatedString, c :: cs, []⟩

/-- Takes an operator, or a word if the first character starts none. -/
def cutOther (c : Char) (cs : List Char) : Cut :=
  match cs.head?.bind (pair? c) with
  | some kind => ⟨.plain kind, c :: cs.take 1, cs.drop 1⟩
  | none =>
    match single? c with
    | some kind => ⟨.plain kind, [c], cs⟩
    | none => cutRun .ident (fun d => !isBoundary d) c cs

/-- Cuts the first lexeme off a text with first character `c`. -/
def scan (c : Char) (cs : List Char) : Cut :=
  if c = ' ' then cutRun .whitespace (· == ' ') c cs
  else if c = '\t' then cutRun .tab (· == '\t') c cs
  else if c = '"' then cutString c cs
  else if startsNumber c cs then cutNumber c cs
  else cutOther c cs

/-! ## Nothing is lost -/

theorem cutRun_append (kind : Kind) (p : Char → Bool) (c : Char) (cs : List Char) :
    (cutRun kind p c cs).taken ++ (cutRun kind p c cs).rest = c :: cs := by
  simp [cutRun]

/-- A number is cut at most twice, at its first and at its second point, and no character is lost
there. -/
theorem cutNumber_append (c : Char) (cs : List Char) :
    (cutNumber c cs).taken ++ (cutNumber c cs).rest = c :: cs := by
  have hcs : cs.takeWhile Char.isDigit ++ cs.dropWhile Char.isDigit = cs :=
    List.takeWhile_append_dropWhile
  unfold cutNumber
  split
  · rename_i tail htail
    have ht : tail.takeWhile Char.isDigit ++ tail.dropWhile Char.isDigit = tail :=
      List.takeWhile_append_dropWhile
    split
    · rename_i rest hrest
      rw [htail] at hcs
      rw [hrest] at ht
      simp [ht, hcs]
    · rw [htail] at hcs
      simp [ht, hcs]
  · simp [hcs]

/-- A string is cut behind its closing quotation mark, or takes all that is left. -/
theorem cutString_append (c : Char) (cs : List Char) :
    (cutString c cs).taken ++ (cutString c cs).rest = c :: cs := by
  have hcs : cs.takeWhile (· != '"') ++ cs.dropWhile (· != '"') = cs :=
    List.takeWhile_append_dropWhile
  unfold cutString
  split
  · rename_i q rest hrest
    rw [hrest] at hcs
    simp [hcs]
  · simp

/-- Signs of two characters and of one, and words, are cut without a loss. -/
theorem cutOther_append (c : Char) (cs : List Char) :
    (cutOther c cs).taken ++ (cutOther c cs).rest = c :: cs := by
  unfold cutOther
  split
  · exact congrArg (c :: ·) (List.take_append_drop 1 cs)
  · split
    · rfl
    · exact cutRun_append ..

/-- The piece taken and the rest make up the text. -/
theorem scan_append (c : Char) (cs : List Char) :
    (scan c cs).taken ++ (scan c cs).rest = c :: cs := by
  unfold scan
  split
  · exact cutRun_append ..
  split
  · exact cutRun_append ..
  split
  · exact cutString_append ..
  split
  · exact cutNumber_append ..
  · exact cutOther_append ..

/-- At least the first character is taken. -/
theorem scan_taken_ne_nil (c : Char) (cs : List Char) : (scan c cs).taken ≠ [] := by
  unfold scan cutRun cutString cutNumber cutOther cutRun
  repeat' split
  all_goals simp

/-- Every lexeme takes a character, so a lexer comes to an end. -/
theorem scan_rest_length_lt (c : Char) (cs : List Char) :
    (scan c cs).rest.length < (c :: cs).length := by
  have h := congrArg List.length (scan_append c cs)
  have hpos := List.length_pos_iff.2 (scan_taken_ne_nil c cs)
  rw [List.length_append] at h
  omega

/-! ## Kind and value -/

/-- The kind and the value of a text of a given shape. A number is read from its whole text and
fails if no type holds it. -/
def evaluate : Shape → List Char → Except LexicalCause (Kind × Option Number)
  | .plain kind, _ => .ok (kind, none)
  | .integer, text =>
    match Number.readInteger? text with
    | some value => .ok (.numberLit, some value)
    | none => .error .integerOutOfRange
  | .fraction, text =>
    match Number.readFraction? text with
    | some value => .ok (.numberLit, some value)
    | none => .error .fractionOutOfRange
  | .broken cause, _ => .error cause

end Lexeme

end Lossless
