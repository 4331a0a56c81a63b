import Lossless.Kind
import Lossless.Number
import Lossless.Trivia

/-!
# Tokens

A token is a terminal of the tree: its kind, its own text, its value if it is a number, and the
blanks on its two sides. Its source text is all of that in order, and a string literal, which is
kept without its quotation marks, gets them back. Neighbouring tokens can be fused into one, which
takes the blanks between them into its text.
-/

namespace Lossless

/-- A terminal with the blanks it owns. -/
structure Token where
  kind : Kind
  text : String
  value : Option Number := none
  leading : Trivia := .empty
  trailing : Trivia := .empty
deriving DecidableEq, Repr, Inhabited

namespace Token

/-- The characters of the token itself, as they stand in the source. -/
def ownChars (t : Token) : List Char :=
  if t.kind = .stringLit then '"' :: (t.text.toList ++ ['"']) else t.text.toList

/-- The source text of the token with its blanks. -/
def chars (t : Token) : List Char := t.leading.chars ++ t.ownChars ++ t.trailing.chars

/-- Whether a line ends behind the token, before the next one. -/
def endsLine (t : Token) : Bool := t.trailing.contains .newline

/-- Whether two tokens agree in kind, text, value and blanks, with values compared as numbers. -/
def same (s t : Token) : Bool :=
  s.kind == t.kind && s.text == t.text && s.leading == t.leading && s.trailing == t.trailing &&
    match s.value, t.value with
    | none, none => true
    | some a, some b => a.same b
    | _, _ => false

/-! ## Fusing -/

/-- The source text from the first own character of the first token to the last own character of
the last one. -/
def innerChars : List Token → List Char
  | [] => []
  | [t] => t.ownChars
  | t :: u :: ts => t.ownChars ++ t.trailing.chars ++ u.leading.chars ++ innerChars (u :: ts)

/-- One token of the given kind in place of a list of tokens. It has no value. -/
def fuse (kind : Kind) (ts : List Token) : Token where
  kind := kind
  text := String.ofList (innerChars ts)
  leading := (ts.head?.map leading).getD .empty
  trailing := (ts.getLast?.map trailing).getD .empty

/-- Fusing keeps the source text of the list, unless the new kind adds quotation marks. -/
theorem chars_fuse {kind : Kind} (hk : kind ≠ .stringLit) (t : Token) (ts : List Token) :
    (fuse kind (t :: ts)).chars = (t :: ts).flatMap chars := by
  have inner : ∀ (t : Token) (ts : List Token),
      t.leading.chars ++ innerChars (t :: ts) ++
        (((t :: ts).getLast?.map trailing).getD .empty).chars = (t :: ts).flatMap chars := by
    intro t ts
    induction ts generalizing t with
    | nil => simp [innerChars, chars]
    | cons u us ih =>
      have := ih u
      simp only [List.getLast?_cons_cons, List.flatMap_cons, innerChars] at this ⊢
      rw [← this]
      simp [chars, List.append_assoc]
  have := inner t ts
  simp only [List.append_assoc] at this
  simp only [chars, ownChars, fuse, hk, if_false, String.toList_ofList, List.head?_cons,
    Option.map_some, Option.getD_some, List.append_assoc]
  exact this

end Token

end Lossless
