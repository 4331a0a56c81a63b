import Lossless.Proofs.Tiling

/-!
# Positions from two counters

A lexer need not keep a position. It is enough to know the text, what is left of it to read, and one
number: how many bytes there are from the start of the lexeme in progress to the end of the text.
Every position is then a difference of such counts, and the text of a lexeme is cut out of the whole
text at its range. Counts, differences and cuts can fail: a count that 32 bits do not hold, a
difference below zero and a cut inside a character have no result.

`Gauge` is a lexer of this form, with all of its counts, differences and cuts checked. None of them
fails (`Gauge.Meters.next`): a gauge gives what the lexer gives, also behind an error, where the
lexeme in progress starts with characters that failed before. Such characters start with a digit, a
sign or a quotation mark (`Lexer.Narrow`), so the text of a string begins and ends with a character
of one byte, whatever failed in front of it (`Lexer.Narrow.string`).
-/

namespace Lossless

namespace Text

/-! ## Checked counts, differences and cuts -/

/-- The number of bytes of a text, if 32 bits hold it. -/
def size? (cs : List Char) : Option Nat := if width cs < UInt32.size then some (width cs) else none

/-- The difference of two numbers, if it is not negative. -/
def sub? (a b : Nat) : Option Nat := if b ≤ a then some (a - b) else none

/-- The stretch of a text at a range, if the range does not run backwards and each of its ends lies
between two characters or at an end of the text. -/
def slice? (cs : List Char) (s : Span) : Option (List Char) := do
  let behind ← dropBytes? s.start cs
  let back ← dropBytes? s.stop cs
  if s.start ≤ s.stop then some (behind.take (behind.length - back.length)) else none

/-- A text that is short enough is counted. -/
theorem size?_eq {cs : List Char} (h : width cs < UInt32.size) : size? cs = some (width cs) := if_pos h

/-- A number can be taken off a sum that it is part of. -/
theorem sub?_eq {a b c : Nat} (h : a = b + c) : sub? a b = some c := by
  rw [sub?, if_pos (by omega), h, Nat.add_sub_cancel_left]

/-- A stretch is cut out where it stands. -/
theorem slice?_eq {cs w : List Char} {s : Span} (h : s.Covers cs w) : slice? cs s = some w := by
  obtain ⟨front, back, rfl, rfl⟩ := h
  have hstart := dropBytes?_width_append front (w ++ back)
  have hstop := dropBytes?_width_append (front ++ w) back
  rw [width_append] at hstop
  rw [← List.append_assoc] at hstart
  simp only [slice?, hstart, hstop, Option.bind_eq_bind, Option.bind_some,
    if_pos (Nat.le_add_right (width front) (width w)), List.length_append, Nat.add_sub_cancel,
    List.take_left]

end Text

open Text

/-! ## What a failed lexeme starts with -/

namespace Lexeme

/-- Signs and words never fail. -/
theorem cutOther_plain (c : Char) (cs : List Char) : ∃ k, (cutOther c cs).shape = .plain k := by
  unfold cutOther cutRun
  split
  · exact ⟨_, rfl⟩
  · split <;> exact ⟨_, rfl⟩

/-- Only numbers and strings fail, and these start with a character of one byte. -/
theorem utf8Size_of_error {c : Char} {cs text : List Char} {cause : LexicalCause}
    (h : evaluate (scan c cs).shape text = .error cause) : c.utf8Size = 1 := by
  rcases scan_cases c cs with ⟨rfl, -⟩ | ⟨rfl, -⟩ | ⟨rfl, -⟩ | ⟨hnum, -⟩ | ⟨-, hs⟩
  · decide
  · decide
  · decide
  · -- A number starts with a digit or a sign.
    simp only [startsNumber, Bool.or_eq_true, Bool.and_eq_true, beq_iff_eq] at hnum
    rcases hnum with hdigit | ⟨rfl | rfl, -⟩
    · rw [Char.utf8Size_eq_one_iff]
      have hle : c.val ≤ '9'.val := (Bool.and_eq_true_iff.1 hdigit).2 |> of_decide_eq_true
      exact Nat.le_trans hle (by decide)
    · decide
    · decide
  · rw [hs] at h
    obtain ⟨k, hk⟩ := cutOther_plain c cs
    rw [hk] at h
    cases h

/-- A string stands between quotation marks, whatever was held back in front of it. -/
theorem scan_string {c : Char} {cs text : List Char} {value : Option Number}
    (h : evaluate (scan c cs).shape text = .ok (.stringLit, value)) :
    ∃ inner, (scan c cs).taken = '"' :: (inner ++ ['"']) := by
  -- Only a plain cut can be a string, since the others are evaluated to numbers or errors.
  have hshape : (scan c cs).shape = .plain .stringLit := by
    cases hs : (scan c cs).shape with
    | plain k =>
      rw [hs] at h
      cases h
      rfl
    | integer =>
      rw [hs, evaluate] at h
      split at h <;> cases h
    | fraction =>
      rw [hs, evaluate] at h
      split at h <;> cases h
    | broken cause =>
      rw [hs] at h
      cases h
  have hvalue : evaluate (scan c cs).shape (scan c cs).taken = .ok (.stringLit, none) := by
    rw [hshape]
    rfl
  have hspell : Kind.stringLit.spells (scan c cs).taken = true := scan_spells hvalue
  simp only [Kind.spells, beq_iff_eq] at hspell
  exact ⟨_, hspell⟩

end Lexeme

/-- A text that begins and ends with a character of one byte each. -/
def Text.Fenced (w : List Char) : Prop :=
  ∃ a inner b, w = a :: (inner ++ [b]) ∧ a.utf8Size = 1 ∧ b.utf8Size = 1

/-- What stands between the ends of a fenced text is cut out of it by bytes. -/
theorem Text.Fenced.slice? {w : List Char} (h : Fenced w) :
    2 ≤ width w ∧ slice? w ⟨1, width w - 1⟩ = some (w.drop 1).dropLast := by
  obtain ⟨a, inner, b, rfl, ha, hb⟩ := h
  have hwidth : width (a :: (inner ++ [b])) = 1 + width inner + 1 := by
    simp [ha, hb, Nat.add_assoc]
  refine ⟨by omega, ?_⟩
  have hcovers : Span.Covers (a :: (inner ++ [b])) ⟨1, 1 + width inner⟩ inner :=
    ⟨[a], [b], rfl, by simp [ha]⟩
  rw [hwidth, Nat.add_sub_cancel, slice?_eq hcovers]
  simp

namespace Lexer

/-- What is held back, if anything, starts with a character of one byte. -/
def Narrow (l : Lexer) : Prop := ∀ c ∈ l.held.head?, c.utf8Size = 1

namespace Narrow

variable {l : Lexer}

/-- A lexer that holds nothing back has nothing to be narrow. -/
theorem of_nil (h : l.held = []) : l.Narrow := by
  intro c hc
  rw [h] at hc
  cases hc

/-- Whatever a lexeme that fails leaves behind starts with the first one that failed. -/
theorem next (h : l.Narrow) : l.next.2.Narrow := by
  cases hrest : l.rest with
  | nil =>
    rw [next_of_nil hrest]
    exact h
  | cons c cs =>
    have hstep : l.next = l.step c cs := by rw [Lexer.next, hrest]
    rw [hstep, step]
    dsimp only
    -- A lexeme leaves nothing behind; a failure leaves its text, and the first character of it is
    -- that of the first failure.
    split
    · exact of_nil rfl
    · rename_i cause herror
      intro d hd
      cases hheld : l.held with
      | nil =>
        rw [hheld, List.nil_append, Lexeme.scan_taken_eq] at hd
        cases hd
        exact Lexeme.utf8Size_of_error herror
      | cons e es =>
        rw [hheld] at hd
        exact h d (by rw [hheld]; exact hd)

/-- The text of a string is fenced, also if it begins with what failed before. -/
theorem string (h : l.Narrow) {x : Lexeme} (hx : l.next.1 = .ok x) (hkind : x.kind = .stringLit) :
    Fenced x.text := by
  cases hrest : l.rest with
  | nil =>
    rw [next_of_nil hrest] at hx
    cases hx
    cases hkind
  | cons c cs =>
    have hstep : l.next = l.step c cs := by rw [Lexer.next, hrest]
    rw [hstep, step] at hx
    dsimp only at hx
    split at hx
    · rename_i kind value hok
      cases hx
      cases hkind
      obtain ⟨inner, htaken⟩ := Lexeme.scan_string hok
      rw [htaken]
      -- Without a failure before it the string begins with its quotation mark, otherwise with the
      -- first character that failed.
      cases hheld : l.held with
      | nil => exact ⟨'"', inner, '"', rfl, by decide, by decide⟩
      | cons e es =>
        have he : e.utf8Size = 1 := h e (by rw [hheld]; rfl)
        exact ⟨e, es ++ '"' :: inner, '"', by simp, he, by decide⟩
    · cases hx

end Narrow

end Lexer

/-! ## Lexers that count -/

/-- A lexer that keeps no position: the whole text, what is left of it to read, and the number of
bytes from the start of the lexeme in progress to the end of the text. -/
structure Gauge where
  text : List Char
  rest : List Char
  length : Nat
deriving DecidableEq, Repr

namespace Gauge

def at? (text : List Char) (offset : Nat) : Option Gauge := do
  let rest ← dropBytes? offset text
  let length ← size? rest
  some ⟨text, rest, length⟩

/-- How much of the lexeme in progress has been read. -/
def within? (g : Gauge) : Option Nat := do
  let remaining ← size? g.rest
  sub? g.length remaining

/-- The position of the first character not yet read. -/
def offset? (g : Gauge) : Option Nat := do
  let whole ← size? g.text
  let remaining ← size? g.rest
  sub? whole remaining

/-- The range of the lexeme in progress, as far as it has been read. A range that runs backwards is
not made, so every range has a length. -/
def range? (g : Gauge) : Option Span := do
  let stop ← g.offset?
  let length ← g.within?
  let start ← sub? stop length
  if start ≤ stop then some ⟨start, stop⟩ else none

/-- Starts a new lexeme. -/
def reset? (g : Gauge) : Option Gauge := do
  let remaining ← size? g.rest
  some { g with length := remaining }

/-- The next lexeme or error, and the gauge behind it. Only a lexeme starts a new one. -/
def next? (g : Gauge) : Option (Except Fault Lexeme × Gauge) :=
  match g.rest with
  | [] => do
    let position ← g.offset?
    some (.ok (Lexer.endAt position), g)
  | c :: cs => do
    let cut := Lexeme.scan c cs
    let moved : Gauge := { g with rest := cut.rest }
    let span ← moved.range?
    let text ← slice? g.text span
    match Lexeme.evaluate cut.shape text with
    | .ok (kind, value) =>
      let fresh ← moved.reset?
      some (.ok ⟨kind, span, text, value⟩, fresh)
    | .error cause => some (.error ⟨cause, span⟩, moved)

/-- A gauge reads one lexeme off the text. -/
theorem rest_of_next? {g g' : Gauge} {c : Char} {cs : List Char} {result : Except Fault Lexeme}
    (hrest : g.rest = c :: cs) (h : g.next? = some (result, g')) :
    g'.rest = (Lexeme.scan c cs).rest := by
  rw [next?, hrest] at h
  simp only [Option.bind_eq_bind, Option.bind_eq_some_iff] at h
  obtain ⟨span, -, text, -, h⟩ := h
  split at h
  · simp only [reset?, Option.bind_eq_bind, Option.bind_eq_some_iff, Option.some.injEq,
      Prod.mk.injEq] at h
    obtain ⟨-, ⟨-, -, rfl⟩, -, rfl⟩ := h
    rfl
  · cases h
    rfl

/-- A gauge over a text whose size 32 bits hold stands where a lexer stands: the same is left to
read, and the lexeme in progress consists of what the lexer holds back. -/
structure Meters (g : Gauge) (l : Lexer) : Prop where
  small : width g.text < UInt32.size
  stands : Lexer.Stands g.text l
  narrow : l.Narrow
  rest : g.rest = l.rest
  length : g.length = width l.held + width l.rest

/-- The range of a lexeme in progress whose characters so far are `w`. -/
theorem range?_eq {g : Gauge} {front w : List Char} (hsmall : width g.text < UInt32.size)
    (htext : g.text = front ++ w ++ g.rest) (hlength : g.length = width w + width g.rest) :
    g.range? = some ⟨width front, width front + width w⟩ := by
  have hwidth : width g.text = width front + width w + width g.rest := by
    rw [htext, width_append, width_append]
  have hrest : size? g.rest = some (width g.rest) := size?_eq (by omega)
  have hoffset : g.offset? = some (width front + width w) := by
    have hsub : sub? (width g.text) (width g.rest) = some (width front + width w) :=
      sub?_eq (by omega)
    simp only [offset?, size?_eq hsmall, hrest, Option.bind_eq_bind, Option.bind_some, hsub]
  have hwithin : g.within? = some (width w) := by
    have hsub : sub? g.length (width g.rest) = some (width w) := sub?_eq (by omega)
    simp only [within?, hrest, Option.bind_eq_bind, Option.bind_some, hsub]
  have hstart : sub? (width front + width w) (width w) = some (width front) := sub?_eq (by omega)
  simp only [range?, hoffset, hwithin, hstart, Option.bind_eq_bind, Option.bind_some,
    if_pos (Nat.le_add_right (width front) (width w))]

namespace Meters

variable {g : Gauge} {l : Lexer}

/-- A gauge can be set at each offset that a lexer accepts, and stands where it stands. -/
theorem of_at? {text : List Char} {offset : Nat} (hsmall : width text < UInt32.size)
    (h : Lexer.at? text offset = some l) :
    ∃ g, Gauge.at? text offset = some g ∧ g.Meters l ∧ g.text = text := by
  have hstands := Lexer.stands_at h
  obtain ⟨rest, hdrop, rfl⟩ := Option.map_eq_some_iff.1 h
  obtain ⟨front, htext, -⟩ := eq_append_of_dropBytes? hdrop
  have hrest : width rest < UInt32.size := by
    rw [htext, width_append] at hsmall
    omega
  refine ⟨⟨text, rest, width rest⟩, ?_, ⟨hsmall, hstands, .of_nil rfl, rfl, ?_⟩, rfl⟩
  · simp only [Gauge.at?, hdrop, size?_eq hrest, Option.bind_eq_bind, Option.bind_some]
  · rw [width_nil, Nat.zero_add]

/-- A lexer ends where the text of the gauge ends. -/
theorem finish (h : g.Meters l) : l.finish = width g.text := by
  obtain ⟨front, htext, hwidth⟩ := h.stands
  rw [Lexer.finish, Lexer.position, htext, width_append, width_append, hwidth]

/-- The next result is the first that is left, or the end of the text. -/
theorem next_fst (h : g.Meters l) :
    l.next.1 = l.run.head?.getD (.ok (Lexer.endAt (width g.text))) := by
  rw [← h.finish, List.head?_eq_getElem?]
  exact l.nth_eq 0

/-- At the end of the text only the position is needed. -/
theorem next_of_nil (h : g.Meters l) (hrest : l.rest = []) :
    g.next? = some (.ok l.endLexeme, g) := by
  obtain ⟨front, htext, hwidth⟩ := h.stands
  have hg : g.rest = [] := h.rest.trans hrest
  have hposition : sub? (width g.text) 0 = some l.position := by
    apply sub?_eq
    rw [htext, hrest, List.append_nil, width_append, hwidth, Nat.zero_add]
    rfl
  have hempty : size? [] = some 0 := rfl
  have hoffset : g.offset? = some l.position := by
    simp only [offset?, hg, size?_eq h.small, hempty, Option.bind_eq_bind, Option.bind_some,
      hposition]
  rw [next?, hg]
  simp only [hoffset, Option.bind_eq_bind, Option.bind_some]
  rfl

/-- In front of a character the range of the lexeme in progress is computed behind what is taken,
and its text is cut out there. -/
theorem next_of_cons (h : g.Meters l) {c : Char} {cs : List Char} (hrest : l.rest = c :: cs) :
    ∃ g', g.next? = some ((l.step c cs).1, g') ∧ g'.rest = (l.step c cs).2.rest ∧
      g'.length = width (l.step c cs).2.held + width g'.rest ∧ g'.text = g.text := by
  obtain ⟨front, htext, hwidth⟩ := h.stands
  have hcut := Lexeme.scan_append c cs
  -- The lexeme in progress is what was held back and what is taken now.
  have hsplit : g.text =
      front ++ (l.held ++ (Lexeme.scan c cs).taken) ++ (Lexeme.scan c cs).rest := by
    rw [htext, hrest, ← hcut]
    simp
  have hlength : g.length = width (l.held ++ (Lexeme.scan c cs).taken) +
      width (Lexeme.scan c cs).rest := by
    rw [h.length, hrest, ← hcut, width_append, width_append, Nat.add_assoc]
  have hsmall : width (Lexeme.scan c cs).rest < UInt32.size := by
    have hle := congrArg width hsplit
    rw [width_append] at hle
    have := h.small
    omega
  have hrange := range?_eq (g := { g with rest := (Lexeme.scan c cs).rest }) h.small hsplit hlength
  rw [hwidth] at hrange
  have hslice : slice? g.text
      ⟨l.start, l.start + width (l.held ++ (Lexeme.scan c cs).taken)⟩ =
        some (l.held ++ (Lexeme.scan c cs).taken) :=
    slice?_eq ⟨front, _, hsplit, by rw [hwidth]⟩
  rw [next?, h.rest, hrest]
  simp only [hrange, hslice, Option.bind_eq_bind, Option.bind_some, Lexer.step]
  cases Lexeme.evaluate (Lexeme.scan c cs).shape (l.held ++ (Lexeme.scan c cs).taken) with
  | ok result =>
    refine ⟨{ g with rest := (Lexeme.scan c cs).rest, length := width (Lexeme.scan c cs).rest },
      ?_, rfl, ?_, rfl⟩
    · simp only [reset?, size?_eq hsmall, Option.bind_eq_bind, Option.bind_some]
    · exact (Nat.zero_add _).symm
  | error cause => exact ⟨_, rfl, rfl, hlength, rfl⟩

/-- A gauge gives what the lexer gives, and no check fails. -/
theorem next (h : g.Meters l) :
    ∃ g', g.next? = some (l.next.1, g') ∧ g'.Meters l.next.2 ∧ g'.text = g.text := by
  have hstands := h.stands.next.1
  have hnarrow := h.narrow.next
  cases hrest : l.rest with
  | nil =>
    rw [Lexer.next_of_nil hrest]
    exact ⟨g, h.next_of_nil hrest, h, rfl⟩
  | cons c cs =>
    have hstep : l.next = l.step c cs := by rw [Lexer.next, hrest]
    obtain ⟨g', hnext, hrest', hlength, htext⟩ := h.next_of_cons hrest
    rw [hstep] at hstands hnarrow ⊢
    refine ⟨g', hnext, ⟨?_, ?_, hnarrow, hrest', ?_⟩, htext⟩
    · rw [htext]
      exact h.small
    · rw [htext]
      exact hstands
    · rw [hlength, hrest']

end Meters

end Gauge

end Lossless
