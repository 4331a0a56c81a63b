/-!
# Byte positions in a text

A text is read as a list of characters, while every position that is reported counts the bytes of
its UTF-8 form. This module measures texts in bytes, cuts them at a byte offset and searches them.
An offset that falls inside a character, or past the end, cuts nothing.
-/

namespace Lossless

/-- A half-open range of byte positions. -/
structure Span where
  start : Nat
  stop : Nat
deriving DecidableEq, Repr, Inhabited

namespace Span

def empty (at_ : Nat) : Span := ⟨at_, at_⟩

def length (s : Span) : Nat := s.stop - s.start

/-- A range is shown as its two ends with two points between them. -/
def display (s : Span) : String := s!"{s.start}..{s.stop}"

end Span

namespace Text

/-- The number of bytes of a text. -/
def width : List Char → Nat
  | [] => 0
  | c :: cs => c.utf8Size + width cs

@[simp] theorem width_nil : width [] = 0 := rfl

@[simp] theorem width_cons (c : Char) (cs : List Char) :
    width (c :: cs) = c.utf8Size + width cs := rfl

@[simp] theorem width_append (a b : List Char) : width (a ++ b) = width a + width b := by
  induction a with
  | nil => simp
  | cons c cs ih => simp [ih, Nat.add_assoc]

/-- Every character takes at least one byte. -/
theorem length_le_width (cs : List Char) : cs.length ≤ width cs := by
  induction cs with
  | nil => simp
  | cons c cs ih =>
    have := c.utf8Size_pos
    simp only [List.length_cons, width_cons]
    omega

theorem width_eq_zero {cs : List Char} : width cs = 0 ↔ cs = [] := by
  constructor
  · intro h
    have := length_le_width cs
    exact List.length_eq_zero_iff.1 (by omega)
  · rintro rfl
    rfl

/-- The width of a string's characters is its size in bytes. -/
theorem width_toList (s : String) : width s.toList = s.utf8ByteSize := by
  have key : ∀ cs : List Char, width cs = (String.ofList cs).utf8ByteSize := by
    intro cs
    induction cs with
    | nil => simp
    | cons c cs ih =>
      -- A text of one character more is that character in front of the shorter text.
      have hcons : String.ofList (c :: cs) = String.singleton c ++ String.ofList cs := by simp
      rw [hcons, String.utf8ByteSize_append, String.utf8ByteSize_singleton, width_cons, ih]
  rw [key, String.ofList_toList]

/-- What follows the first `n` bytes of a text, if a character ends there. -/
def dropBytes? : Nat → List Char → Option (List Char)
  | 0, cs => some cs
  | _ + 1, [] => none
  | n + 1, c :: cs =>
    if c.utf8Size ≤ n + 1 then dropBytes? (n + 1 - c.utf8Size) cs else none

@[simp] theorem dropBytes?_zero (cs : List Char) : dropBytes? 0 cs = some cs := by
  cases cs <;> rfl

/-- Cutting behind a known beginning leaves the rest. -/
theorem dropBytes?_width_append (a b : List Char) : dropBytes? (width a) (a ++ b) = some b := by
  induction a with
  | nil => simp
  | cons c cs ih =>
    have hpos := c.utf8Size_pos
    obtain ⟨n, hn⟩ : ∃ n, c.utf8Size + width cs = n + 1 := ⟨c.utf8Size + width cs - 1, by omega⟩
    have hle : c.utf8Size ≤ n + 1 := by omega
    have hrest : n + 1 - c.utf8Size = width cs := by omega
    simp only [List.cons_append, width_cons, hn, dropBytes?, hle, if_true, hrest, ih]

/-- A cut splits the text, and the part in front has the given width. -/
theorem eq_append_of_dropBytes? {n : Nat} {cs rest : List Char} (h : dropBytes? n cs = some rest) :
    ∃ front, cs = front ++ rest ∧ width front = n := by
  induction cs generalizing n with
  | nil =>
    cases n with
    | zero => exact ⟨[], by simpa using h, rfl⟩
    | succ n => simp [dropBytes?] at h
  | cons c cs ih =>
    cases n with
    | zero => exact ⟨[], by simpa using h, rfl⟩
    | succ n =>
      simp only [dropBytes?] at h
      split at h
      · rename_i hle
        obtain ⟨front, hcs, hw⟩ := ih h
        exact ⟨c :: front, by simp [hcs], by simp [hw]; omega⟩
      · cases h

/-- The offset at which a sought text first occurs. The empty text occurs at once. -/
def offsetOf? (sought : List Char) : List Char → Option Nat
  | [] => if sought.isEmpty then some 0 else none
  | c :: cs =>
    if sought.isPrefixOf (c :: cs) then some 0
    else (offsetOf? sought cs).map (c.utf8Size + ·)

/-- Where a sought text is found, it stands. -/
theorem eq_append_of_offsetOf? {sought cs : List Char} {n : Nat}
    (h : offsetOf? sought cs = some n) :
    ∃ front rest, cs = front ++ sought ++ rest ∧ width front = n := by
  induction cs generalizing n with
  | nil =>
    simp only [offsetOf?] at h
    split at h
    · rename_i he
      exact ⟨[], [], by simpa using he, by simpa using h⟩
    · cases h
  | cons c cs ih =>
    simp only [offsetOf?] at h
    split at h
    · rename_i hp
      obtain ⟨rest, hrest⟩ := List.isPrefixOf_iff_prefix.1 hp
      exact ⟨[], rest, by simp [hrest], by simpa using h⟩
    · obtain ⟨m, hm, rfl⟩ := Option.map_eq_some_iff.1 h
      obtain ⟨front, rest, hcs, hw⟩ := ih hm
      exact ⟨c :: front, rest, by simp [hcs], by simp [hw]⟩

end Text

end Lossless
