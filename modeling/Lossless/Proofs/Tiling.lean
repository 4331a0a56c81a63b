import Lossless.Proofs.Diagnostics
import Lossless.Proofs.Position

/-!
# Runs tile the text

A plain run of a lexer leaves no gap in a text, whether its calls succeed or fail. Two positions say
where a run stands: the cursor, in front of which everything has been read (`Lexer.cursor`), and the
end of the last lexeme that was read (`Lexer.settled`), from which the next range starts. Both can
be told from the results of the run alone, and the lexer keeps them in its two parts
(`Lexer.settled_eq`).

* `Lexer.run_tiles`: each call gives the range from the one position to the new place of the other,
  until the text ends;
* `run_at_offset`: a run from an offset is the run of the text behind the offset, shifted, and the
  same holds for the parse of a class there.
-/

namespace Lossless

open Text

/-- A position at which a character starts or the text ends. -/
def Text.IsBoundary (text : List Char) (p : Nat) : Prop := (dropBytes? p text).isSome = true

/-- The stretch `w` of a text stands where a range says. -/
def Span.Covers (text : List Char) (s : Span) (w : List Char) : Prop :=
  ∃ front back, text = front ++ w ++ back ∧ s = ⟨width front, width front + width w⟩

namespace Lexer

/-- The lexeme at the end of a text that ends at a position. -/
def endAt (position : Nat) : Lexeme := ⟨.endOfInput, .empty position, [], none⟩

/-- The position of the first character not read before call number `n`. -/
def cursor (l : Lexer) (n : Nat) : Nat := (l.skip n).position

/-- The end of the last lexeme read before call number `n`, or the start of the run if there is
none. The end of the text is no lexeme of its own. -/
def settled (l : Lexer) : Nat → Nat
  | 0 => l.start
  | n + 1 =>
    match l.nth n with
    | .ok x => if x.kind = .endOfInput then l.settled n else x.span.stop
    | .error _ => l.settled n

/-! ## One call -/

theorem next_of_nil {l : Lexer} (h : l.rest = []) : l.next = (.ok l.endLexeme, l) := by
  unfold next
  rw [h]

/-- A call in front of the end of the text reads at least one character, and its range goes from
the start of the lexer to the new position. -/
theorem next_of_rest {l : Lexer} (h : l.rest ≠ []) :
    l.position < l.next.2.position ∧ l.next.2.rest.length < l.rest.length ∧
      Lexeme.spanOf l.next.1 = ⟨l.start, l.next.2.position⟩ := by
  rcases l with ⟨start, held, rest⟩
  cases rest with
  | nil => exact absurd rfl h
  | cons c cs =>
    have hnext : next ⟨start, held, c :: cs⟩ = step ⟨start, held, c :: cs⟩ c cs := rfl
    have hposition := step_position ⟨start, held, c :: cs⟩ c cs
    -- A cut takes at least one character.
    have hwidth : 0 < width (Lexeme.scan c cs).taken := by
      apply Nat.pos_of_ne_zero
      intro hzero
      exact Lexeme.scan_taken_ne_nil c cs (width_eq_zero.1 hzero)
    rw [hnext, step_rest]
    refine ⟨by omega, Lexeme.scan_rest_length_lt c cs, ?_⟩
    unfold step position
    dsimp only
    split
    · simp [Lexeme.spanOf]
    · simp [Lexeme.spanOf]

/-- The lexer starts anew behind a lexeme, and an error leaves its start where it was. -/
theorem next_start {l : Lexer} (h : l.rest ≠ []) :
    match l.next.1 with
    | .ok x => x.kind ≠ .endOfInput ∧ l.next.2.start = x.span.stop
    | .error _ => l.next.2.start = l.start := by
  rcases l with ⟨start, held, rest⟩
  cases rest with
  | nil => exact absurd rfl h
  | cons c cs =>
    have hnext : next ⟨start, held, c :: cs⟩ = step ⟨start, held, c :: cs⟩ c cs := rfl
    rw [hnext]
    unfold step
    dsimp only
    cases he : Lexeme.evaluate (Lexeme.scan c cs).shape (held ++ (Lexeme.scan c cs).taken) with
    | ok result => exact ⟨Lexeme.evaluate_ne_end he, rfl⟩
    | error cause => rfl

/-- The text of a lexeme is what stands at its range. -/
theorem Stands.covers {text : List Char} {l : Lexer} {x : Lexeme} (h : Stands text l)
    (hx : l.next.1 = .ok x) : x.span.Covers text x.text := by
  rcases l with ⟨start, held, rest⟩
  rcases h with ⟨front, htext, hwidth⟩
  dsimp only at htext hwidth
  cases rest with
  | nil =>
    -- At the end of the text the range is empty and stands behind what is held back.
    cases hx
    refine ⟨front ++ held, [], ?_, ?_⟩
    · simpa [endLexeme] using htext
    · simp [endLexeme, Span.empty, position, hwidth]
  | cons c cs =>
    have hcut := Lexeme.scan_append c cs
    rw [← hcut] at htext
    simp only [Lexer.next, step] at hx
    split at hx
    · cases hx
      exact ⟨front, (Lexeme.scan c cs).rest, by simpa using htext, by rw [hwidth]⟩
    · cases hx

/-! ## Whole runs -/

/-- At the end of the text a run stands still. -/
theorem skip_of_nil {l : Lexer} {n : Nat} (h : (l.skip n).rest = []) (k : Nat) :
    l.skip (n + k) = l.skip n := by
  induction k with
  | zero => rfl
  | succ k ih =>
    show (l.skip (n + k)).next.2 = l.skip n
    rw [ih, next_of_nil h]

/-- The lexer itself keeps the end of the last lexeme. -/
theorem settled_eq (l : Lexer) (n : Nat) : l.settled n = (l.skip n).start := by
  induction n with
  | zero => rfl
  | succ n ih =>
    show _ = (l.skip n).next.2.start
    rw [settled, nth, ih]
    by_cases hrest : (l.skip n).rest = []
    · rw [next_of_nil hrest]
      exact if_pos rfl
    · have hstart := next_start hrest
      cases hnext : (l.skip n).next.1 with
      | ok x =>
        rw [hnext] at hstart
        rw [hstart.2]
        exact if_neg hstart.1
      | error f =>
        rw [hnext] at hstart
        exact hstart.symm

/-- Each call reads a character or stands at the end, so the text is read after as many calls as it
has characters. -/
theorem skip_rest_length (l : Lexer) (n : Nat) :
    (l.skip n).rest.length ≤ l.rest.length - n := by
  induction n with
  | zero => exact Nat.le_refl _
  | succ n ih =>
    show (l.skip n).next.2.rest.length ≤ l.rest.length - (n + 1)
    by_cases hrest : (l.skip n).rest = []
    · rw [next_of_nil hrest, hrest]
      exact Nat.zero_le _
    · have hlt := (next_of_rest hrest).2.1
      omega

/-- What is left to read stands behind the cursor. -/
theorem Stands.dropBytes?_cursor {text : List Char} {l : Lexer} (h : Stands text l) (n : Nat) :
    dropBytes? (l.cursor n) text = some (l.skip n).rest := by
  rcases h.skip n with ⟨front, htext, hwidth⟩
  rw [htext, cursor, position, ← hwidth, ← width_append, dropBytes?_width_append]

theorem Stands.isBoundary_settled {text : List Char} {l : Lexer} (h : Stands text l) (n : Nat) :
    IsBoundary text (l.settled n) := by
  rcases h.skip n with ⟨front, htext, hwidth⟩
  rw [settled_eq, IsBoundary, htext, ← hwidth, List.append_assoc, dropBytes?_width_append]
  rfl

/-- The cursor is at the end of the text iff nothing is left to read. -/
theorem Stands.cursor_eq_width {text : List Char} {l : Lexer} (h : Stands text l) {n : Nat} :
    l.cursor n = width text ↔ (l.skip n).rest = [] := by
  rcases eq_append_of_dropBytes? (h.dropBytes?_cursor n) with ⟨front, htext, hwidth⟩
  have hsum : width text = l.cursor n + width (l.skip n).rest := by
    rw [← hwidth, ← width_append, ← htext]
  rw [← width_eq_zero]
  omega

/-- A run without an error consists of lexemes up to the end of the text. -/
theorem exists_of_clean {l : Lexer} (h : ∀ n, ∃ x, l.nth n = .ok x) :
    ∃ xs : List Lexeme, l.run = xs.map .ok := by
  have hall : ∀ e ∈ l.run, ∃ x, e = .ok x := by
    intro e he
    rcases List.getElem?_of_mem he with ⟨n, hn⟩
    rcases h n with ⟨x, hx⟩
    rw [nth_eq, hn] at hx
    exact ⟨x, hx⟩
  generalize l.run = run at hall
  induction run with
  | nil => exact ⟨[], rfl⟩
  | cons e run ih =>
    rcases hall e List.mem_cons_self with ⟨x, rfl⟩
    rcases ih fun e he => hall e (List.mem_cons_of_mem _ he) with ⟨xs, rfl⟩
    exact ⟨x :: xs, rfl⟩

/-- At the end of the text all calls give that end. -/
theorem Stands.nth_at_end {text : List Char} {l : Lexer} (h : Stands text l) {n m : Nat}
    (hend : l.cursor n = width text) (hm : n ≤ m) : l.nth m = .ok (endAt (width text)) := by
  have hnil := h.cursor_eq_width.1 hend
  rcases Nat.exists_eq_add_of_le hm with ⟨k, rfl⟩
  rw [Lexer.nth, skip_of_nil hnil k, next_of_nil hnil, ← hend]
  rfl

/-- Before the end of the text a call moves the cursor, and what it gives goes from the end of the
last lexeme to the new cursor. -/
theorem Stands.nth_before_end {text : List Char} {l : Lexer} (h : Stands text l) {n : Nat}
    (hend : l.cursor n ≠ width text) :
    l.cursor n < l.cursor (n + 1) ∧
      Lexeme.spanOf (l.nth n) = ⟨l.settled n, l.cursor (n + 1)⟩ ∧
      ∀ x, l.nth n = .ok x → x.kind ≠ .endOfInput ∧ x.span.Covers text x.text := by
  have hne : (l.skip n).rest ≠ [] := by
    intro hnil
    exact hend (h.cursor_eq_width.2 hnil)
  rcases next_of_rest hne with ⟨hlt, -, hspan⟩
  refine ⟨hlt, ?_, ?_⟩
  · rw [settled_eq]
    exact hspan
  · intro x hx
    have hstart := next_start hne
    rw [show (l.skip n).next.1 = .ok x from hx] at hstart
    exact ⟨hstart.1, (h.skip n).covers hx⟩

/-- The lexemes of a run without an error make up the text. -/
theorem flatMap_text_of_run {p : Nat} {cs : List Char} {xs : List Lexeme}
    (h : (fresh p cs).run = xs.map .ok) : xs.flatMap Lexeme.text = cs := by
  rw [← List.append_nil (xs.map _)] at h
  rcases Reads.of_run h with ⟨r, hreads, hnil⟩
  have htext := hreads.text_eq
  cases r with
  | nil =>
    rw [List.append_nil] at htext
    exact htext.symm
  | cons c r =>
    rw [run_of_cons (l := fresh _ (c :: r)) rfl] at hnil
    cases hnil

/-- A run from an offset tiles the text behind the offset. Before the end of the text, each call
moves the cursor on and gives a range from the end of the last lexeme to the new cursor, as a lexeme
or as an error. At the end of the text all calls give that end. The end is reached after at most as
many calls as there are characters, and if there is no error on the way, the lexemes make up the
text. -/
theorem run_tiles {text : List Char} {offset : Nat} {l : Lexer} (h : at? text offset = some l) :
    (∀ n,
      dropBytes? (l.cursor n) text = some (l.skip n).rest ∧ IsBoundary text (l.settled n) ∧
      (l.cursor n = width text → ∀ m, n ≤ m → l.nth m = .ok (endAt (width text))) ∧
      (l.cursor n ≠ width text →
        l.cursor n < l.cursor (n + 1) ∧
        Lexeme.spanOf (l.nth n) = ⟨l.settled n, l.cursor (n + 1)⟩ ∧
        ∀ x, l.nth n = .ok x → x.kind ≠ .endOfInput ∧ x.span.Covers text x.text)) ∧
    l.settled 0 = offset ∧ l.cursor 0 = offset ∧ dropBytes? offset text = some l.rest ∧
    (∃ n ≤ l.rest.length, l.cursor n = width text) ∧
    ((∀ n, ∃ x, l.nth n = .ok x) →
      ∃ xs : List Lexeme, (∀ i, l.nth i = .ok (xs[i]?.getD (endAt (width text)))) ∧
        (∀ x ∈ xs, x.kind ≠ .endOfInput) ∧ xs.flatMap Lexeme.text = l.rest) := by
  have hstands := stands_at h
  rcases Option.map_eq_some_iff.1 h with ⟨rest, hrest, rfl⟩
  refine ⟨?_, rfl, rfl, hrest, ?_, ?_⟩
  · intro n
    exact ⟨hstands.dropBytes?_cursor n, hstands.isBoundary_settled n,
      fun hend _ hm => hstands.nth_at_end hend hm, hstands.nth_before_end⟩
  · -- Each call takes a character, so the characters are used up by then.
    refine ⟨rest.length, Nat.le_refl _, hstands.cursor_eq_width.2 ?_⟩
    have hlen : (skip ⟨offset, [], rest⟩ rest.length).rest.length ≤ rest.length - rest.length :=
      skip_rest_length ⟨offset, [], rest⟩ rest.length
    exact List.length_eq_zero_iff.1 (by omega)
  · intro hclean
    rcases exists_of_clean hclean with ⟨xs, hxs⟩
    -- The lexer ends where the text does, wherever it has started.
    have hfinish : finish ⟨offset, [], rest⟩ = width text := by
      rcases hstands with ⟨front, htext, hwidth⟩
      rw [finish, position, htext, ← hwidth]
      simp
    refine ⟨xs, ?_, ?_, flatMap_text_of_run hxs⟩
    · intro i
      rw [nth_eq, hxs, hfinish, List.getElem?_map]
      cases xs[i]? <;> rfl
    · intro x hx
      exact noEnd_run _ x (by rw [hxs]; exact List.mem_map_of_mem hx)

/-- A number with two points behind a character of two bytes fails, and the next lexeme starts where
the failed one did. -/
theorem run_tiles_pastError :
    ∃ l, at? "é 1.2.3;".toList 3 = some l ∧
      l.cursor 1 ≠ width "é 1.2.3;".toList ∧
      Lexeme.spanOf (l.nth 1) = ⟨l.settled 1, l.cursor 2⟩ ∧
      (l.settled 1, l.cursor 1, l.cursor 2) = (3, 7, 8) := by
  have hat : at? "é 1.2.3;".toList 3 = some (fresh 3 "1.2.3;".toList) := by decide +kernel
  have hne : (fresh 3 "1.2.3;".toList).cursor 1 ≠ width "é 1.2.3;".toList := by decide +kernel
  refine ⟨_, hat, hne, ?_, by decide +kernel⟩
  exact (((run_tiles hat).1 1).2.2.2 hne).2.1

/-! ## Runs from an offset -/

/-- A lexer that starts `n` bytes further on reads the same, `n` bytes further on. -/
theorem next_shift (n : Nat) (l : Lexer) :
    (l.shift n).next = (Lexeme.shiftRead n l.next.1, l.next.2.shift n) := by
  rcases l with ⟨start, held, rest⟩
  cases rest with
  | nil =>
    simp only [next, shift, endLexeme, position, Lexeme.shiftRead, Lexeme.shift, Span.empty,
      Span.shift, Nat.add_right_comm]
  | cons c cs => exact step_shift n ⟨start, held, c :: cs⟩ c cs

theorem skip_shift (n : Nat) (l : Lexer) (i : Nat) : (l.shift n).skip i = (l.skip i).shift n := by
  induction i with
  | zero => rfl
  | succ i ih =>
    show ((l.shift n).skip i).next.2 = (l.skip i).next.2.shift n
    rw [ih, next_shift]

/-- A shifted lexer gives the same results, shifted. -/
theorem nth_shift (n : Nat) (l : Lexer) (i : Nat) :
    (l.shift n).nth i = Lexeme.shiftRead n (l.nth i) := by
  rw [nth, skip_shift, next_shift, nth]

end Lexer

theorem Span.Covers.shift {text w : List Char} {s : Span} (h : s.Covers text w)
    (front : List Char) : (s.shift (width front)).Covers (front ++ text) w := by
  rcases h with ⟨before, after, rfl, rfl⟩
  refine ⟨front ++ before, after, by simp, ?_⟩
  simp only [Span.shift_add, width_append]

/-- Offsets only shift positions. A place between two characters of a text cuts it in two; the run
of a lexer from there is the run of the second part with all ranges shifted, where the same pieces
of text stand, and a class that is parsed there is the one at the beginning of the second part, or
fails with the same error, shifted. -/
theorem run_at_offset (front rest : String) :
    (∃ l, Lexer.at? (front ++ rest).toList (width front.toList) = some l ∧
      ∀ n, l.nth n = Lexeme.shiftRead (width front.toList) ((Lexer.new rest.toList).nth n)) ∧
    (∀ n x, (Lexer.new rest.toList).nth n = .ok x →
      x.span.Covers rest.toList x.text ∧
        (x.span.shift (width front.toList)).Covers (front ++ rest).toList x.text) ∧
    parseDeclarationAt (front ++ rest) (width front.toList) =
      match parseDeclarationAt rest 0 with
      | .ok node => .ok node
      | .error e => .error (e.shift (width front.toList)) := by
  -- A lexer at the cut is one at the beginning of the second part, shifted.
  have hshift : Lexer.fresh (width front.toList) rest.toList =
      (Lexer.new rest.toList).shift (width front.toList) := by
    simp [Lexer.fresh, Lexer.new, Lexer.shift]
  have htext : (front ++ rest).toList = front.toList ++ rest.toList := String.toList_append ..
  refine ⟨⟨Lexer.fresh (width front.toList) rest.toList, ?_, ?_⟩, ?_, ?_⟩
  · rw [htext, Lexer.at?, dropBytes?_width_append]
    rfl
  · intro n
    rw [hshift, Lexer.nth_shift]
  · intro n x hx
    have hcovers := ((Lexer.stands_new rest.toList).skip n).covers hx
    rw [htext]
    exact ⟨hcovers, hcovers.shift front.toList⟩
  · have hzero : parseDeclarationAt rest 0 =
        (Grammar.parse .classDecl rfl (Stream.ofLexer (Lexer.new rest.toList))).result :=
      parseDeclarationAt_width (List.nil_append rest.toList).symm
    have hparse := @Grammar.parse_shift .classDecl rfl (width front.toList)
      (Stream.ofLexer (Lexer.new rest.toList))
    rw [parseDeclarationAt_width htext, hshift, Stream.ofLexer_shift, hzero]
    exact hparse

end Lossless
