import Lossless.Proofs.Tiling

/-!
# The longest lexeme

A lexer that holds nothing back cuts a lexeme off the text in front of it as if nothing else were
there: the text of the lexeme, read by itself, is the same lexeme and nothing more. It also cuts off
as much as it can: no longer beginning of the text is a single lexeme by itself. Both follow from
the one character behind a lexeme on which a cut depends (`Lexeme.scan_lookahead`), since that
character is missing in the one case and still there in the other.
-/

namespace Lossless

open Text Lexeme

namespace Lexer

/-- The lexer is at the start of a lexeme of a text: where a run begins, or behind a lexeme that the
run has read, maybe after errors. -/
inductive AtStart (text : List Char) : Lexer → Prop where
  | begins {offset : Nat} {l : Lexer} (found : at? text offset = some l) : AtStart text l
  | behind {offset n : Nat} {l : Lexer} {x : Lexeme} (found : at? text offset = some l)
      (read : l.nth n = .ok x) : AtStart text (l.skip (n + 1))

/-- Read by itself, a text is one lexeme, and behind it the text ends. -/
def ReadAlone (text : List Char) (x : Lexeme) : Prop :=
  (new text).nth 0 = .ok x ∧ x.kind ≠ .endOfInput ∧
    (new text).nth 1 = .ok (endAt (width text))

/-! ## Lexers that hold nothing back -/

/-- Behind a lexeme nothing is held back, unless the text is at its end. -/
theorem held_of_read {l : Lexer} {x : Lexeme} (read : l.next.1 = .ok x)
    (more : l.next.2.rest ≠ []) : l.next.2.held = [] := by
  rcases l with ⟨start, held, rest⟩
  cases rest with
  | nil => exact absurd rfl more
  | cons c cs =>
    have hnext : next ⟨start, held, c :: cs⟩ = step ⟨start, held, c :: cs⟩ c cs := rfl
    rw [hnext] at read ⊢
    unfold step at read ⊢
    dsimp only at read ⊢
    split at read
    · rfl
    · cases read

/-- A run from the beginning of a text comes to the start of a lexeme behind each one it reads. -/
theorem AtStart.of_new {text : List Char} {n : Nat} {x : Lexeme}
    (read : (new text).nth n = .ok x) : AtStart text ((new text).skip (n + 1)) := by
  have found : at? text 0 = some (new text) := by
    rw [at?, dropBytes?_zero]
    rfl
  exact .behind found read

theorem AtStart.stands {text : List Char} {l : Lexer} (h : AtStart text l) : Stands text l := by
  cases h with
  | begins found => exact stands_at found
  | behind found read => exact (stands_at found).skip _

/-- At the start of a lexeme, a lexer is known by its position and the text in front of it. -/
theorem AtStart.eq_fresh {text : List Char} {l : Lexer} (h : AtStart text l) (more : l.rest ≠ []) :
    l = fresh l.start l.rest := by
  have hheld : l.held = [] := by
    cases h with
    | begins found =>
      rcases Option.map_eq_some_iff.1 found with ⟨rest, -, rfl⟩
      rfl
    | behind found read => exact held_of_read read more
  rcases l with ⟨start, held, rest⟩
  cases hheld
  rfl

/-- What stands in front of the lexer stands in the text at its position. -/
theorem AtStart.covers {text : List Char} {l : Lexer} (h : AtStart text l) {w tail : List Char}
    (hrest : l.rest = w ++ tail) (hw : w ≠ []) :
    Span.Covers text ⟨l.start, l.start + width w⟩ w := by
  have hne : l.rest ≠ [] := by
    rw [hrest]
    exact List.append_ne_nil_of_left_ne_nil hw tail
  obtain ⟨front, htext, hwidth⟩ := h.stands
  rw [h.eq_fresh hne] at htext
  refine ⟨front, tail, ?_, by rw [hwidth]⟩
  rw [htext, hrest]
  simp [fresh]

/-- A lexer that holds nothing back gives a lexeme where it stands and starts afresh behind it. -/
theorem next_fresh_of_ok {p : Nat} {c : Char} {cs : List Char} {kind : Kind}
    {value : Option Number}
    (read : evaluate (scan c cs).shape (scan c cs).taken = .ok (kind, value)) :
    (fresh p (c :: cs)).next =
      (.ok ⟨kind, ⟨p, p + width (scan c cs).taken⟩, (scan c cs).taken, value⟩,
        fresh (p + width (scan c cs).taken) (scan c cs).rest) := by
  simp only [next, step, fresh, List.nil_append, read]

/-- An error leaves what was cut off held back, at the position where it began. -/
theorem next_fresh_of_error {p : Nat} {c : Char} {cs : List Char} {cause : LexicalCause}
    (failed : evaluate (scan c cs).shape (scan c cs).taken = .error cause) :
    (fresh p (c :: cs)).next =
      (.error ⟨cause, ⟨p, p + width (scan c cs).taken⟩⟩,
        ⟨p, (scan c cs).taken, (scan c cs).rest⟩) := by
  simp only [next, step, fresh, List.nil_append, failed]

/-! ## Texts read by themselves -/

/-- A text that is cut off whole is a lexeme by itself. -/
theorem readAlone_of_scan {c : Char} {cs : List Char} {shape : Shape} {kind : Kind}
    {value : Option Number} (hscan : scan c cs = ⟨shape, c :: cs, []⟩)
    (read : evaluate shape (c :: cs) = .ok (kind, value)) :
    ReadAlone (c :: cs) ⟨kind, ⟨0, width (c :: cs)⟩, c :: cs, value⟩ := by
  have hread : evaluate (scan c cs).shape (scan c cs).taken = .ok (kind, value) := by
    rw [hscan]
    exact read
  have hnext := next_fresh_of_ok (p := 0) hread
  rw [hscan, Nat.zero_add] at hnext
  refine ⟨congrArg Prod.fst hnext, evaluate_ne_end hread, ?_⟩
  show (fresh 0 (c :: cs)).next.2.next.1 = _
  rw [hnext]
  rfl

/-- If a text by itself is one lexeme, the first cut leaves nothing of it. -/
theorem ReadAlone.rest_eq_nil {c : Char} {cs : List Char} {x : Lexeme}
    (h : ReadAlone (c :: cs) x) : (scan c cs).rest = [] := by
  obtain ⟨-, -, hend⟩ := h
  have hrest : (new (c :: cs)).next.2.rest = (scan c cs).rest := step_rest _ c cs
  cases hcut : (scan c cs).rest with
  | nil => rfl
  | cons d r =>
    have hne : (new (c :: cs)).next.2.rest ≠ [] := by
      rw [hrest, hcut]
      exact List.cons_ne_nil d r
    have hstart := next_start hne
    rw [show (new (c :: cs)).next.2.next.1 = .ok (endAt (width (c :: cs))) from hend] at hstart
    exact absurd rfl hstart.1

/-- A beginning of a text that is longer than the first lexeme is cut behind that lexeme, so it is
no lexeme by itself. -/
theorem not_readAlone_of_longer {c : Char} {cs w : List Char} {y : Lexeme} (hw : w <+: c :: cs)
    (hlong : (scan c cs).taken.length < w.length) : ¬ReadAlone w y := by
  intro h
  have htext := scan_append c cs
  have htaken : (scan c cs).taken <+: w := by
    apply List.prefix_of_prefix_length_le _ hw (Nat.le_of_lt hlong)
    rw [← htext]
    exact List.prefix_append _ _
  obtain ⟨r, rfl⟩ := htaken
  -- The character behind the lexeme is the first of `r` as well.
  have hfollows : Follows (scan c cs).rest r := by
    rw [← htext] at hw
    obtain ⟨s, hs⟩ := (List.prefix_append_right_inj _).1 hw
    rw [← hs]
    cases r with
    | nil => exact Follows.nil _
    | cons d r => exact Follows.cons d _ _
  have hcut := scan_lookahead hfollows
  rw [scan_taken_eq c cs, List.cons_append] at h
  have hnil := h.rest_eq_nil
  rw [hcut] at hnil
  rw [show r = [] from hnil, List.append_nil] at hlong
  exact Nat.lt_irrefl _ hlong

/-- At the start of a lexeme, with something left to read, a lexeme that is read is the beginning of
the text in front of the lexer. Its text, read by itself, is the same lexeme and nothing more, and
no longer beginning of the text in front of the lexer is a single lexeme by itself. -/
theorem lexeme_longest {text : List Char} {l : Lexer} {x : Lexeme} (start : AtStart text l)
    (more : l.rest ≠ []) (read : l.next.1 = .ok x) :
    l.rest = x.text ++ l.next.2.rest ∧
      ReadAlone x.text ⟨x.kind, ⟨0, width x.text⟩, x.text, x.value⟩ ∧
      ∀ w y, w <+: l.rest → x.text.length < w.length → ¬ReadAlone w y := by
  rw [start.eq_fresh more] at read ⊢
  generalize l.start = p at read
  cases hrest : l.rest with
  | nil => exact absurd hrest more
  | cons c cs =>
    rw [hrest] at read
    cases heval : evaluate (scan c cs).shape (scan c cs).taken with
    | error cause =>
      rw [next_fresh_of_error heval] at read
      cases read
    | ok result =>
      rcases result with ⟨kind, value⟩
      have hnext := next_fresh_of_ok (p := p) heval
      rw [hnext] at read ⊢
      cases read
      refine ⟨(scan_append c cs).symm, ?_, fun w y hw hlong => not_readAlone_of_longer hw hlong⟩
      -- With nothing behind it, the text of the lexeme is cut off whole.
      have hcut := scan_lookahead (Follows.nil (scan c cs).rest)
      have htaken := scan_taken_eq c cs
      rw [List.append_nil] at hcut
      rw [htaken] at heval hcut ⊢
      exact readAlone_of_scan hcut heval

/-- A number with two points and a word with quotation marks, a sign and a slash in it. -/
def brokenStart : List Char := "1.2.; a+b\"c/d\"=>".toList

/-- Behind the error and two lexemes, the word ends only at the equals sign. -/
theorem lexeme_longest_word :
    ∃ l x, AtStart brokenStart l ∧ l.rest = "a+b\"c/d\"=>".toList ∧ l.next.1 = .ok x ∧
      x.kind = .ident ∧ x.text = "a+b\"c/d\"".toList ∧
      ReadAlone x.text ⟨x.kind, ⟨0, width x.text⟩, x.text, x.value⟩ ∧
      ∀ w y, w <+: l.rest → x.text.length < w.length → ¬ReadAlone w y := by
  have hread : (new brokenStart).nth 2 = .ok ⟨.whitespace, ⟨5, 6⟩, [' '], none⟩ := rfl
  have hrest : ((new brokenStart).skip 3).rest = "a+b\"c/d\"=>".toList := rfl
  have hnext : ((new brokenStart).skip 3).next.1 =
      .ok ⟨.ident, ⟨6, 14⟩, "a+b\"c/d\"".toList, none⟩ := rfl
  have hmore : ((new brokenStart).skip 3).rest ≠ [] := by
    rw [hrest]
    decide
  have hstart := AtStart.of_new hread
  obtain ⟨-, halone, hlongest⟩ := lexeme_longest hstart hmore hnext
  exact ⟨_, _, hstart, hrest, hnext, rfl, rfl, halone, hlongest⟩

end Lexer

end Lossless
