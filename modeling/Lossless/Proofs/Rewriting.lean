import Lossless.Proofs.Locality
import Lossless.Proofs.Position
import Lossless.Proofs.Replacement
import Lossless.Proofs.Spelling
import Lossless.Session

/-!
# Annotations that are rewritten

An annotation is a comment text such as `0x1A2B`. The lexer reads it as a number and a word, and the
grammar joins them again. So an annotation can be written over any comment text of a parsed tree:
the text of the changed tree has the same terminals up to the slashes, since slashes do not depend
on what follows them (`Yielding.slashes`), then those of the annotation with the old blanks behind
them (`Yields.exists_annotated`), and then the same terminals again, in another place. By
`Parses.followed` the parse of this text gives the changed tree (`parseUnit_of_setText`).
-/

namespace Lossless

open Lexeme Text Lexer

/-! ## Blanks in another place -/

/-- A blank lexeme is cut off in front of any text that begins with no blank. -/
theorem Lexeme.scan_blank {kind : Kind} {c : Char} {w m : List Char}
    (hspell : kind.spells (c :: w) = true) (hblank : kind.isBlank = true)
    (hm : startsBlank m = false) : scan c (w ++ m) = ⟨.plain kind, c :: w, m⟩ := by
  -- A run of one character ends where another character begins.
  have hrun : ∀ d : Char, (∀ m', startsBlank (d :: m') = true) → w.all (· == d) = true →
      (w ++ m).takeWhile (· == d) = w ∧ (w ++ m).dropWhile (· == d) = m := by
    intro d hd hw
    have hw' : ∀ e ∈ w, (e == d) = true := List.all_eq_true.1 hw
    have hm' : m.takeWhile (· == d) = [] ∧ m.dropWhile (· == d) = m := by
      cases m with
      | nil => exact ⟨rfl, rfl⟩
      | cons e m =>
        have he : e ≠ d := by
          rintro rfl
          rw [hd] at hm
          cases hm
        simp [he]
    rw [List.takeWhile_append_of_pos hw', List.dropWhile_append_of_pos hw', hm'.1, hm'.2]
    simp
  cases kind with
  | whitespace =>
    obtain ⟨hc, hw⟩ := Bool.and_eq_true_iff.1 hspell
    have hc' := eq_of_beq hc
    subst hc'
    obtain ⟨htake, hdrop⟩ := hrun ' ' (fun _ => rfl) hw
    simp [scan, cutRun, htake, hdrop]
  | tab =>
    obtain ⟨hc, hw⟩ := Bool.and_eq_true_iff.1 hspell
    have hc' := eq_of_beq hc
    subst hc'
    obtain ⟨htake, hdrop⟩ := hrun '\t' (fun _ => rfl) hw
    simp [scan, cutRun, htake, hdrop]
  | newline =>
    simp only [Kind.spells, Bool.or_eq_true, beq_iff_eq] at hspell
    rcases hspell with hw | hw
    · cases hw
      exact Spacing.scan_line m
    · cases hw
      rfl
  | _ => cases hblank

/-- Only a plain cut is evaluated to a blank lexeme: numbers, words and strings never are. -/
theorem Lexeme.shape_of_blank {shape : Shape} {text : List Char} {kind : Kind}
    {value : Option Number} (h : evaluate shape text = .ok (kind, value))
    (hblank : kind.isBlank = true) : shape = .plain kind := by
  unfold evaluate at h
  split at h
  · cases h
    rfl
  · split at h
    · cases h
      cases hblank
    · cases h
  · split at h
    · cases h
      cases hblank
    · cases h
  · cases h

/-- A blank character ends a word. -/
theorem Lexeme.isBoundary_of_blank {kind : Kind} {c : Char} {w : List Char}
    (hspell : kind.spells (c :: w) = true) (hblank : kind.isBlank = true) :
    isBoundary c = true := by
  -- The blanks of each kind are few, and all of them end a word.
  cases kind with
  | whitespace =>
    have hc := eq_of_beq (Bool.and_eq_true_iff.1 hspell).1
    rw [hc]
    decide
  | tab =>
    have hc := eq_of_beq (Bool.and_eq_true_iff.1 hspell).1
    rw [hc]
    decide
  | newline =>
    simp only [Kind.spells, Bool.or_eq_true, beq_iff_eq] at hspell
    rcases hspell with hw | hw
    · cases hw
      decide
    · cases hw
      decide
  | _ => cases hblank

namespace Reads

/-- A reading of two runs of lexemes is a reading of each, the second where the first ends. -/
theorem split {p : Nat} {cs r : List Char} {xs ys : List Lexeme} (h : Reads p cs (xs ++ ys) r) :
    ∃ m, Reads p cs xs m ∧ Reads (p + width (textOf xs)) m ys r := by
  induction xs generalizing p cs with
  | nil => exact ⟨cs, .nil, h⟩
  | cons x xs ih =>
    cases h with
    | cons read more =>
      obtain ⟨m, h₁, h₂⟩ := ih more
      refine ⟨m, .cons read h₁, ?_⟩
      rw [textOf_cons, width_append, ← Nat.add_assoc]
      exact h₂

/-- Blanks are read as the same trivia in another place and in front of another text, as long as it
begins with no blank. -/
theorem exists_moved {p : Nat} {cs r : List Char} {xs : List Lexeme} (h : Reads p cs xs r)
    (hb : AllBlank xs) {r' : List Char} (hr : isSharp r' = true) (q : Nat) :
    ∃ ys, Reads q (textOf xs ++ r') ys r' ∧ AllBlank ys ∧ piecesOf ys = piecesOf xs := by
  induction h generalizing q with
  | nil => exact ⟨[], .nil, .nil, rfl⟩
  | @cons p c cs r kind value xs read more ih =>
    have hblank : kind.isBlank = true := hb _ List.mem_cons_self
    obtain ⟨ys, hys, hall, hpieces⟩ :=
      ih (fun y hy => hb y (List.mem_cons_of_mem _ hy)) (q + width (scan c cs).taken)
    -- Behind the lexeme comes the next blank as before, or else the new text.
    have hscan : scan c ((scan c cs).taken.tail ++ (textOf xs ++ r')) =
        ⟨(scan c cs).shape, (scan c cs).taken, textOf xs ++ r'⟩ := by
      cases xs with
      | nil =>
        have hspell := scan_spells read
        rw [scan_taken_eq] at hspell
        rw [shape_of_blank read hblank, scan_taken_eq c cs]
        exact scan_blank hspell hblank (not_startsBlank_of_sharp hr)
      | cons y ys =>
        apply scan_lookahead
        rw [more.text_eq]
        have hne := more.text_ne_nil y List.mem_cons_self
        cases hy : y.text with
        | nil => exact absurd hy hne
        | cons d w =>
          rw [textOf_cons, hy]
          exact .cons d _ _
    have htext : (scan c cs).taken ++ (textOf xs ++ r') =
        c :: ((scan c cs).taken.tail ++ (textOf xs ++ r')) := by
      rw [← List.cons_append, ← scan_taken_eq]
    rw [textOf_cons, List.append_assoc, htext]
    refine ⟨_, .cons_of_scan hscan read hys, .cons hblank hall, ?_⟩
    have hpiece : ∀ n, piece? ⟨kind, ⟨n, n + width (scan c cs).taken⟩, (scan c cs).taken, value⟩ =
        piece? ⟨kind, ⟨p, p + width (scan c cs).taken⟩, (scan c cs).taken, value⟩ := by
      intro n
      simp [piece?, Span.length]
    simp only [piecesOf] at hpieces ⊢
    rw [List.filterMap_cons, List.filterMap_cons, hpiece q, hpieces]

end Reads

/-! ## Slashes -/

/-- Two slashes are the only lexeme of their kind. -/
theorem Lexeme.scan_of_slashes {c : Char} {cs : List Char} {value : Option Number}
    (h : evaluate (scan c cs).shape (scan c cs).taken = .ok (.doubleSlash, value)) :
    c = '/' ∧ (scan c cs).taken = ['/', '/'] ∧ value = none := by
  have hs := (scan_of_kind h (by decide)).2
  rw [hs] at h ⊢
  -- The kind is given to one pair of characters only, and to no single character or word.
  unfold cutOther at h ⊢
  split at h
  · rename_i kind hk
    cases h
    cases cs with
    | nil => cases hk
    | cons d cs =>
      have hpair : pair? c d = some .doubleSlash := hk
      unfold pair? at hpair
      split at hpair
      all_goals cases hpair
      exact ⟨rfl, rfl, rfl⟩
  · split at h
    · rename_i kind hk
      cases h
      unfold single? at hk
      split at hk <;> cases hk
    · cases h

namespace Yields

/-- The blanks behind a terminal. -/
theorem exists_trailing {p : Nat} {cs r : List Char} {t : Terminal} (h : Yields p cs t r) :
    ∃ q m xs, Reads q m xs r ∧ AllBlank xs ∧ t.token.trailing = ⟨piecesOf xs⟩ := by
  obtain ⟨reads, front, core, back, sharp⟩ := h
  rename_i before after x
  obtain ⟨m, -, hreads⟩ := reads.split
  cases hreads with
  | cons read more => exact ⟨_, _, after, more, back, rfl⟩

theorem sharp {p : Nat} {cs r : List Char} {t : Terminal} (h : Yields p cs t r) :
    isSharp r = true := by
  obtain ⟨_, _, _, _, sharp⟩ := h
  exact sharp

/-- Slashes do not depend on what is behind the blanks that follow them. -/
theorem slashes {p : Nat} {cs r r' : List Char} {d : Terminal} (h : Yields p cs d r)
    (hk : d.token.kind = .doubleSlash) (hr : isSharp r' = true) :
    Yields p (d.token.chars ++ r') d r' := by
  obtain ⟨reads, front, core, back, sharp⟩ := h
  rename_i before after x
  rw [chars_ofLexeme reads front back]
  obtain ⟨m, hbefore, hrest⟩ := reads.split
  cases hrest with
  | @cons _ c cs _ kind value _ read more =>
    have hkind : kind = .doubleSlash := hk
    subst hkind
    obtain ⟨rfl, htaken, rfl⟩ := scan_of_slashes read
    rw [htaken] at more ⊢
    obtain ⟨ys, hys, hall, hpieces⟩ := more.exists_moved back hr
      (p + width (textOf before) + width ['/', '/'])
    have hslashes : Reads (p + width (textOf before)) ('/' :: '/' :: (textOf after ++ r'))
        (⟨.doubleSlash, ⟨p + width (textOf before), p + width (textOf before) + width ['/', '/']⟩,
          ['/', '/'], none⟩ :: ys) r' := .cons_of_scan rfl rfl hys
    -- The blanks in front of the slashes see only the first of them.
    have hfront := (hbefore.lookahead (.cons '/' cs _)).append hslashes
    have hyields := Yields.intro hfront front rfl hall hr
    rw [hpieces] at hyields
    rw [textOf_append, textOf_cons, List.append_assoc]
    exact hyields

/-- A word stands well in place of a terminal: the blanks behind it end the word, or else the whole
text does. -/
theorem exists_word {p : Nat} {cs r : List Char} {t : Terminal} (h : Yields p cs t r)
    (hend : t.token.trailing = .empty → r = []) {w : List Char} (hw : isWord w = true) (q : Nat) :
    ∃ x, Yields q (w ++ (t.token.trailing.chars ++ r)) x r ∧
      x.token = { kind := .ident, text := String.ofList w, trailing := t.token.trailing } := by
  obtain ⟨p', m, xs, hreads, hblank, htrailing⟩ := h.exists_trailing
  have hchars : t.token.trailing.chars = textOf xs := by
    rw [htrailing, chars_piecesOf hreads.genuine hblank]
  obtain ⟨ys, hys, hall, hpieces⟩ := hreads.exists_moved hblank h.sharp (q + width w)
  -- The first character behind the word is that of a blank.
  have hnext : ∀ d ∈ (textOf xs ++ r).head?, isBoundary d = true := by
    cases xs with
    | nil =>
      rw [hend htrailing]
      simp
    | cons b bs =>
      have hb := (hreads.genuine b List.mem_cons_self).1
      have hne := hreads.text_ne_nil b List.mem_cons_self
      cases htext : b.text with
      | nil => exact absurd htext hne
      | cons d ds =>
        rw [htext] at hb
        have hd := isBoundary_of_blank hb (hblank b List.mem_cons_self)
        simp [htext, hd]
  rw [hchars]
  cases w with
  | nil => cases hw
  | cons c w =>
    have hword : Reads q (c :: w ++ (textOf xs ++ r))
        ([] ++ ⟨.ident, ⟨q, q + width (c :: w)⟩, c :: w, none⟩ :: ys) r :=
      .cons_of_scan (scan_word hw hnext) rfl hys
    refine ⟨_, .intro hword .nil rfl hall h.sharp, ?_⟩
    rw [hpieces, htrailing]
    rfl

/-- The zero of the mark is a terminal of its own. -/
theorem exists_zero {cs : List Char} (hsharp : isSharp ('x' :: cs) = true) (q : Nat) :
    ∃ x, Yields q ('0' :: 'x' :: cs) x ('x' :: cs) ∧
      x.token = { kind := .numberLit, text := "0", value := some (.int 0) } := by
  have hzero : Reads q ('0' :: 'x' :: cs)
      ([] ++ [⟨.numberLit, ⟨q, q + width ['0']⟩, ['0'], some (.int 0)⟩]) ('x' :: cs) :=
    .cons_of_scan rfl rfl .nil
  exact ⟨_, .intro hzero .nil rfl .nil hsharp, rfl⟩

end Yields

/-- Blanks stand in front of terminals iff the text does not begin with a lexeme of them. -/
theorem Yielding.sharp_iff {p : Nat} {cs r : List Char} {t : Terminal} {ts : List Terminal}
    (h : Yielding p cs (t :: ts) r) : isSharp cs = true ↔ t.token.leading = .empty := by
  cases h with
  | cons first more => exact first.sharp_iff

/-! ## Streams and texts -/

namespace Stream

open Terminal

/-- The first terminal of a stream, if it is not the one at the end, stands for the beginning of the
text. -/
theorem exists_yields {p : Nat} {cs : List Char} {x : Terminal}
    (h : (ofLexer (fresh p cs)).ahead 0 = .ok x) (hk : x.token.kind ≠ .endOfInput) :
    ∃ r, Yields p cs x r := by
  obtain ⟨us, m, r, hlen, hus, hx⟩ := yields_of_ahead h hk
  have hnil := List.length_eq_zero_iff.1 hlen
  subst hnil
  cases hus
  exact ⟨r, hx⟩

/-- Terminals in a row are the next terminals of the stream. -/
theorem ahead_of_yielding {p i : Nat} {cs r : List Char} {us : List Terminal}
    (h : Yielding p cs us r) (hi : i < us.length) :
    (ofLexer (fresh p cs)).ahead i = .ok us[i] := by
  rw [h.stream_eq]
  simp only [ahead, List.getElem?_append_left hi, List.getElem?_eq_getElem hi]

/-- The stream behind terminals in a row is that of the text behind them. -/
theorem drop_of_yielding {p : Nat} {cs r : List Char} {us : List Terminal}
    (h : Yielding p cs us r) :
    (ofLexer (fresh p cs)).drop us.length = ofLexer (fresh (p + width (charsOf us)) r) := by
  rw [h.stream_eq]
  simp only [drop, List.drop_left]

/-- The same text has the same tokens in every place. -/
theorem same_fresh (p q : Nat) (cs : List Char) :
    (ofLexer (fresh p cs)).Same (ofLexer (fresh q cs)) := by
  have hshift : ∀ n, fresh n cs = (fresh 0 cs).shift n := by
    intro n
    simp [fresh, Lexer.shift]
  intro i x hx
  rw [hshift p, ofLexer_shift, ahead_shift] at hx
  rw [hshift q, ofLexer_shift, ahead_shift]
  cases h : (ofLexer (fresh 0 cs)).ahead i with
  | error f =>
    rw [h] at hx
    cases hx
  | ok y =>
    rw [h] at hx
    cases hx
    exact ⟨y.shift q, rfl, rfl⟩

/-- No terminal of a text is a comment text by itself. -/
theorem noComments (p : Nat) (cs : List Char) : Grammar.NoComments (ofLexer (fresh p cs)) := by
  intro i x hx hk
  have hle := kind_le_of_ahead hx
  rw [hk] at hle
  exact absurd hle (by decide)

/-- If a text begins with no blank and its first terminal is the one at the end, it is empty. -/
theorem eq_nil_of_end {p : Nat} {cs : List Char} {x : Terminal} (hsharp : isSharp cs = true)
    (h : (ofLexer (fresh p cs)).ahead 0 = .ok x) (hk : x.token.kind = .endOfInput) : cs = [] := by
  rcases ofLexer_cases p cs with ⟨t, r, ht⟩ | ⟨xs, hxs, hblank⟩ | ⟨f, hf⟩
  · rw [ofLexer_of_yields ht] at h
    cases h
    have hlt := ht.kind_lt
    rw [hk] at hlt
    exact absurd hlt (by decide)
  · cases hxs with
    | nil => rfl
    | @cons _ c cs _ kind value _ read more =>
      have hb : kind.isBlank = true := hblank _ List.mem_cons_self
      simp [isSharp, read, hb] at hsharp
  · rw [hf] at h
    cases h

end Stream

/-- Terminals up to two slashes do not depend on what is behind the blanks that follow the
slashes. -/
theorem Yielding.slashes {p : Nat} {cs m r r' : List Char} {us : List Terminal} {d : Terminal}
    (hus : Yielding p cs us m) (hd : Yields (p + width (Terminal.charsOf us)) m d r)
    (hk : d.token.kind = .doubleSlash) (hr : isSharp r' = true) :
    Yielding p (Terminal.charsOf us ++ (d.token.chars ++ r')) (us ++ [d]) r' := by
  have hd' := hd.slashes hk hr
  have hfollows : Follows m (d.token.chars ++ r') := by
    have hlen := hd.length_lt
    rw [hd.text_eq] at hlen ⊢
    cases hchars : d.token.chars with
    | nil =>
      rw [hchars] at hlen
      exact absurd hlen (Nat.lt_irrefl _)
    | cons c w => exact .cons c _ _
  have hus' : Yielding p (Terminal.charsOf us ++ (d.token.chars ++ r')) us
      (d.token.chars ++ r') := by
    by_cases hnil : us = []
    · subst hnil
      exact .nil
    · -- Behind another terminal the slashes have no blanks in front.
      have hlead := hd.sharp_iff.1 (hus.sharp hnil)
      exact hus.lookahead hfollows (hd'.sharp_iff.2 hlead)
  exact hus'.append (.cons hd' .nil)

/-! ## Annotations -/

/-- The tokens of an annotation: the zero of the mark is a number, and the rest of the mark is a
word with the digits. -/
def annotatedTokens (digits : List Char) (trailing : Trivia) : List Token :=
  [{ kind := .numberLit, text := "0", value := some (.int 0) },
    { kind := .ident, text := String.ofList ('x' :: digits), trailing := trailing }]

/-- The words of an annotation fuse to its `0x` spelling, whatever blanks close the line. -/
theorem fuse_annotatedTokens (digits : List Char) (trailing : Trivia) :
    Token.fuse .commentText (annotatedTokens digits trailing) =
      { kind := .commentText, text := String.ofList ('0' :: 'x' :: digits)
        trailing := trailing } := by
  simp [Token.fuse, annotatedTokens, Token.innerChars, Token.ownChars]

/-- An annotation is read where a terminal was, with the blanks behind that terminal. -/
theorem Yields.exists_annotated {p : Nat} {cs r : List Char} {t : Terminal} (h : Yields p cs t r)
    (hend : t.token.trailing = .empty → r = []) {digits : List Char}
    (hdigits : isWord ('x' :: digits) = true) (q : Nat) :
    ∃ xs, Yielding q ('0' :: 'x' :: (digits ++ (t.token.trailing.chars ++ r))) xs r ∧
      xs.map Terminal.token = annotatedTokens digits t.token.trailing := by
  obtain ⟨y, hy, hytoken⟩ := h.exists_word hend hdigits (q + 1)
  have hsharp := hy.sharp_iff.2 (by rw [hytoken])
  obtain ⟨x, hx, hxtoken⟩ := Yields.exists_zero hsharp q
  have hwidth : q + width x.token.chars = q + 1 := by
    rw [hxtoken]
    rfl
  rw [← hwidth] at hy
  refine ⟨[x, y], .cons hx (.cons hy .nil), ?_⟩
  simp only [List.map_cons, List.map_nil, hxtoken, hytoken, annotatedTokens]

namespace Grammar

/-- A comment text of a stream stands for a stretch of the text. The line of the last terminal ends
behind it, wherever the rest of the text stands. -/
theorem CommentText.exists_yielding {p : Nat} {cs : List Char} {ts : List Token}
    (h : CommentText (.ofLexer (fresh p cs)) ts) :
    ∃ front x m r, Yielding p cs front m ∧
      Yields (p + width (Terminal.charsOf front)) m x r ∧
      ts = (front ++ [x]).map Terminal.token ∧
      ∀ q, LineEnds x.token (.ofLexer (fresh q r)) := by
  generalize hs : Stream.ofLexer (fresh p cs) = s at h
  -- By induction on the comment text; each terminal is yielded by the text where the last one
  -- ended.
  induction h generalizing p cs with
  | @last s x seen kind ends =>
    subst hs
    obtain ⟨r, hx⟩ := Stream.exists_yields seen kind
    refine ⟨[], x, cs, r, .nil, hx, rfl, ?_⟩
    intro q
    rw [Stream.ofLexer_of_yields hx] at ends
    exact ends.same (Stream.same_fresh _ q r)
  | @cons s x ts seen kind goes more ih =>
    subst hs
    obtain ⟨m, hx⟩ := Stream.exists_yields seen kind
    have htail : Stream.ofLexer (fresh (p + width x.token.chars) m) =
        (Stream.ofLexer (fresh p cs)).tail := by
      rw [Stream.ofLexer_of_yields hx]
      rfl
    obtain ⟨front, y, m', r, hfront, hy, rfl, hends⟩ := ih htail
    refine ⟨x :: front, y, m', r, .cons hx hfront, ?_, rfl, hends⟩
    rw [Terminal.charsOf_cons, width_append, ← Nat.add_assoc]
    exact hy

/-- If a line ends without blanks, the whole text ends. -/
theorem LineEnds.eq_nil {t : Token} {p : Nat} {cs : List Char}
    (h : LineEnds t (.ofLexer (fresh p cs))) (hempty : t.trailing = .empty)
    (hsharp : isSharp cs = true) : cs = [] := by
  rcases h with hline | ⟨y, hy, hk⟩
  · rw [Token.endsLine, hempty] at hline
    cases hline
  · exact Stream.eq_nil_of_end hsharp hy hk

/-- Terminals that are fused and get another text keep the blanks behind them. In front there are
none if the text begins with none. -/
theorem fuse_with_text {p : Nat} {cs r : List Char} {front : List Terminal} {x : Terminal}
    (h : Yielding p cs (front ++ [x]) r) (hsharp : isSharp cs = true) (kind : Kind)
    (text : String) :
    { Token.fuse kind ((front ++ [x]).map Terminal.token) with text := text } =
      { kind := kind, text := text, trailing := x.token.trailing } := by
  have hlead : (Token.fuse kind ((front ++ [x]).map Terminal.token)).leading = .empty := by
    cases front with
    | nil => exact h.sharp_iff.1 hsharp
    | cons y ys => exact h.sharp_iff.1 hsharp
  have htrail : (Token.fuse kind ((front ++ [x]).map Terminal.token)).trailing =
      x.token.trailing := by
    simp [Token.fuse]
  dsimp only
  rw [hlead, htrail]
  rfl

/-- An annotation is a comment text if the line ends behind it. -/
theorem commentText_annotatedTokens {p : Nat} {cs r : List Char} {xs : List Terminal}
    {digits : List Char} {t : Token} (h : Yielding p cs xs r)
    (hmap : xs.map Terminal.token = annotatedTokens digits t.trailing)
    (hends : ∀ q, LineEnds t (.ofLexer (fresh q r))) :
    CommentText (.ofLexer (fresh p cs)) (annotatedTokens digits t.trailing) := by
  obtain ⟨x, xs, rfl, hx, hxs⟩ := List.map_eq_cons_iff.1 hmap
  obtain ⟨y, ys, rfl, hy, hys⟩ := List.map_eq_cons_iff.1 hxs
  have hnil := List.map_eq_nil_iff.1 hys
  subst hnil
  cases h with | @cons _ _ m _ _ _ first more =>
  cases more with | cons second more =>
  cases more
  rw [annotatedTokens, ← hx, ← hy, Stream.ofLexer_of_yields first, Stream.ofLexer_of_yields second]
  have hykind : y.token.kind ≠ .endOfInput := by
    simp [hy]
  -- The zero is not the last terminal of the line, since the word follows it without a blank.
  refine .cons rfl ?_ ⟨?_, y, rfl, hykind⟩ (.last rfl hykind ?_)
  · simp [hx]
  · rw [hx]
    rfl
  · -- The word has the blanks of the terminal that stood there, so its line ends as well.
    have hline : y.token.endsLine = t.endsLine := by
      rw [hy]
      rfl
    rcases hends (p + width x.token.chars + width y.token.chars) with h | h
    · exact Or.inl (hline.trans h)
    · exact Or.inr h

/-- The text of a comment can be replaced by an annotation. -/
theorem CommentAt.exists_revised {k : Nat} {cs : List Char} {ts : List Token}
    (h : CommentAt k (.ofLexer (fresh 0 cs)) ts) {digits : List Char}
    (hdigits : isWord ('x' :: digits) = true) :
    ∃ cs' us, Revised k ts us (.ofLexer (fresh 0 cs)) (.ofLexer (fresh 0 cs')) ∧
      { Token.fuse .commentText ts with text := String.ofList ('0' :: 'x' :: digits) } =
        Token.fuse .commentText us := by
  obtain ⟨⟨d, hd, hk⟩, htext⟩ := h
  obtain ⟨us, m, r₀, rfl, hus, hyd⟩ := Stream.yields_of_ahead hd (by rw [hk]; decide)
  have hslashes : Yielding 0 cs (us ++ [d]) r₀ := hus.append (.cons hyd .nil)
  have hlen : (us ++ [d]).length = us.length + 1 := List.length_append
  rw [← hlen, Stream.drop_of_yielding hslashes] at htext
  obtain ⟨front, x, m', r, hfront, hx, rfl, hends⟩ := htext.exists_yielding
  have hcomment := hfront.append (.cons hx .nil)
  have hnew := hx.exists_annotated (fun hempty => (hends 0).eq_nil hempty hx.sharp) hdigits
  generalize '0' :: 'x' :: (digits ++ (x.token.trailing.chars ++ r)) = tail at hnew
  have hsharp : isSharp tail = true := by
    obtain ⟨ys, hys, hmap⟩ := hnew 0
    obtain ⟨y, ys, rfl, hy, -⟩ := List.map_eq_cons_iff.1 hmap
    exact hys.sharp_iff.2 (by rw [hy])
  have hslashes' := hus.slashes hyd hk hsharp
  generalize Terminal.charsOf us ++ (d.token.chars ++ tail) = cs' at hslashes'
  obtain ⟨ys, hys, hmap⟩ := hnew (0 + width (Terminal.charsOf (us ++ [d])))
  refine ⟨cs', annotatedTokens digits x.token.trailing, ⟨⟨⟨d, hd, hk⟩, ?_⟩, ?_, ?_⟩, ?_⟩
  · -- The terminals up to the slashes are the same.
    intro i hi y hy
    have hi' : i < (us ++ [d]).length := by omega
    rw [Stream.ahead_of_yielding hslashes hi'] at hy
    exact ⟨y, by rw [Stream.ahead_of_yielding hslashes' hi', hy], rfl⟩
  · rw [← hlen, Stream.drop_of_yielding hslashes']
    exact commentText_annotatedTokens hys hmap hends
  · -- Behind the comment the text is the same.
    have hold := Stream.drop_of_yielding (hslashes.append hcomment)
    have hnew := Stream.drop_of_yielding (hslashes'.append hys)
    rw [List.length_append] at hold hnew
    rw [← hlen, ← hmap, List.length_map, List.length_map, hold, hnew]
    exact Stream.same_fresh _ _ r
  · rw [fuse_with_text hcomment hyd.sharp, fuse_annotatedTokens]

/-- A unit that is parsed from a text has that text, so it is parsed again from its own text. -/
theorem Parses.parseUnit_reconstruct {cs : List Char} {tree : Node} {s' : State}
    (h : Parses Rule.unitItems.body [] ⟨.ofLexer (fresh 0 cs), []⟩ tree s') :
    parseUnit tree.reconstruct = .ok tree := by
  have hkeep := h.chars_of_call
  obtain ⟨hall, hnone⟩ := Stream.chars_of_behind_end (h.behind_mark rfl)
  rw [hnone, List.append_nil, hall] at hkeep
  rw [Node.reconstruct, hkeep]
  refine parse_ok_iff.2 ⟨s', ?_⟩
  rw [String.toList_ofList, new_eq_fresh]
  exact h

end Grammar

/-! ## Setting the text of a comment -/

namespace Editing

theorem node_eq {s : Session} {path : List PathStep} {n : Node} (h : s.root.get? path = some n) :
    node path s = .ok (n, s) := by
  show (orRefuse .noNode (s.root.get? path)) s = .ok (n, s)
  rw [h]
  rfl

theorem token_eq {s : Session} {path : List PathStep} {t : Token}
    (h : s.root.get? path = some (.token t)) : token path s = .ok (t, s) := by
  have hnode := node_eq h
  simp only [token, bind, StateT.bind, Except.bind, hnode]
  rfl

theorem replace_eq {s : Session} {path : List PathStep} {n root : Node}
    (h : s.root.set? path n = some root) :
    replace path n s = .ok ((), { s with root := root }) := by
  show (orRefuse .noNode (s.root.set? path n) >>= fun root => set { s with root := root }) s = _
  rw [h]
  rfl

/-- A text is set by replacing the terminal at the end of the path. -/
theorem setText_eq {s : Session} {path : List PathStep} {t : Token} {text : String} {root : Node}
    (hget : s.root.get? path = some (.token t))
    (hset : s.root.set? path (.token { t with text := text }) = some root) :
    setText path text s = .ok ((), { s with root := root }) := by
  have htoken := token_eq hget
  have hreplace := replace_eq hset
  simp only [setText, changeToken, bind, StateT.bind, Except.bind, htoken, hreplace]
  rfl

end Editing

/-- A comment text of a unit can be set to an annotation, which is `0x` and hexadecimal digits. The
text of the new tree is then parsed as this very tree. -/
theorem parseUnit_of_setText {text digits : String} {tree : Node} {path : List PathStep}
    {t : Token} (h : parseUnit text = .ok tree) (hget : tree.get? path = some (.token t))
    (hkind : t.kind = .commentText)
    (hdigits : ∀ c ∈ digits.toList, (hexDigit? c).isSome = true) :
    ∃ tree', tree.set? path (.token { t with text := "0x" ++ digits }) = some tree' ∧
      (Session.new tree).perform (.setText path ("0x" ++ digits)) = (.ok (), .new tree') ∧
      parseUnit tree'.reconstruct = .ok tree' := by
  obtain ⟨tree', hset, hswap⟩ := Node.exists_swap hget (.token { t with text := "0x" ++ digits })
  refine ⟨tree', hset, ?_, ?_⟩
  · have hedit : Editing.setText path ("0x" ++ digits) (.new tree) = .ok ((), .new tree') :=
      Editing.setText_eq hget hset
    rw [Session.perform, hedit]
  · obtain ⟨s', hparses⟩ := Grammar.parse_ok_iff.1 h
    rw [new_eq_fresh] at hparses
    have hcare : Grammar.Careful Grammar.Rule.unitItems.body (.ofLexer (fresh 0 text.toList)) :=
      .body (by decide) (by decide) (Stream.noComments 0 text.toList)
    -- Nothing was collected before the parse, so the comment text was made in it.
    cases hparses.followed hkind hcare hswap with
    | nodes swap ends => cases swap
    | stream comment htext ends =>
      have hword : isWord ('x' :: digits.toList) = true :=
        isWord_mark fun c hc => Option.isSome_iff_exists.1 (hdigits c hc)
      obtain ⟨cs', us, hrevised, hfuse⟩ := comment.exists_revised hword
      -- What the edit writes is the spelling of the annotation that is read in its place.
      have hmark : "0x" ++ digits = String.ofList ('0' :: 'x' :: digits.toList) := by
        rw [← String.toList_inj, String.toList_append, String.toList_ofList]
        simp
      rw [← htext, ← hmark] at hfuse
      obtain ⟨rest, log, hparses', -⟩ := ends hfuse hrevised []
      exact hparses'.parseUnit_reconstruct

/-- A text with a comment between a class and its block, where the line ends with a carriage return,
and with a comment at the end of the text. -/
def annotatedClass : String :=
  "class C // was \"0x\" 1  \r\n\x7b // old\n int a; \x7d //0"

/-- The text of the first comment in `annotatedClass`. -/
def annotatedToken : Token :=
  { kind := .commentText, text := "was \"0x\" 1"
    trailing := ⟨[⟨.whitespace, 2⟩, ⟨.newline, 2⟩]⟩ }

/-- A class under an offset comment: the comment text is exchanged in the tree, and the text of the
edited tree parses to that tree. -/
theorem parseUnit_annotatedClass :
    ∃ tree tree', parseUnit annotatedClass = .ok tree ∧
      tree.get? [.first .classDecl, .first .comment, .first .commentText] =
        some (.token annotatedToken) ∧
      annotatedToken.kind = .commentText ∧
      (∀ c ∈ "1aF".toList, (hexDigit? c).isSome = true) ∧
      tree.set? [.first .classDecl, .first .comment, .first .commentText]
        (.token { annotatedToken with text := "0x" ++ "1aF" }) = some tree' ∧
      parseUnit tree'.reconstruct = .ok tree' := by
  -- That the path leads to the token is evaluated.
  have hparse : ∃ tree ∈ (parseUnit annotatedClass).toOption,
      tree.get? [.first .classDecl, .first .comment, .first .commentText] =
        some (.token annotatedToken) := by
    decide +kernel
  obtain ⟨tree, htree, hget⟩ := hparse
  have h := eq_ok_of_mem_toOption htree
  have hall : ("1aF".toList.all fun c => (hexDigit? c).isSome) = true := by decide
  have hdigits := List.all_eq_true.1 hall
  obtain ⟨tree', hset, -, hreparse⟩ := parseUnit_of_setText h hget rfl hdigits
  exact ⟨tree, tree', h, hget, rfl, hdigits, hset, hreparse⟩

end Lossless
