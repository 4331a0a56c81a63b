import Mathlib.Computability.Language
import Mathlib.Data.List.Chain
import Lossless.Proofs.Locality

/-!
# Blank texts and their pieces

A text of blanks is cut into pieces in one way, and the pieces give the text back. Pieces that were
put together by hand need not be such a cutting: an empty run leaves no text, a line break of any
other length is printed as one character, and two runs of the same kind in a row become one. These
are the only reasons. `Trivia.ofChars?_exact` says which texts are read, that nothing of them is
lost, and that the trivia which is read back from its own text is exactly the canonical one.
-/

namespace Lossless

open Computability Text

namespace Text

/-- A space, a tab, a line feed, or a carriage return with a line feed. -/
def blank : Language Char := {[' '], ['\t'], ['\n'], ['\r', '\n']}

theorem mem_blank {u : List Char} :
    u ∈ blank ↔ u = [' '] ∨ u = ['\t'] ∨ u = ['\n'] ∨ u = ['\r', '\n'] := Iff.rfl

theorem append_mem_blanks {u w : List Char} (hu : u ∈ blank) (hw : w ∈ blank∗) :
    u ++ w ∈ blank∗ := by
  rcases Language.mem_kstar.1 hw with ⟨us, rfl, hus⟩
  refine Language.mem_kstar.2 ⟨u :: us, rfl, ?_⟩
  exact List.forall_mem_cons.2 ⟨hu, hus⟩

end Text

/-! ## Canonical trivia -/

namespace Piece

/-- The piece has a text of its length. -/
def Sound (p : Piece) : Prop := 0 < p.length ∧ (p.kind = .newline → p.length = 1 ∨ p.length = 2)

/-- The two pieces, side by side, are not two parts of one run. -/
def Apart (p q : Piece) : Prop :=
  ¬(p.kind = .whitespace ∧ q.kind = .whitespace) ∧ ¬(p.kind = .tab ∧ q.kind = .tab)

/-- The length of a sound piece is the number of bytes of its text. -/
theorem Sound.width_chars {p : Piece} (h : p.Sound) : width p.chars = p.length := by
  have hreplicate : ∀ (c : Char) (n : Nat), c.utf8Size = 1 → width (List.replicate n c) = n := by
    intro c n hc
    induction n with
    | zero => rfl
    | succ n ih =>
      rw [List.replicate_succ, width_cons, hc, ih]
      omega
  rcases p with ⟨kind, length⟩
  cases kind with
  | whitespace => exact hreplicate ' ' length rfl
  | tab => exact hreplicate '\t' length rfl
  | newline =>
    rcases h.2 rfl with h | h
    · cases h
      rfl
    · cases h
      rfl

end Piece

namespace Trivia

/-- No piece is empty, every line break has the length of one, and no two runs of spaces and no two
runs of tabs stand side by side. -/
structure Canonical (t : Trivia) : Prop where
  pos : ∀ p ∈ t.pieces, 0 < p.length
  newline : ∀ p ∈ t.pieces, p.kind = .newline → p.length = 1 ∨ p.length = 2
  apart : t.pieces.IsChain Piece.Apart

theorem canonical_nil : Canonical ⟨[]⟩ where
  pos := by simp
  newline := by simp
  apart := .nil

/-- Trivia is canonical iff its first piece is sound and apart from the second, and the rest is
canonical. -/
theorem canonical_cons {p : Piece} {ps : List Piece} :
    Canonical ⟨p :: ps⟩ ↔ p.Sound ∧ (∀ q ∈ ps.head?, p.Apart q) ∧ Canonical ⟨ps⟩ := by
  constructor
  · rintro ⟨hpos, hnewline, hapart⟩
    rcases List.forall_mem_cons.1 hpos with ⟨hp, hps⟩
    rcases List.forall_mem_cons.1 hnewline with ⟨hp', hps'⟩
    rcases List.isChain_cons.1 hapart with ⟨hfirst, hmore⟩
    exact ⟨⟨hp, hp'⟩, hfirst, hps, hps', hmore⟩
  · rintro ⟨⟨hp, hp'⟩, hfirst, hps, hps', hmore⟩
    constructor
    · exact List.forall_mem_cons.2 ⟨hp, hps⟩
    · exact List.forall_mem_cons.2 ⟨hp', hps'⟩
    · exact List.isChain_cons.2 ⟨hfirst, hmore⟩

/-- Canonical trivia is as long as its text. -/
theorem Canonical.length_eq {ps : List Piece} (h : Canonical ⟨ps⟩) :
    length ⟨ps⟩ = width (chars ⟨ps⟩) := by
  induction ps with
  | nil => rfl
  | cons p ps ih =>
    rcases canonical_cons.1 h with ⟨hp, -, hps⟩
    have hrest : length ⟨p :: ps⟩ = p.length + length ⟨ps⟩ := rfl
    rw [hrest, ih hps, chars_mk_cons, width_append, hp.width_chars]

/-! ## From texts to pieces -/

/-- One more character lengthens the run in front of which it stands, or starts one. -/
theorem chars_prepend {k : PieceKind} {c : Char}
    (hk : ∀ n, Piece.chars ⟨k, n⟩ = List.replicate n c) (ps : List Piece) :
    chars ⟨prepend k ps⟩ = c :: chars ⟨ps⟩ := by
  cases ps with
  | nil => simp [prepend, hk]
  | cons p ps =>
    by_cases hp : p.kind = k
    · have hchars : p.chars = List.replicate p.length c := by rw [← hk, ← hp]
      simp [prepend, hp, hk, hchars, List.replicate_succ]
    · simp [prepend, hp, hk]

/-- A blank in front of canonical trivia is taken into its first piece or stands as a new piece; in
both cases the pieces stay apart. -/
theorem Canonical.prepend {k : PieceKind} (hk : k ≠ .newline) {ps : List Piece}
    (h : Canonical ⟨ps⟩) : Canonical ⟨Trivia.prepend k ps⟩ := by
  have hsound : ∀ n, Piece.Sound ⟨k, n + 1⟩ := fun n => ⟨Nat.succ_pos n, fun h => absurd h hk⟩
  cases ps with
  | nil => exact canonical_cons.2 ⟨hsound 0, by simp, h⟩
  | cons p ps =>
    by_cases hp : p.kind = k
    · -- The run keeps its neighbour.
      rcases canonical_cons.1 h with ⟨-, hfirst, hps⟩
      rw [Trivia.prepend, if_pos hp]
      refine canonical_cons.2 ⟨hsound p.length, ?_, hps⟩
      intro q hq
      have hapart := hfirst q hq
      unfold Piece.Apart at hapart ⊢
      rwa [hp] at hapart
    · rw [Trivia.prepend, if_neg hp]
      refine canonical_cons.2 ⟨hsound 0, ?_, h⟩
      intro q hq
      cases hq
      constructor
      · rintro ⟨rfl, hq⟩
        exact hp hq
      · rintro ⟨rfl, hq⟩
        exact hp hq

/-- What is read as pieces is a blank text, the pieces are canonical and spell the text. -/
structure Reading (cs : List Char) (ps : List Piece) : Prop where
  blank : cs ∈ blank∗
  chars_eq : chars ⟨ps⟩ = cs
  canonical : Canonical ⟨ps⟩

/-- One more space or tab in front of a text that is read. -/
theorem Reading.run {k : PieceKind} {c : Char} {cs : List Char} {ps : List Piece}
    (h : Reading cs ps) (hk : ∀ n, Piece.chars ⟨k, n⟩ = List.replicate n c)
    (hc : [c] ∈ Text.blank) (hne : k ≠ .newline) :
    Reading (c :: cs) (prepend k ps) where
  blank := append_mem_blanks hc h.blank
  chars_eq := by rw [chars_prepend hk, h.chars_eq]
  canonical := h.canonical.prepend hne

/-- A line break in front of a text that is read is a piece of its own. -/
theorem Reading.newline {p : Piece} {cs : List Char} {ps : List Piece} (h : Reading cs ps)
    (hp : p = ⟨.newline, 1⟩ ∨ p = ⟨.newline, 2⟩) : Reading (p.chars ++ cs) (p :: ps) := by
  have hblank : p.chars ∈ Text.blank := by
    rcases hp with rfl | rfl <;> simp [mem_blank, Piece.chars]
  have hsound : p.Sound := by
    rcases hp with rfl | rfl <;> simp [Piece.Sound]
  have hapart : ∀ q ∈ ps.head?, p.Apart q := by
    rcases hp with rfl | rfl <;> simp [Piece.Apart]
  constructor
  · exact append_mem_blanks hblank h.blank
  · rw [chars_mk_cons, h.chars_eq]
  · exact canonical_cons.2 ⟨hsound, hapart, h.canonical⟩

/-- What the reader gives is a reading: each case of the reader adds one blank in front. -/
theorem reading_of_readPieces? {cs : List Char} {ps : List Piece} (h : readPieces? cs = some ps) :
    Reading cs ps := by
  fun_induction readPieces? cs generalizing ps with
  | case1 =>
    cases h
    exact ⟨Language.nil_mem_kstar _, rfl, canonical_nil⟩
  | case2 cs ih =>
    rcases Option.map_eq_some_iff.1 h with ⟨qs, hqs, rfl⟩
    exact (ih hqs).run (fun _ => rfl) (mem_blank.2 (by simp)) (by decide)
  | case3 cs ih =>
    rcases Option.map_eq_some_iff.1 h with ⟨qs, hqs, rfl⟩
    exact (ih hqs).run (fun _ => rfl) (mem_blank.2 (by simp)) (by decide)
  | case4 cs ih =>
    rcases Option.map_eq_some_iff.1 h with ⟨qs, hqs, rfl⟩
    exact (ih hqs).newline (Or.inl rfl)
  | case5 cs ih =>
    rcases Option.map_eq_some_iff.1 h with ⟨qs, hqs, rfl⟩
    exact (ih hqs).newline (Or.inr rfl)
  | case6 => cases h

/-- Every blank text is read. -/
theorem isSome_readPieces? {cs : List Char} (h : cs ∈ blank∗) : (readPieces? cs).isSome = true := by
  rcases Language.mem_kstar.1 h with ⟨us, rfl, hus⟩
  clear h
  induction us with
  | nil => rfl
  | cons u us ih =>
    rcases List.forall_mem_cons.1 hus with ⟨hu, hus⟩
    have hrest := ih hus
    rw [List.flatten_cons]
    rcases mem_blank.1 hu with rfl | rfl | rfl | rfl
    all_goals simpa [readPieces?] using hrest

/-- Canonical pieces are read back from their text. -/
theorem Canonical.readPieces?_chars {ps : List Piece} (h : Canonical ⟨ps⟩) :
    readPieces? (chars ⟨ps⟩) = some ps := by
  -- By induction on the pieces; a run of blanks ends where the next piece is of another kind, and
  -- this is what canonical pieces promise.
  induction ps with
  | nil => rfl
  | cons p ps ih =>
    rcases canonical_cons.1 h with ⟨⟨hpos, hnewline⟩, hfirst, hps⟩
    have hrest := ih hps
    rcases p with ⟨kind, length⟩
    rcases Nat.exists_eq_succ_of_ne_zero (Nat.ne_of_gt hpos) with ⟨n, hn⟩
    rw [chars_mk_cons]
    cases kind with
    | whitespace =>
      cases hn
      refine readPieces?_replicate (fun _ => rfl) hrest ?_ n
      intro q hq hk
      exact (hfirst q hq).1 ⟨rfl, hk⟩
    | tab =>
      cases hn
      refine readPieces?_replicate (fun _ => rfl) hrest ?_ n
      intro q hq hk
      exact (hfirst q hq).2 ⟨rfl, hk⟩
    | newline =>
      -- A line break is one character or two, and is never drawn together with the next.
      rcases hnewline rfl with hlength | hlength
      · cases hlength
        simp [Piece.chars, readPieces?, hrest]
      · cases hlength
        simp [Piece.chars, readPieces?, hrest]

/-- A text is read as trivia iff it is a text of blanks, and the trivia then has the text and the
size of it. Trivia, whatever its pieces, is read back from its text iff it is canonical. -/
theorem ofChars?_exact (s : String) (t : Trivia) :
    ((ofChars? s.toList).isSome = true ↔ s.toList ∈ blank∗) ∧
      (ofChars? s.toList = some t → String.ofList t.chars = s ∧ t.length = s.utf8ByteSize) ∧
      (ofChars? t.chars = some t ↔ t.Canonical) := by
  rcases t with ⟨ps⟩
  have hmap : ∀ cs, ofChars? cs = some ⟨ps⟩ ↔ readPieces? cs = some ps := by
    intro cs
    simp [ofChars?]
  refine ⟨?_, ?_, ?_⟩
  · -- A reading is a proof that the text is blank, and a blank text has a reading.
    rw [ofChars?, Option.isSome_map]
    constructor
    · intro h
      rcases Option.isSome_iff_exists.1 h with ⟨qs, hqs⟩
      exact (reading_of_readPieces? hqs).blank
    · exact isSome_readPieces?
  · intro h
    have hreading := reading_of_readPieces? ((hmap _).1 h)
    constructor
    · rw [hreading.chars_eq, String.ofList_toList]
    · rw [hreading.canonical.length_eq, hreading.chars_eq, width_toList]
  · -- What is read is canonical, and canonical pieces are read back.
    rw [hmap]
    constructor
    · intro h
      exact (reading_of_readPieces? h).canonical
    · exact Canonical.readPieces?_chars

/-- Trivia that is read from a text stops being canonical when a second run of spaces is pushed. -/
theorem ofChars?_exact_pushed :
    let t : Trivia := ⟨[⟨.tab, 2⟩, ⟨.newline, 2⟩, ⟨.newline, 1⟩, ⟨.whitespace, 1⟩]⟩
    ofChars? "\t\t\r\n\n ".toList = some t ∧ String.ofList t.chars = "\t\t\r\n\n " ∧
      t.length = "\t\t\r\n\n ".utf8ByteSize ∧ t.Canonical ∧
      ¬(t.push ⟨.whitespace, 2⟩).Canonical := by
  intro t
  have hread : ofChars? "\t\t\r\n\n ".toList = some t := by decide
  have hback : ofChars? t.chars = some t := by decide
  have hmerged : ofChars? (t.push ⟨.whitespace, 2⟩).chars ≠ some (t.push ⟨.whitespace, 2⟩) := by
    decide
  rcases ofChars?_exact "\t\t\r\n\n " t with ⟨-, hsize, hcanonical⟩
  rcases hsize hread with ⟨hchars, hlength⟩
  refine ⟨hread, hchars, hlength, hcanonical.1 hback, ?_⟩
  intro hpushed
  exact hmerged ((ofChars?_exact "" (t.push ⟨.whitespace, 2⟩)).2.2.2 hpushed)

end Trivia

end Lossless
