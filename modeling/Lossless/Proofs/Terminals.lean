import Lossless.Proofs.Lookahead
import Lossless.Stream

/-!
# From texts to terminals

A terminal stands for a stretch of the text: the blanks in front of it, its lexeme and the blanks
behind it. `Yields` says which stretch that is, and `Stream.ofLexer_cases` says that a stream is
made of such stretches, one after the other, up to the end of the text or to the first lexical
error. Three facts about a text and its terminals follow:

* `Yielding.text_eq`: the terminals of a stream spell the text;
* `Yielding.lookahead`: terminals do not depend on what is behind the blanks that follow them;
* `Yielding.sharp`: no blank is left over between two terminals.
-/

namespace Lossless

/-! ## How lexemes are spelled -/

/-- Whether a text can be that of a lexeme of a given kind, as far as blanks, strings and closing
braces go. Every kind of lexeme comes before the end of input in the order of kinds. -/
def Kind.spells : Kind → List Char → Bool
  | .whitespace, w => w.all (· == ' ')
  | .tab, w => w.all (· == '\t')
  | .newline, w => w == ['\n'] || w == ['\r', '\n']
  | .stringLit, w => w == '"' :: ((w.drop 1).dropLast ++ ['"'])
  | .rightBrace, w => w == ['}']
  | k, _ => k.number < Kind.endOfInput.number

/-- A kind that has a spelling is numbered below the end of input. -/
theorem Kind.number_lt_of_spells {k : Kind} {w : List Char} (h : k.spells w = true) :
    k.number < Kind.endOfInput.number := by
  unfold Kind.spells at h
  split at h
  case h_6 => exact of_decide_eq_true h
  all_goals decide

namespace Lexeme

theorem pair?_spells {c d : Char} {k : Kind} (h : pair? c d = some k) : k.spells [c, d] = true := by
  unfold pair? at h
  split at h
  all_goals cases h
  all_goals rfl

theorem single?_spells {c : Char} {k : Kind} (h : single? c = some k) : k.spells [c] = true := by
  unfold single? at h
  split at h
  all_goals cases h
  all_goals rfl

/-- A string cut from a text has a spelling of its kind. -/
theorem cutString_spells {cs : List Char} {kind : Kind} {value : Option Number}
    (h : evaluate (cutString '"' cs).shape (cutString '"' cs).taken = .ok (kind, value)) :
    kind.spells (cutString '"' cs).taken = true := by
  unfold cutString at h ⊢
  split at h
  · rename_i q rest hdrop
    have hq := List.head?_dropWhile_not (· != '"') cs
    rw [hdrop] at hq
    have hq' : q = '"' := by simpa using hq
    cases h
    simp [Kind.spells, hq']
  · cases h

/-- What is cut off as a number is a number, if it is anything. -/
theorem cutNumber_kind {c : Char} {cs text : List Char} {kind : Kind} {value : Option Number}
    (h : evaluate (cutNumber c cs).shape text = .ok (kind, value)) : kind = .numberLit := by
  have hshape : ∀ k, (cutNumber c cs).shape ≠ .plain k := by
    intro k
    unfold cutNumber
    repeat' split
    all_goals exact Shape.noConfusion
  unfold evaluate at h
  split at h
  · rename_i hk
    exact absurd hk (hshape _)
  · split at h <;> cases h
    rfl
  · split at h <;> cases h
    rfl
  · cases h

theorem cutNumber_spells {c : Char} {cs : List Char} {kind : Kind} {value : Option Number}
    (h : evaluate (cutNumber c cs).shape (cutNumber c cs).taken = .ok (kind, value))
    (w : List Char) : kind.spells w = true := by
  rw [cutNumber_kind h]
  rfl

/-- A mark or a word cut from a text has a spelling of its kind. -/
theorem cutOther_spells {c : Char} {cs : List Char} {kind : Kind} {value : Option Number}
    (h : evaluate (cutOther c cs).shape (cutOther c cs).taken = .ok (kind, value)) :
    kind.spells (cutOther c cs).taken = true := by
  unfold cutOther at h ⊢
  split at h
  · rename_i hk
    cases cs with
    | nil => cases hk
    | cons d cs =>
      cases h
      exact pair?_spells hk
  · split at h
    · rename_i hk
      cases h
      exact single?_spells hk
    · cases h
      rfl

/-- A lexeme is spelled as its kind says. -/
theorem scan_spells {c : Char} {cs : List Char} {kind : Kind} {value : Option Number}
    (h : evaluate (scan c cs).shape (scan c cs).taken = .ok (kind, value)) :
    kind.spells (scan c cs).taken = true := by
  rcases scan_cases c cs with ⟨hc, hs⟩ | ⟨hc, hs⟩ | ⟨hc, hs⟩ | ⟨-, hs⟩ | ⟨-, hs⟩
  · rw [hs] at h ⊢
    cases h
    simp [cutRun, Kind.spells, hc, List.all_takeWhile]
  · rw [hs] at h ⊢
    cases h
    simp [cutRun, Kind.spells, hc, List.all_takeWhile]
  · subst hc
    rw [hs] at h ⊢
    exact cutString_spells h
  · rw [hs] at h ⊢
    exact cutNumber_spells h _
  · rw [hs] at h ⊢
    exact cutOther_spells h

/-- A lexeme as it is read from a text: it is spelled as its kind says and its range is as long as
its text. -/
def Genuine (x : Lexeme) : Prop := x.kind.spells x.text = true ∧ x.span.length = Text.width x.text

/-- A blank lexeme becomes a piece of trivia with the same text. -/
theorem Genuine.chars_piece {x : Lexeme} (hx : x.Genuine) {p : Piece} (hp : x.piece? = some p) :
    p.chars = x.text := by
  -- A piece keeps a length in bytes, which for blanks is the number of characters.
  have hwidth : ∀ (c : Char) (w : List Char), w.all (· == c) = true → c.utf8Size = 1 →
      List.replicate (Text.width w) c = w := by
    intro c w hw hc
    induction w with
    | nil => rfl
    | cons d w ih =>
      simp only [List.all_cons, Bool.and_eq_true, beq_iff_eq] at hw
      rw [Text.width_cons, hw.1, hc, Nat.add_comm, List.replicate_succ, ih hw.2]
  rcases hx with ⟨hspell, hlen⟩
  unfold piece? at hp
  split at hp
  · rename_i hk
    rw [hk] at hspell
    cases hp
    simp only [Piece.chars, hlen]
    exact hwidth ' ' x.text hspell (by decide)
  · rename_i hk
    rw [hk] at hspell
    cases hp
    simp only [Piece.chars, hlen]
    exact hwidth '\t' x.text hspell (by decide)
  · rename_i hk
    rw [hk] at hspell
    cases hp
    simp only [Piece.chars, hlen]
    simp only [Kind.spells, Bool.or_eq_true, beq_iff_eq] at hspell
    rcases hspell with hw | hw <;> rw [hw] <;> rfl
  · cases hp

/-- A terminal has the text of its lexeme, quotation marks included. -/
theorem Genuine.ownChars {x : Lexeme} (hx : x.Genuine) (before after : List Piece) :
    (Terminal.ofLexeme x before after).token.ownChars = x.text := by
  by_cases hk : x.kind = .stringLit
  · have hspell := hx.1
    rw [hk] at hspell
    simp only [Kind.spells, beq_iff_eq] at hspell
    simp only [Terminal.ofLexeme, Token.ownChars, Lexeme.ownText, hk, if_true, String.toList_ofList]
    exact hspell.symm
  · simp [Terminal.ofLexeme, Token.ownChars, Lexeme.ownText, hk]

end Lexeme

/-- No lexeme of a run stands for the end of the text. -/
def Lexeme.NoEnd (run : List (Except Fault Lexeme)) : Prop :=
  ∀ x : Lexeme, .ok x ∈ run → x.kind ≠ .endOfInput

/-- The kind of a lexeme depends on its cut alone, whatever was held back in front of it. -/
theorem Lexeme.evaluate_ne_end {c : Char} {cs w : List Char} {kind : Kind} {value : Option Number}
    (h : evaluate (scan c cs).shape w = .ok (kind, value)) : kind ≠ .endOfInput := by
  cases hshape : (scan c cs).shape with
  | plain k =>
    rw [hshape] at h
    cases h
    -- A plain kind has the spelling of what was cut, and the end has none.
    have hspell : evaluate (scan c cs).shape (scan c cs).taken = .ok (kind, none) := by
      rw [hshape]
      rfl
    have hlt := Kind.number_lt_of_spells (scan_spells hspell)
    rintro rfl
    exact absurd hlt (Nat.lt_irrefl _)
  | integer =>
    rw [hshape] at h
    simp only [evaluate] at h
    split at h <;> cases h
    decide
  | fraction =>
    rw [hshape] at h
    simp only [evaluate] at h
    split at h <;> cases h
    decide
  | broken cause =>
    rw [hshape] at h
    cases h

/-- No lexeme of a run is the end of input: the end is what the run stops at. -/
theorem Lexer.noEnd_run (l : Lexer) : Lexeme.NoEnd l.run := by
  induction l using Lexer.run.induct with
  | case1 start held =>
    rw [run_of_nil rfl]
    intro x hx
    exact absurd hx List.not_mem_nil
  | case2 start held c cs ih =>
    rw [run_of_cons rfl]
    intro x hx
    rcases List.mem_cons.1 hx with hx | hx
    · unfold step at hx
      dsimp only at hx
      split at hx
      · rename_i kind value he
        cases hx
        exact Lexeme.evaluate_ne_end he
      · cases hx
    · exact ih x hx

/-- Whatever is read from a text is genuine. -/
theorem Reads.genuine {p : Nat} {cs r : List Char} {xs : List Lexeme} (h : Reads p cs xs r) :
    ∀ x ∈ xs, x.Genuine := by
  induction h with
  | nil => simp
  | cons read _ ih =>
    intro x hx
    rcases List.mem_cons.1 hx with rfl | hx
    · refine ⟨Lexeme.scan_spells read, ?_⟩
      simp [Span.length]
    · exact ih x hx

/-! ## Blanks -/

/-- The kinds of lexemes that become trivia. -/
def Kind.isBlank : Kind → Bool
  | .whitespace | .tab | .newline => true
  | _ => false

theorem Lexeme.piece?_isSome (x : Lexeme) : x.piece?.isSome = x.kind.isBlank := by
  unfold Lexeme.piece?
  cases x.kind <;> rfl

theorem Lexeme.piece?_eq_none {x : Lexeme} (h : x.kind.isBlank = false) : x.piece? = none := by
  have hx := x.piece?_isSome
  rw [h] at hx
  exact Option.isNone_iff_eq_none.1 (by simpa using hx)

theorem Lexeme.exists_piece {x : Lexeme} (h : x.kind.isBlank = true) : ∃ p, x.piece? = some p := by
  have hx := x.piece?_isSome
  rw [h] at hx
  exact Option.isSome_iff_exists.1 hx

/-- The pieces of trivia that some lexemes are. -/
def Lexeme.piecesOf (xs : List Lexeme) : List Piece := xs.filterMap Lexeme.piece?

/-- Lexemes that are all blanks. -/
def Lexeme.AllBlank (xs : List Lexeme) : Prop := ∀ x ∈ xs, x.kind.isBlank = true

theorem Lexeme.AllBlank.nil : AllBlank [] := by
  intro x hx
  exact absurd hx List.not_mem_nil

theorem Lexeme.AllBlank.cons {x : Lexeme} {xs : List Lexeme} (hx : x.kind.isBlank = true)
    (hxs : AllBlank xs) : AllBlank (x :: xs) := by
  intro y hy
  rcases List.mem_cons.1 hy with rfl | hy
  · exact hx
  · exact hxs y hy

/-- Blank lexemes become trivia with the same text. -/
theorem Lexeme.chars_piecesOf {xs : List Lexeme} (hg : ∀ x ∈ xs, x.Genuine) (hb : AllBlank xs) :
    Trivia.chars ⟨piecesOf xs⟩ = textOf xs := by
  induction xs with
  | nil => rfl
  | cons x xs ih =>
    rcases exists_piece (hb x List.mem_cons_self) with ⟨p, hp⟩
    have hx := (hg x List.mem_cons_self).chars_piece hp
    have hxs := ih (fun y hy => hg y (List.mem_cons_of_mem x hy))
      (fun y hy => hb y (List.mem_cons_of_mem x hy))
    rw [piecesOf, List.filterMap_cons_some hp, Trivia.chars_mk_cons, textOf_cons, hx]
    exact congrArg _ hxs

/-- Whether a text begins with a lexeme that is no blank, or is empty. -/
def Text.isSharp : List Char → Bool
  | [] => true
  | c :: cs =>
    match Lexeme.evaluate (Lexeme.scan c cs).shape (Lexeme.scan c cs).taken with
    | .ok (kind, _) => !kind.isBlank
    | .error _ => false

/-! ## One terminal -/

/-- The first terminal of a text at a position, and the text behind the blanks that follow it. -/
inductive Yields : Nat → List Char → Terminal → List Char → Prop where
  | intro {p : Nat} {cs r : List Char} {before after : List Lexeme} {x : Lexeme}
      (reads : Reads p cs (before ++ x :: after) r) (front : Lexeme.AllBlank before)
      (core : x.kind.isBlank = false) (back : Lexeme.AllBlank after)
      (sharp : Text.isSharp r = true) :
      Yields p cs (.ofLexeme x (Lexeme.piecesOf before) (Lexeme.piecesOf after)) r

namespace Yields

open Lexeme Text

/-- A terminal has the text of the lexemes that it is made of. -/
theorem chars_ofLexeme {p : Nat} {cs r : List Char} {before after : List Lexeme} {x : Lexeme}
    (reads : Reads p cs (before ++ x :: after) r) (front : AllBlank before)
    (back : AllBlank after) :
    (Terminal.ofLexeme x (piecesOf before) (piecesOf after)).token.chars =
      textOf (before ++ x :: after) := by
  have hg := reads.genuine
  have hbefore : Trivia.chars ⟨piecesOf before⟩ = textOf before :=
    chars_piecesOf (fun y hy => hg y (List.mem_append_left _ hy)) front
  have hafter : Trivia.chars ⟨piecesOf after⟩ = textOf after :=
    chars_piecesOf (fun y hy => hg y (List.mem_append_right _ (List.mem_cons_of_mem x hy))) back
  have hx : x.Genuine := hg x (List.mem_append_right _ List.mem_cons_self)
  rw [textOf_append, textOf_cons, Token.chars, hx.ownChars]
  simp only [Terminal.ofLexeme, hbefore, hafter, List.append_assoc]

/-- The terminal and what is left make up the text. -/
theorem text_eq {p : Nat} {cs r : List Char} {t : Terminal} (h : Yields p cs t r) :
    cs = t.token.chars ++ r := by
  rcases h with ⟨reads, front, core, back, sharp⟩
  rw [chars_ofLexeme reads front back]
  exact reads.text_eq

theorem length_lt {p : Nat} {cs r : List Char} {t : Terminal} (h : Yields p cs t r) :
    r.length < cs.length := by
  rcases h with ⟨reads, front, core, back, sharp⟩
  have hlen := reads.length_le
  rw [List.length_append, List.length_cons] at hlen
  omega

theorem kind_lt {p : Nat} {cs r : List Char} {t : Terminal} (h : Yields p cs t r) :
    t.token.kind.number < Kind.endOfInput.number := by
  rcases h with ⟨reads, front, core, back, sharp⟩
  rename_i before after x
  have hx : x.Genuine := reads.genuine x (List.mem_append_right _ List.mem_cons_self)
  exact Kind.number_lt_of_spells hx.1

/-- Terminals do not depend on what is behind the blanks that follow them. -/
theorem lookahead {p : Nat} {cs r r' : List Char} {t : Terminal} (h : Yields p cs t r)
    (hr : Follows r r') (hsharp : isSharp r' = true) : Yields p (t.token.chars ++ r') t r' := by
  rcases h with ⟨reads, front, core, back, sharp⟩
  rw [chars_ofLexeme reads front back]
  exact .intro (reads.lookahead hr) front core back hsharp

/-- Blanks stand in front of a terminal iff the text does not begin with its lexeme. -/
theorem sharp_iff {p : Nat} {cs r : List Char} {t : Terminal} (h : Yields p cs t r) :
    isSharp cs = true ↔ t.token.leading = .empty := by
  rcases h with ⟨reads, front, core, back, sharp⟩
  rename_i before after x
  -- The first lexeme of the text is the core or a blank in front of it.
  cases before with
  | nil =>
    cases reads with
    | cons read _ => simp [isSharp, read, core, Terminal.ofLexeme, piecesOf, Trivia.empty]
  | cons b bs =>
    have hblank := front b List.mem_cons_self
    rcases exists_piece hblank with ⟨q, hq⟩
    have hlead : (Terminal.ofLexeme x (piecesOf (b :: bs)) (piecesOf after)).token.leading ≠
        .empty := by
      simp [Terminal.ofLexeme, piecesOf, hq, Trivia.empty]
    have hsharp : isSharp cs = false := by
      cases reads with
      | cons read _ => simpa [isSharp, read] using hblank
    simp [hlead, hsharp]

end Yields

/-! ## Gaps and promotions -/

/-- A gap behind some more blanks. An error leaves no blanks. -/
def Gap.behind (ps : List Piece) : Gap → Gap
  | .lexeme blanks x rest => .lexeme (ps ++ blanks) x rest
  | .finish blanks => .finish (ps ++ blanks)
  | .fault f rest => .fault f rest

open Lexeme Text Lexer

/-- Blanks in front of a run are put in front of its gap. -/
theorem Gap.read_blanks {xs : List Lexeme} (hb : AllBlank xs) (run : List (Except Fault Lexeme)) :
    Gap.read (xs.map .ok ++ run) = (Gap.read run).behind (piecesOf xs) := by
  induction xs with
  | nil =>
    simp only [List.map_nil, List.nil_append, piecesOf, List.filterMap_nil]
    cases Gap.read run <;> rfl
  | cons x xs ih =>
    rcases exists_piece (hb x List.mem_cons_self) with ⟨p, hp⟩
    rw [List.map_cons, List.cons_append, Gap.read, piecesOf, List.filterMap_cons_some hp]
    simp only [hp]
    rw [ih fun y hy => hb y (List.mem_cons_of_mem x hy)]
    cases Gap.read run <;> rfl

theorem Gap.read_lexeme {x : Lexeme} (hx : x.kind.isBlank = false)
    (run : List (Except Fault Lexeme)) : Gap.read (.ok x :: run) = .lexeme [] x run := by
  rw [Gap.read, piece?_eq_none hx]

/-- What a gap says of the run that it was read from. -/
def Gap.Of (run : List (Except Fault Lexeme)) : Gap → Prop
  | .lexeme _ x rest => ∃ xs : List Lexeme, run = xs.map .ok ++ .ok x :: rest ∧ x.kind.isBlank = false
  | .finish _ => ∃ xs : List Lexeme, run = xs.map .ok
  | .fault f rest => ∃ xs : List Lexeme, run = xs.map .ok ++ .error f :: rest

/-- A gap cuts the run it is read from at the first lexeme that is no blank, or at an error. -/
theorem Gap.of_read (run : List (Except Fault Lexeme)) : (Gap.read run).Of run := by
  fun_induction Gap.read run with
  | case1 => exact ⟨[], rfl⟩
  | case2 f rest => exact ⟨[], rfl⟩
  | case3 x rest p hp ih =>
    -- A blank in front is one more lexeme that is read without an error.
    cases hgap : Gap.read rest with
    | lexeme blanks y rest' =>
      rw [hgap] at ih
      rcases ih with ⟨xs, rfl, hy⟩
      exact ⟨x :: xs, rfl, hy⟩
    | finish blanks =>
      rw [hgap] at ih
      rcases ih with ⟨xs, rfl⟩
      exact ⟨x :: xs, rfl⟩
    | fault f rest' =>
      rw [hgap] at ih
      rcases ih with ⟨xs, rfl⟩
      exact ⟨x :: xs, rfl⟩
  | case4 x rest hp =>
    refine ⟨[], rfl, ?_⟩
    rw [← x.piece?_isSome, hp]
    rfl

/-- What a promotion says of the run that it was made from: a terminal has the kind and the place of
a lexeme that is no blank, and no error comes before it. -/
def Promotion.Of (position : Nat) (run : List (Except Fault Lexeme)) : Promotion → Prop
  | .terminal t rest => ∃ (xs : List Lexeme) (x : Lexeme) (ys : List Lexeme),
      run = xs.map .ok ++ .ok x :: (ys.map .ok ++ rest) ∧ x.kind.isBlank = false ∧
        t.token.kind = x.kind ∧ t.span = x.span
  | .finish t => (∃ xs : List Lexeme, run = xs.map .ok) ∧ t.token.kind = .endOfInput ∧
      t.span = .empty position
  | .fault f rest => ∃ xs : List Lexeme, run = xs.map .ok ++ .error f :: rest

/-- A promotion takes one lexeme that is no blank off a run, and blanks on both sides of it. -/
theorem promote_of (position : Nat) (run : List (Except Fault Lexeme)) :
    (promote position run).Of position run := by
  unfold promote
  have hfront := Gap.of_read run
  -- The gap in front decides if there is a terminal, the gap behind only if it is spoiled by an
  -- error.
  cases hgap : Gap.read run with
  | fault f rest =>
    rw [hgap] at hfront
    exact hfront
  | finish blanks =>
    rw [hgap] at hfront
    exact ⟨hfront, rfl, rfl⟩
  | lexeme blanks x rest =>
    rw [hgap] at hfront
    rcases hfront with ⟨xs, rfl, hx⟩
    have hback := Gap.of_read rest
    dsimp only
    cases hgap' : Gap.read rest with
    | fault f rest' =>
      rw [hgap'] at hback
      rcases hback with ⟨ys, rfl⟩
      exact ⟨xs ++ x :: ys, by simp⟩
    | finish blanks' =>
      rw [hgap'] at hback
      rcases hback with ⟨ys, rfl⟩
      exact ⟨xs, x, ys, by simp, hx, rfl, rfl⟩
    | lexeme blanks' y rest' =>
      rw [hgap'] at hback
      rcases hback with ⟨ys, rfl, -⟩
      exact ⟨xs, x, ys, rfl, hx, rfl, rfl⟩

/-- A run begins with blanks, and then comes something else or nothing. -/
theorem exists_blanks (run : List (Except Fault Lexeme)) :
    ∃ xs run', run = xs.map .ok ++ run' ∧ AllBlank xs ∧
      ∀ x run'', run' = .ok x :: run'' → x.kind.isBlank = false := by
  -- By induction on the run, up to the first lexeme that is no blank.
  induction run with
  | nil =>
    refine ⟨[], [], rfl, .nil, ?_⟩
    intro x run'' h
    cases h
  | cons e run ih =>
    rcases ih with ⟨xs, run', rfl, hb, hrest⟩
    cases e with
    | error f =>
      refine ⟨[], _, rfl, .nil, ?_⟩
      intro x run'' h
      cases h
    | ok x =>
      cases hx : x.kind.isBlank with
      | true =>
        exact ⟨x :: xs, run', rfl, .cons hx hb, hrest⟩
      | false =>
        refine ⟨[], _, rfl, .nil, ?_⟩
        intro y run'' h
        cases h
        exact hx

/-- The first terminal of a text is the one that its lexer promotes. -/
theorem Yields.promote {p : Nat} {cs r : List Char} {t : Terminal} (h : Yields p cs t r)
    (position : Nat) :
    Lossless.promote position (fresh p cs).run =
      .terminal t (fresh (p + width t.token.chars) r).run := by
  rcases h with ⟨reads, front, core, back, sharp⟩
  rename_i before after x
  rw [chars_ofLexeme reads front back, reads.run_eq, List.map_append, List.map_cons,
    List.append_assoc, List.cons_append, Lossless.promote, Gap.read_blanks front,
    Gap.read_lexeme core]
  simp only [Gap.behind, List.append_nil]
  -- Behind the blanks the text ends or goes on with a lexeme that is no blank.
  rw [Gap.read_blanks back]
  generalize p + width (textOf (before ++ x :: after)) = q
  cases r with
  | nil => simp [run_fresh_nil, Gap.read, Gap.behind]
  | cons c r =>
    simp only [isSharp] at sharp
    split at sharp
    · rename_i kind value he
      rw [run_fresh_of_ok he]
      have hkind : kind.isBlank = false := by simpa using sharp
      rw [Gap.read_lexeme hkind]
      simp [Gap.behind]
    · cases sharp

/-- Behind the blanks at the beginning of a text stands a lexical error. -/
inductive Faulty : Nat → List Char → Fault → Prop where
  | intro {p : Nat} {cs r : List Char} {c : Char} {xs : List Lexeme} {cause : LexicalCause}
      (reads : Reads p cs xs (c :: r)) (blank : AllBlank xs)
      (failed : evaluate (scan c r).shape (scan c r).taken = .error cause) :
      Faulty p cs ⟨cause, ⟨p + width (textOf xs), p + width (textOf xs) + width (scan c r).taken⟩⟩

/-- Behind the blanks at the beginning of a text something else stands, or an error, or nothing. -/
theorem sharp_or_faulty (p : Nat) (cs : List Char) :
    (∃ xs r, Reads p cs xs r ∧ AllBlank xs ∧ isSharp r = true) ∨ ∃ f, Faulty p cs f := by
  rcases exists_blanks (fresh p cs).run with ⟨xs, run, hrun, hb, hnext⟩
  rcases Reads.of_run hrun with ⟨r, hreads, rfl⟩
  cases r with
  | nil => exact Or.inl ⟨xs, [], hreads, hb, rfl⟩
  | cons c r =>
    cases he : evaluate (scan c r).shape (scan c r).taken with
    | error cause => exact Or.inr ⟨_, .intro hreads hb he⟩
    | ok result =>
      have hx := hnext _ _ (run_fresh_of_ok he)
      refine Or.inl ⟨xs, c :: r, hreads, hb, ?_⟩
      simpa [isSharp, he] using hx

theorem Faulty.gap {p : Nat} {cs : List Char} {f : Fault} (h : Faulty p cs f) :
    ∃ rest, Gap.read (fresh p cs).run = .fault f rest := by
  rcases h with ⟨reads, blank, failed⟩
  rcases run_fresh_of_error failed with ⟨run, hrun⟩
  refine ⟨run, ?_⟩
  rw [reads.run_eq, Gap.read_blanks blank, hrun]
  rfl

/-! ## Streams -/

namespace Stream

/-- A stream is given by what is promoted first. -/
theorem ofRun_eq (position : Nat) (run : List (Except Fault Lexeme)) :
    ofRun position run =
      match promote position run with
      | .terminal t rest => (ofRun position rest).cons t
      | .finish t => ⟨[t], .finish position⟩
      | .fault f _ => ⟨[], .fault f⟩ := by
  rw [ofRun]
  split <;> rename_i h <;> rw [h]

/-- A stream begins with the first terminal of the text and goes on behind it. -/
theorem ofLexer_of_yields {p : Nat} {cs r : List Char} {t : Terminal} (h : Yields p cs t r) :
    ofLexer (fresh p cs) = (ofLexer (fresh (p + width t.token.chars) r)).cons t := by
  have hfinish : (fresh p cs).finish = (fresh (p + width t.token.chars) r).finish := by
    rw [finish_fresh, finish_fresh, h.text_eq, width_append, Nat.add_assoc]
  rw [ofLexer, ofLexer, ofRun_eq, h.promote, hfinish]

/-- The stream of a blank text has only the terminal at the end. -/
theorem ofLexer_of_blank {p : Nat} {cs : List Char} {xs : List Lexeme} (h : Reads p cs xs [])
    (hb : AllBlank xs) :
    ofLexer (fresh p cs) =
      ⟨[.finish (p + width cs) (piecesOf xs)], .finish (p + width cs)⟩ := by
  rw [ofLexer, ofRun_eq, promote, h.run_eq, Gap.read_blanks hb, run_fresh_nil]
  simp [Gap.read, Gap.behind, finish_fresh]

/-- The stream of a text that begins with an error has no terminals. -/
theorem ofLexer_of_faulty {p : Nat} {cs : List Char} {f : Fault} (h : Faulty p cs f) :
    ofLexer (fresh p cs) = ⟨[], .fault f⟩ := by
  rcases h.gap with ⟨rest, hgap⟩
  rw [ofLexer, ofRun_eq, promote, hgap]

/-- A terminal is lost if an error stands behind the blanks that follow it. -/
theorem ofLexer_of_faulty_behind {p : Nat} {cs r : List Char} {before : List Lexeme} {x : Lexeme}
    {f : Fault} (reads : Reads p cs (before ++ [x]) r) (front : AllBlank before)
    (core : x.kind.isBlank = false)
    (h : Faulty (p + width (textOf (before ++ [x]))) r f) :
    ofLexer (fresh p cs) = ⟨[], .fault f⟩ := by
  rcases h.gap with ⟨rest, hgap⟩
  rw [ofLexer, ofRun_eq, promote, reads.run_eq, List.map_append, List.append_assoc,
    Gap.read_blanks front]
  simp only [List.map_cons, List.map_nil, List.cons_append, List.nil_append]
  rw [Gap.read_lexeme core]
  simp only [Gap.behind, hgap]

/-- A stream begins with a terminal, consists of the terminal at the end, or begins with an
error. -/
theorem ofLexer_cases (p : Nat) (cs : List Char) :
    (∃ t r, Yields p cs t r) ∨ (∃ xs, Reads p cs xs [] ∧ AllBlank xs) ∨
      ∃ f, ofLexer (fresh p cs) = ⟨[], .fault f⟩ := by
  rcases sharp_or_faulty p cs with ⟨before, m, hfront, front, hm⟩ | ⟨f, hf⟩
  · cases m with
    | nil => exact Or.inr (Or.inl ⟨before, hfront, front⟩)
    | cons c m =>
      simp only [isSharp] at hm
      split at hm
      · rename_i kind value he
        have core : kind.isBlank = false := by simpa using hm
        have hx := hfront.append (.cons he .nil)
        -- The terminal is complete only when the end of its blanks is known.
        rcases sharp_or_faulty _ (scan c m).rest with ⟨after, r, hafter, back, sharp⟩ | ⟨f, hf⟩
        · have hreads := hx.append hafter
          rw [List.append_assoc] at hreads
          exact Or.inl ⟨_, r, .intro hreads front core back sharp⟩
        · exact Or.inr (Or.inr ⟨f, ofLexer_of_faulty_behind hx front core hf⟩)
      · cases hm
  · exact Or.inr (Or.inr ⟨f, ofLexer_of_faulty hf⟩)

end Stream

/-! ## Terminals in a row -/

def Terminal.charsOf (ts : List Terminal) : List Char := ts.flatMap fun t => t.token.chars

@[simp] theorem Terminal.charsOf_nil : charsOf [] = [] := rfl

@[simp] theorem Terminal.charsOf_cons (t : Terminal) (ts : List Terminal) :
    charsOf (t :: ts) = t.token.chars ++ charsOf ts := rfl

@[simp] theorem Terminal.charsOf_append (ts us : List Terminal) :
    charsOf (ts ++ us) = charsOf ts ++ charsOf us := List.flatMap_append

/-- Terminals in a row at the beginning of a text at a position, and the text behind them. -/
inductive Yielding : Nat → List Char → List Terminal → List Char → Prop where
  | nil {p : Nat} {cs : List Char} : Yielding p cs [] cs
  | cons {p : Nat} {cs m r : List Char} {t : Terminal} {ts : List Terminal}
      (first : Yields p cs t m) (more : Yielding (p + width t.token.chars) m ts r) :
      Yielding p cs (t :: ts) r

namespace Yielding

open Terminal

/-- The terminals and what is left make up the text. -/
theorem text_eq {p : Nat} {cs r : List Char} {ts : List Terminal} (h : Yielding p cs ts r) :
    cs = charsOf ts ++ r := by
  induction h with
  | nil => rfl
  | cons first _ ih => rw [charsOf_cons, List.append_assoc, ← ih, ← first.text_eq]

/-- The stream of the text begins with the terminals and goes on behind them. -/
theorem stream_eq {p : Nat} {cs r : List Char} {ts : List Terminal} (h : Yielding p cs ts r) :
    Stream.ofLexer (fresh p cs) =
      ⟨ts ++ (Stream.ofLexer (fresh (p + width (charsOf ts)) r)).terminals,
        (Stream.ofLexer (fresh (p + width (charsOf ts)) r)).ending⟩ := by
  induction h with
  | nil => rfl
  | cons first _ ih =>
    rw [Stream.ofLexer_of_yields first, ih, charsOf_cons, width_append, ← Nat.add_assoc]
    rfl

/-- No terminal that a text yields is the end of input. -/
theorem kind_lt {p : Nat} {cs r : List Char} {ts : List Terminal} (h : Yielding p cs ts r) :
    ∀ t ∈ ts, t.token.kind.number < Kind.endOfInput.number := by
  induction h with
  | nil => simp
  | cons first _ ih =>
    intro t ht
    rcases List.mem_cons.1 ht with rfl | ht
    · exact first.kind_lt
    · exact ih t ht

/-- What yields two runs of terminals yields the first, and then the second where the first ends. -/
theorem split {p : Nat} {cs r : List Char} {ts us : List Terminal}
    (h : Yielding p cs (ts ++ us) r) :
    ∃ m, Yielding p cs ts m ∧ Yielding (p + width (charsOf ts)) m us r := by
  induction ts generalizing p cs with
  | nil => exact ⟨cs, .nil, h⟩
  | cons t ts ih =>
    cases h with
    | cons first more =>
      rcases ih more with ⟨m, h₁, h₂⟩
      refine ⟨m, .cons first h₁, ?_⟩
      rw [charsOf_cons, width_append, ← Nat.add_assoc]
      exact h₂

/-- Runs of terminals that follow each other are yielded together. -/
theorem append {p : Nat} {cs m r : List Char} {ts us : List Terminal} (h₁ : Yielding p cs ts m)
    (h₂ : Yielding (p + width (charsOf ts)) m us r) : Yielding p cs (ts ++ us) r := by
  induction h₁ with
  | nil => exact h₂
  | cons first _ ih =>
    refine .cons first (ih ?_)
    rw [charsOf_cons, width_append, ← Nat.add_assoc] at h₂
    exact h₂

/-- No blank is left behind a terminal. -/
theorem sharp {p : Nat} {cs r : List Char} {ts : List Terminal} (h : Yielding p cs ts r)
    (hts : ts ≠ []) : isSharp r = true := by
  induction h with
  | nil => exact absurd rfl hts
  | @cons p cs m r t ts first more ih =>
    cases ts with
    | nil =>
      cases more
      rcases first with ⟨_, _, _, _, sharp⟩
      exact sharp
    | cons u us => exact ih (by simp)

/-- Terminals in a row do not depend on what is behind the blanks that follow them. -/
theorem lookahead {p : Nat} {cs r r' : List Char} {ts : List Terminal} (h : Yielding p cs ts r)
    (hr : Follows r r') (hsharp : isSharp r' = true) : Yielding p (charsOf ts ++ r') ts r' := by
  induction h with
  | nil => exact .nil
  | @cons p cs m r t ts first more ih =>
    have hmore := ih hr
    have hm : Follows m (charsOf ts ++ r') := by
      rw [more.text_eq]
      exact hr.append (charsOf ts)
    -- The next terminal, if there is one, still begins with its lexeme.
    have hnext : isSharp (charsOf ts ++ r') = true := by
      cases hmore with
      | nil => exact hsharp
      | cons second _ =>
        cases more with
        | cons second' _ =>
          rcases first with ⟨_, _, _, _, hmid⟩
          exact second.sharp_iff.2 (second'.sharp_iff.1 hmid)
    rw [charsOf_cons, List.append_assoc]
    exact .cons (first.lookahead hm hnext) hmore

end Yielding

/-- Every text consists of terminals up to its end or to the first error. -/
theorem exists_yielding (p : Nat) (cs : List Char) :
    ∃ ts r, Yielding p cs ts r ∧
      ((∃ xs, Reads (p + width (Terminal.charsOf ts)) r xs [] ∧ AllBlank xs) ∨
        ∃ f, Stream.ofLexer (fresh (p + width (Terminal.charsOf ts)) r) = ⟨[], .fault f⟩) := by
  -- A terminal is not empty, so the text behind it is shorter.
  induction hn : cs.length using Nat.strongRecOn generalizing p cs with
  | ind n ih =>
    rcases Stream.ofLexer_cases p cs with ⟨t, m, hy⟩ | hend
    · have hlt := hy.length_lt
      rw [hn] at hlt
      rcases ih m.length hlt (p + width t.token.chars) m rfl with ⟨ts, r, hts, hrest⟩
      refine ⟨t :: ts, r, .cons hy hts, ?_⟩
      rw [Terminal.charsOf_cons, width_append, ← Nat.add_assoc]
      exact hrest
    · exact ⟨[], cs, .nil, hend⟩

end Lossless
