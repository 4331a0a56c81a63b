import Lossless.Proofs.Concatenation
import Lossless.Proofs.Layout
import Lossless.Proofs.Reading

/-!
# The blanks between terminals

Blanks are cut into pieces twice: by the lexer, whose blank lexemes a reader attaches to terminals,
and by `Trivia.ofChars?`, which goes through a text of blanks on its own. The two agree on every
text. `Spaced` says what follows for tokens in a row: each has the trivia that its blanks are read
as, only the first has blanks in front, and the blanks behind a token are all that stand there.

* `Stream.placed`: every terminal of a stream is spaced like this;
* `Covers`: the tokens of a tree stand for stretches of the stream, one terminal or several that
  were joined, and a stretch begins and ends with the blanks of its terminals;
* `spaced_of_read_or_parsed` puts them together for readers and for trees.
-/

namespace Lossless

open Lexeme Text Lexer

/-- The trivia is what its text is read as. -/
def Trivia.Rereads (t : Trivia) : Prop := ofChars? t.chars = some t

theorem Trivia.rereads_empty : empty.Rereads := rfl

/-- Tokens in a row at the beginning of a text. Their blanks are what the text of the blanks is read
as, there are blanks in front of the first one at most, and behind the blanks of a token the text
goes on with the next token itself, at any rate with no blank. -/
structure Spaced (text : List Char) (ts : List Token) : Prop where
  leading : ∀ t ∈ ts, t.leading.Rereads
  trailing : ∀ t ∈ ts, t.trailing.Rereads
  first : ∀ t ∈ ts.tail, t.leading = .empty
  maximal : ∀ front t back, ts = front ++ t :: back →
    ∃ rest, text = (front ++ [t]).flatMap Token.chars ++ rest ∧ startsBlank rest = false ∧
      ∀ u ∈ back.head?, u.ownChars <+: rest

/-- The terminals that a reader has made in the course of some calls: those that it has handed out
and then those that still wait to be. -/
def Reader.made (r : Reader) (calls : List Request) : List Terminal :=
  (r.transcript calls).filterMap Exchange.read? ++ (r.after calls).queue

/-! ## Terminals of a text -/

/-- Blank lexemes become trivia that is read back. -/
theorem Reads.rereads {p : Nat} {cs r : List Char} {xs : List Lexeme} (h : Reads p cs xs r)
    (hb : AllBlank xs) : Trivia.Rereads ⟨piecesOf xs⟩ := by
  unfold Trivia.Rereads
  rw [chars_piecesOf h.genuine hb, Trivia.ofChars?, h.readPieces?_textOf hb, Option.map_some]

/-- The blanks around a terminal are read back as they are. -/
theorem Yields.rereads {p : Nat} {cs r : List Char} {t : Terminal} (h : Yields p cs t r) :
    t.token.leading.Rereads ∧ t.token.trailing.Rereads := by
  rcases h with ⟨reads, front, core, back, sharp⟩
  rcases reads.split with ⟨m, hbefore, hrest⟩
  cases hrest with
  | cons read hafter => exact ⟨hbefore.rereads front, hafter.rereads back⟩

namespace Stream

/-- The terminal at place `i` of the stream of a text, with the blanks around it. -/
structure Placed (cs : List Char) (S : Stream) (i : Nat) (x : Terminal) : Prop where
  leading : x.token.leading.Rereads
  trailing : x.token.trailing.Rereads
  inner : 0 < i → x.token.leading = .empty
  behind : ∃ rest, cs = Terminal.charsOf (S.terminals.take (i + 1)) ++ rest ∧
    startsBlank rest = false

/-- The terminal at the end of a text has the blanks at the end if no other terminal has them. -/
theorem leading_of_end {p i : Nat} {cs : List Char} {x : Terminal}
    (h : (ofLexer (fresh p cs)).ahead i = .ok x) (hk : x.token.kind = .endOfInput) :
    x.token.leading.Rereads ∧ x.token.trailing.Rereads ∧ (0 < i → x.token.leading = .empty) := by
  rcases exists_yielding p cs with ⟨ts, r, hts, hend⟩
  by_cases hi : i < ts.length
  · -- The terminals in front of the end are of other kinds.
    rw [hts.stream_eq] at h
    simp only [ahead, List.getElem?_append_left hi, List.getElem?_eq_getElem hi] at h
    cases h
    have hlt := hts.kind_lt ts[i] (List.getElem_mem hi)
    rw [hk] at hlt
    exact absurd hlt (Nat.lt_irrefl _)
  · have hdrop := drop_of_yielding hts
    obtain ⟨j, rfl⟩ := Nat.exists_eq_add_of_le (Nat.le_of_not_lt hi)
    rw [← ahead_drop, hdrop] at h
    rcases hend with ⟨xs, hxs, hblank⟩ | ⟨f, hf⟩
    · have hstream := ofLexer_of_blank hxs hblank
      rw [hstream] at h
      cases j with
      | zero =>
        cases h
        refine ⟨hxs.rereads hblank, Trivia.rereads_empty, ?_⟩
        intro hpos
        have hne : ts ≠ [] := List.length_pos_iff.1 hpos
        exact leading_of_sharp (hts.sharp hne) (congrArg Stream.terminals hstream)
      | succ j =>
        cases h
        exact ⟨Trivia.rereads_empty, Trivia.rereads_empty, fun _ => rfl⟩
    · rw [hf] at h
      cases h

/-- Every terminal of a text has the blanks around it that are read from the text. -/
theorem placed {p i : Nat} {cs : List Char} {x : Terminal}
    (h : (ofLexer (fresh p cs)).ahead i = .ok x) : Placed cs (ofLexer (fresh p cs)) i x := by
  -- The end has all blanks that are left; any other terminal is yielded from some place of the
  -- text.
  by_cases hk : x.token.kind = .endOfInput
  · rcases leading_of_end h hk with ⟨hleading, htrailing, hinner⟩
    refine ⟨hleading, htrailing, hinner, [], ?_, rfl⟩
    rcases chars_of_behind_end ⟨i, x, h, hk, rfl⟩ with ⟨hall, hnone⟩
    have hnone : Terminal.charsOf ((ofLexer (fresh p cs)).terminals.drop (i + 1)) = [] := hnone
    rw [← hnone, ← Terminal.charsOf_append, List.take_append_drop]
    exact hall.symm
  · rcases yields_of_ahead h hk with ⟨us, m, r, rfl, hus, hx⟩
    rcases hx.rereads with ⟨hleading, htrailing⟩
    have hall := hus.append (.cons hx .nil)
    refine ⟨hleading, htrailing, ?_, r, ?_, not_startsBlank_of_sharp hx.sharp⟩
    · intro hpos
      exact hx.sharp_iff.1 (hus.sharp (List.length_pos_iff.1 hpos))
    · have htake : (ofLexer (fresh p cs)).terminals.take (us.length + 1) = us ++ [x] := by
        rw [hall.stream_eq]
        exact List.take_left' (by simp)
      rw [htake]
      exact hall.text_eq

/-- One terminal more is its text more, also at the end of the text, where the last terminal is
shown again and again. -/
theorem charsOf_take_succ {S : Stream} {i : Nat} {x : Terminal} (h : S.ahead i = .ok x) :
    Terminal.charsOf (S.terminals.take (i + 1)) =
      Terminal.charsOf (S.terminals.take i) ++ x.token.chars := by
  rw [List.take_add_one, Terminal.charsOf_append]
  unfold ahead at h
  cases hx : S.terminals[i]? with
  | some y =>
    rw [hx] at h
    cases h
    simp
  | none =>
    -- Past the end the text does not grow any more.
    rw [hx] at h
    cases hend : S.ending with
    | finish position =>
      rw [hend] at h
      cases h
      rfl
    | fault f =>
      rw [hend] at h
      cases h

end Stream

/-! ## Tokens for stretches of a stream -/

open Terminal

/-- The token stands for the terminals `i` to `j` of a stream: it has the blanks in front of the
first and behind the last, and the text of all. -/
structure StandsFor (S : Stream) (i j : Nat) (t : Token) : Prop where
  first : ∃ x, S.ahead i = .ok x ∧ t.leading = x.token.leading
  last : ∃ y, S.ahead j = .ok y ∧ t.trailing = y.token.trailing
  chars : charsOf (S.terminals.take (j + 1)) = charsOf (S.terminals.take i) ++ t.chars

/-- The tokens stand, one after the other, for the terminals `i` up to `k` of a stream. -/
inductive Covers (S : Stream) : Nat → List Token → Nat → Prop where
  | nil {i : Nat} : Covers S i [] i
  | cons {i j k : Nat} {t : Token} {ts : List Token} (first : StandsFor S i j t)
      (more : Covers S (j + 1) ts k) : Covers S i (t :: ts) k

/-- A token with the blanks and the text of a terminal stands for it alone. -/
theorem StandsFor.of_ahead {S : Stream} {i : Nat} {x : Terminal} {t : Token}
    (h : S.ahead i = .ok x) (hleading : t.leading = x.token.leading)
    (htrailing : t.trailing = x.token.trailing) (hchars : t.chars = x.token.chars) :
    StandsFor S i i t where
  first := ⟨x, h, hleading⟩
  last := ⟨x, h, htrailing⟩
  chars := by rw [Stream.charsOf_take_succ h, hchars]

namespace Covers

variable {S : Stream} {i j k : Nat} {t : Token} {ts us : List Token}

theorem append (h₁ : Covers S i ts j) (h₂ : Covers S j us k) : Covers S i (ts ++ us) k := by
  induction h₁ with
  | nil => exact h₂
  | cons first _ ih => exact .cons first (ih h₂)

/-- Where tokens stand for terminals in a row, a cut between two tokens is one between two
terminals. -/
theorem split (h : Covers S i (ts ++ us) k) : ∃ j, Covers S i ts j ∧ Covers S j us k := by
  induction ts generalizing i with
  | nil => exact ⟨i, .nil, h⟩
  | cons t ts ih =>
    cases h with
    | cons first more =>
      rcases ih more with ⟨j, h₁, h₂⟩
      exact ⟨j, .cons first h₁, h₂⟩

theorem pos (h : Covers S i ts k) (hi : 0 < i) : 0 < k := by
  induction h with
  | nil => exact hi
  | cons _ _ ih => exact ih (Nat.succ_pos _)

/-- The tokens have the text of the terminals that they stand for. -/
theorem chars (h : Covers S i ts k) :
    charsOf (S.terminals.take k) = charsOf (S.terminals.take i) ++ ts.flatMap Token.chars := by
  induction h with
  | nil => simp
  | cons first _ ih => rw [ih, first.chars, List.flatMap_cons, List.append_assoc]

/-- Behind the last token stand the blanks behind the last terminal. -/
theorem last (h : Covers S i (t :: ts) k) :
    ∃ j y, k = j + 1 ∧ S.ahead j = .ok y ∧
      ((t :: ts).getLast?.map Token.trailing).getD .empty = y.token.trailing := by
  induction ts generalizing t i with
  | nil =>
    cases h with
    | @cons _ j _ _ _ first more =>
      cases more
      rcases first.last with ⟨y, hy, htrailing⟩
      exact ⟨j, y, rfl, hy, htrailing⟩
  | cons u us ih =>
    cases h with
    | cons _ more =>
      rw [List.getLast?_cons_cons]
      exact ih more

/-- Tokens that are fused stand for all that they stood for. -/
theorem fuse {kind : Kind} (hk : kind ≠ .stringLit) (h : Covers S i ts k) (hne : ts ≠ []) :
    Covers S i [.fuse kind ts] k := by
  cases ts with
  | nil => exact absurd rfl hne
  | cons t ts =>
    have hchars := h.chars
    rcases h.last with ⟨j, y, rfl, hy, htrailing⟩
    refine .cons ⟨?_, ⟨y, hy, htrailing⟩, ?_⟩ .nil
    · cases h with
      | cons first _ => exact first.first
    · rw [Token.chars_fuse hk]
      exact hchars

/-- Each of the tokens stands for a stretch, which begins at the first place or later. -/
theorem exists_standsFor (h : Covers S i ts k) (ht : t ∈ ts) :
    ∃ a b, StandsFor S a b t ∧ (0 < i → 0 < a) := by
  rcases List.append_of_mem ht with ⟨front, back, rfl⟩
  rcases h.split with ⟨a, hfront, hback⟩
  cases hback with
  | @cons _ b _ _ _ first _ => exact ⟨a, b, first, hfront.pos⟩

/-- Behind the blanks of a token the text goes on with the next token itself, or at least with no
blank. -/
theorem maximal {p : Nat} {cs : List Char} {front back : List Token}
    (h : Covers (.ofLexer (fresh p cs)) 0 (front ++ t :: back) k) :
    ∃ rest, cs = (front ++ [t]).flatMap Token.chars ++ rest ∧ startsBlank rest = false ∧
      ∀ u ∈ back.head?, u.ownChars <+: rest := by
  rcases h.split with ⟨i, hfront, hback⟩
  cases hback with
  | @cons _ j _ _ _ first more =>
    rcases first.last with ⟨y, hy, -⟩
    rcases (Stream.placed hy).behind with ⟨rest, hcs, hrest⟩
    refine ⟨rest, ?_, hrest, ?_⟩
    · rw [hcs, (hfront.append (.cons first .nil)).chars]
      simp
    · intro u hu
      cases more with
      | nil => cases hu
      | cons next _ =>
        cases hu
        -- The text behind `t` is that of `u` and what comes behind it.
        rcases next.first with ⟨x, hx, hleading⟩
        rcases next.last with ⟨z, hz, -⟩
        rcases (Stream.placed hz).behind with ⟨rest', hcs', -⟩
        rw [next.chars, List.append_assoc] at hcs'
        have hsame := List.append_cancel_left (hcs.symm.trans hcs')
        refine ⟨u.trailing.chars ++ rest', ?_⟩
        rw [hsame, Token.chars, hleading, (Stream.placed hx).inner (Nat.succ_pos j)]
        simp

/-- Tokens that stand for the first terminals of a text are spaced as the text is. -/
theorem spaced {p : Nat} {cs : List Char} (h : Covers (.ofLexer (fresh p cs)) 0 ts k) :
    Spaced cs ts := by
  constructor
  · intro t ht
    rcases h.exists_standsFor ht with ⟨a, b, hstands, -⟩
    rcases hstands.first with ⟨x, hx, hleading⟩
    rw [hleading]
    exact (Stream.placed hx).leading
  · intro t ht
    rcases h.exists_standsFor ht with ⟨a, b, hstands, -⟩
    rcases hstands.last with ⟨y, hy, htrailing⟩
    rw [htrailing]
    exact (Stream.placed hy).trailing
  · intro t ht
    -- Only tokens behind the first are asked for, and these stand for later terminals.
    cases h with
    | nil => cases ht
    | cons _ more =>
      rcases more.exists_standsFor ht with ⟨a, b, hstands, hpos⟩
      rcases hstands.first with ⟨x, hx, hleading⟩
      rw [hleading]
      exact (Stream.placed hx).inner (hpos (Nat.succ_pos _))
  · rintro front t back rfl
    exact h.maximal

end Covers

/-! ## Trees -/

namespace Grammar

open Node

variable {S : Stream}

/-- A terminal that is taken keeps its text. -/
theorem Faithful.chars_take {tag : Option Kind} {next : Step} {nodes : List Node} {s : State}
    {x : Terminal} (h : Faithful (.take tag next) nodes s) (seen : s.stream.ahead 0 = .ok x) :
    (leaf tag x).chars = x.token.chars := by
  have hmoved := (h.take seen).1
  rw [List.reverse_cons, charsIn_append, charsIn_singleton, List.append_assoc,
    Stream.chars_of_ahead seen] at hmoved
  exact List.append_cancel_right (List.append_cancel_left hmoved)

/-- A terminal that is taken stands for itself. -/
theorem covers_leaf {i : Nat} {x : Terminal} {tag : Option Kind} (h : S.ahead i = .ok x)
    (hchars : (leaf tag x).chars = x.token.chars) : Covers S i (leaf tag x).tokens (i + 1) := by
  rw [leaf, tokens]
  rw [leaf, chars_token] at hchars
  exact .cons (.of_ahead h rfl rfl hchars) .nil

/-- Terminals that are joined become one token, which stands for all of them. -/
theorem covers_joined {i k : Nat} {kind : Kind} {ns : List Node} (hk : kind ≠ .stringLit)
    (hne : ns ≠ []) (hflat : ∀ n ∈ ns, n.isToken = true) (h : Covers S i (tokensIn ns) k) :
    Covers S i (joined kind ns).tokens k := by
  rw [joined_flat hne hflat, tokens]
  refine h.fuse hk ?_
  cases ns with
  | nil => exact absurd rfl hne
  | cons n ns =>
    cases n with
    | token t => simp [tokensIn, tokens]
    | tree kind cs => cases hflat _ List.mem_cons_self

theorem tokensIn_reverse_cons (n : Node) (nodes : List Node) :
    tokensIn (n :: nodes).reverse = tokensIn nodes.reverse ++ n.tokens := by
  simp [tokensIn]

/-- The one rule that joins terminals to something else than the text of a comment. -/
theorem Parses.covers_ctorMark {j : Nat} {s s' : State} {node : Node}
    (h : Parses Rule.ctorMark.body [] s node s') (hs : s.stream = S.drop j) :
    ∃ k, s'.stream = S.drop k ∧ Covers S j node.tokens k := by
  rcases Parses.ctorMark_iff.1 h with ⟨x, y, hx, -, hy, -, rfl, rfl⟩
  rw [hs, Stream.tail_drop, Stream.ahead_drop] at hy
  rw [hs, Stream.ahead_drop] at hx
  have hleaf : ∀ z : Terminal, (leaf none z).chars = z.token.chars := fun _ =>
    chars_leaf (Or.inl rfl)
  have hrow := (covers_leaf hx (hleaf x)).append (covers_leaf hy (hleaf y))
  refine ⟨j + 2, ?_, covers_joined (by decide) (by simp) (by simp [leaf, isToken, token?]) ?_⟩
  · show s.stream.tail.tail = _
    rw [hs, Stream.tail_drop, Stream.tail_drop]
  · simpa [tokensIn] using hrow

/-- The tokens of a node stand for the terminals from which it was made. -/
theorem Parses.covers {step : Step} {nodes : List Node} {s s' : State} {node : Node}
    (h : Parses step nodes s node s') :
    ∀ {i j : Nat} {filled : Bool}, s.stream = S.drop j → Plain step filled →
      (filled = true → nodes ≠ []) → Faithful step nodes s →
      Covers S i (tokensIn nodes.reverse) j →
      ∃ k, s'.stream = S.drop k ∧ Covers S i node.tokens k := by
  -- The nodes collected so far stand for the terminals from `i` up to the place `j` of the parse.
  induction h with
  | look seen _ ih =>
    intro i j filled hs hplain hfilled hf hrow
    exact ih hs (hplain _) hfilled (hf.look seen) hrow
  | @take tag next nodes s s' x node seen rest ih =>
    intro i j filled hs hplain hfilled hf hrow
    have hleaf := hf.chars_take seen
    have hnext := (hf.take seen).2
    have htail : s.stream.tail = S.drop (j + 1) := by rw [hs, Stream.tail_drop]
    rw [hs, Stream.ahead_drop] at seen
    refine ih htail hplain (fun _ => List.cons_ne_nil _ _) hnext ?_
    rw [tokensIn_reverse_cons]
    exact hrow.append (covers_leaf seen hleaf)
  | @call rule next nodes s s₁ s' inner node called rest ihc ih =>
    intro i j filled hs hplain hfilled hf hrow
    -- The rule that is called begins a stretch of its own.
    have hcalled : ∃ k, s₁.stream = S.drop k ∧ Covers S j inner.tokens k := by
      by_cases hrule : rule = .ctorMark
      · subst hrule
        exact called.covers_ctorMark hs
      · exact ihc hs (plain_body hrule) (by simp) (.body rule s) .nil
    rcases hcalled with ⟨k, hs₁, hinner⟩
    refine ih hs₁ hplain (fun _ => List.cons_ne_nil _ _) (hf.call inner s₁) ?_
    rw [tokensIn_reverse_cons]
    exact hrow.append hinner
  | goto _ ih =>
    intro i j filled hs hplain hfilled hf hrow
    exact ih hs (plain_body hplain) (by simp) hf.goto hrow
  | gather _ ih =>
    intro i j filled hs hplain hfilled hf hrow
    refine ih hs hplain (fun _ => List.cons_ne_nil _ _) hf.gather ?_
    simpa [tokensIn, tokens] using hrow
  | note _ ih =>
    intro i j filled hs hplain hfilled hf hrow
    exact ih hs hplain hfilled (hf.note _) hrow
  | close =>
    intro i j filled hs hplain hfilled hf hrow
    refine ⟨j, hs, ?_⟩
    rw [tokens]
    exact hrow
  | @join kind nodes s =>
    intro i j filled hs hplain hfilled hf hrow
    rcases hplain with ⟨rfl, hfull⟩
    refine ⟨j, hs, covers_joined (by decide) ?_ ?_ hrow⟩
    · simpa using hfilled hfull
    · simpa using hf.flat

/-- A tree that is parsed from a text stands for the first terminals of the text. -/
theorem spaced_of_parse {rule : Rule} {entry : rule.needs = 0} (hrule : rule ≠ .ctorMark) {p : Nat}
    {cs : List Char} {node : Node}
    (h : (parse rule entry (.ofLexer (fresh p cs))).result = .ok node) : Spaced cs node.tokens := by
  rcases parse_ok_iff.1 h with ⟨s', hparses⟩
  rcases hparses.covers (j := 0) rfl (plain_body hrule) (by simp) (.body rule _) .nil with
    ⟨k, -, hcovers⟩
  exact hcovers.spaced

end Grammar

/-! ## Readers -/

namespace Reader

/-- The end of a text repeats. -/
theorem ahead_ofRun_nil (position i : Nat) :
    (Stream.ofRun position []).ahead i = .ok (.finish position []) := by
  rw [Stream.ofRun_eq]
  cases i <;> rfl

/-- A reader that meets no error gives the terminals of the stream. -/
theorem nth_eq_ahead {r : Reader} (hq : r.queue = []) (hok : ∀ read ∈ r.run, read.isOk = true)
    (i : Nat) : r.nth i = (Stream.ofRun r.position r.run).ahead i := by
  -- By induction on the place: each read leaves a reader that again meets no error.
  induction i generalizing r with
  | zero =>
    rw [nth_zero, read_of_nil hq, advance, Stream.ofRun_eq]
    cases promote r.position r.run <;> rfl
  | succ i ih =>
    rw [← nth_read, read_of_nil hq, advance, Stream.ofRun_eq]
    have hof := promote_of r.position r.run
    cases hpromote : promote r.position r.run with
    | terminal t rest =>
      rw [hpromote] at hof
      rcases hof with ⟨xs, x, ys, hrun, -⟩
      refine ih (r := { r with run := rest }) hq ?_
      intro read hread
      exact hok read (by rw [hrun]; simp [hread])
    | finish t =>
      have hend := ih (r := { r with run := [] }) hq (by simp)
      rw [ahead_ofRun_nil] at hend
      exact hend
    | fault f rest =>
      rw [hpromote] at hof
      rcases hof with ⟨xs, hrun⟩
      have herror := hok (.error f) (by rw [hrun]; simp)
      cases herror

variable {p : Nat} {cs : List Char}

/-- The results of a reader of a clean text are the terminals of its stream. -/
theorem exists_nth (h : (fresh p cs).Clean) (n : Nat) :
    ∃ x, (Stream.ofLexer (fresh p cs)).ahead n = .ok x ∧ (ofLexer (fresh p cs)).nth n = .ok x := by
  rcases Stream.exists_ends h with ⟨k, position, hends⟩
  have hnth := nth_eq_ahead (r := ofLexer (fresh p cs)) rfl h n
  exact ⟨_, hends.ahead_eq n, hnth.trans (hends.ahead_eq n)⟩

/-- The results of a reader that meets no error stand for themselves. -/
theorem covers_successes (h : (fresh p cs).Clean) (n : Nat) :
    Covers (.ofLexer (fresh p cs)) 0
        (((ofLexer (fresh p cs)).successes n).map Terminal.token) n ∧
      (ofLexer (fresh p cs)).failures n = [] := by
  induction n with
  | zero => exact ⟨.nil, rfl⟩
  | succ n ih =>
    rcases ih with ⟨hcovers, hnone⟩
    rcases exists_nth h n with ⟨x, hx, hnth⟩
    rw [successes_succ, failures_succ, hnth, hnone, List.map_append]
    exact ⟨hcovers.append (.cons (.of_ahead hx rfl rfl rfl) .nil), rfl⟩

/-- A reader that meets no error makes terminals that are spaced as the text is. -/
theorem spaced_made (h : (fresh p cs).Clean) (calls : List Request) :
    (∀ e ∈ (ofLexer (fresh p cs)).transcript calls, e.fault? = none) ∧
      Spaced cs (((ofLexer (fresh p cs)).made calls).map Terminal.token) := by
  have hstart : Serves (ofLexer (fresh p cs)) [] (ofLexer (fresh p cs)) 0 := .refl rfl
  rcases hstart.after rfl calls with ⟨n, hserves⟩
  rcases covers_successes h n with ⟨hcovers, hnone⟩
  have hmade := hserves.served
  have hreported := hserves.reported
  rw [List.nil_append] at hmade hreported
  constructor
  · rw [hnone] at hreported
    exact List.filterMap_eq_nil_iff.1 hreported
  · rw [made, hmade]
    exact hcovers.spaced

end Reader

/-! ## Readers and trees -/

/-- The trivia of terminals is what their blanks are read as, only the first terminal has any in
front, and the blanks behind a terminal reach up to the next one. This is true of all that a reader
makes of a text without a lexical error, at any offset, whatever the calls, none of which fails, and
it is true of the tokens of every tree. -/
theorem spaced_of_read_or_parsed (text : String) :
    (∀ (offset : Nat) (lexer : Lexer), Lexer.at? text.toList offset = some lexer → lexer.Clean →
      ∀ calls : List Request,
        (∀ e ∈ (Reader.ofLexer lexer).transcript calls, e.fault? = none) ∧
          Spaced lexer.rest (((Reader.ofLexer lexer).made calls).map Terminal.token)) ∧
      (∀ tree : Node, parseUnit text = .ok tree → Spaced text.toList tree.tokens) ∧
      ∀ (offset : Nat) (tree : Node), parseDeclarationAt text offset = .ok tree →
        ∃ lexer, Lexer.at? text.toList offset = some lexer ∧ Spaced lexer.rest tree.tokens := by
  refine ⟨?_, ?_, ?_⟩
  · intro offset lexer hat hclean calls
    rcases Option.map_eq_some_iff.1 hat with ⟨rest, -, rfl⟩
    exact Reader.spaced_made hclean calls
  · intro tree h
    exact Grammar.spaced_of_parse (by decide) h
  · intro offset tree h
    rcases parse_of_declaration h with ⟨rest, hrest, hparse⟩
    refine ⟨fresh offset rest, ?_, Grammar.spaced_of_parse (by decide) hparse⟩
    rw [Lexer.at?, hrest]
    rfl

/-- A class behind blanks of all kinds. The comment in it ends with a carriage return of its own
before the line does, and the mark of the constructor is joined over a tab. -/
def unevenClass : String :=
  " \t\r\n\nclass C \x7b // a \t b\r\r\n  void .\tctor();\r\n \n\x7d  \n"

/-- The class is read and parsed also from the middle of its first line break. -/
theorem unevenClass_spaced :
    (fresh 3 (unevenClass.toList.drop 3)).Clean ∧
      Spaced (unevenClass.toList.drop 3)
        (((Reader.ofLexer (fresh 3 (unevenClass.toList.drop 3))).made [.peek 2, .read]).map
          Terminal.token) ∧
      (∃ tree, parseUnit unevenClass = .ok tree ∧ Spaced unevenClass.toList tree.tokens) ∧
      ∃ tree, parseDeclarationAt unevenClass 3 = .ok tree ∧
        Spaced (unevenClass.toList.drop 3) tree.tokens := by
  -- Reader and parses are evaluated only to see that they succeed.
  have hat : Lexer.at? unevenClass.toList 3 = some (fresh 3 (unevenClass.toList.drop 3)) := by
    decide +kernel
  have hclean : (fresh 3 (unevenClass.toList.drop 3)).Clean := by decide +kernel
  have hunit : (parseUnit unevenClass).isOk = true := by decide +kernel
  have hclass : (parseDeclarationAt unevenClass 3).isOk = true := by decide +kernel
  rcases spaced_of_read_or_parsed unevenClass with ⟨hread, hparsed, hdeclared⟩
  refine ⟨hclean, (hread 3 _ hat hclean _).2, ?_, ?_⟩
  · obtain ⟨tree, htree⟩ := exists_of_isOk hunit
    exact ⟨tree, htree, hparsed tree htree⟩
  · obtain ⟨tree, htree⟩ := exists_of_isOk hclass
    rcases hdeclared 3 tree htree with ⟨lexer, hlexer, hspaced⟩
    rw [hat] at hlexer
    cases hlexer
    exact ⟨tree, htree, hspaced⟩

end Lossless
