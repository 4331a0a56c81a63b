import Lossless.Proofs.Counters
import Lossless.Proofs.Reading
import Lossless.Proofs.Tokens

/-!
# Reading never fails a check

A feed reads terminals from a gauge, as they are asked for. It puts back the lexeme that it has to
see in order to know where blanks end, and keeps the terminals that were looked at. The text of a
terminal is cut out of the source by its range, and from a string the first and the last byte are
cut off. All of this is checked, so a feed may come to a point at which it has no result.

It never does. A feed answers all calls as a reader does (`Feed.never_fails`), so that its ranges and
its texts are those of the reader; `Feed.Follows` is the relation between the two that each call
keeps.
-/

namespace Lossless

open Text

/-- A reader that drives a gauge: the gauge, the lexeme that was put back, and the terminals that
were looked at and not yet handed out. -/
structure Feed where
  gauge : Gauge
  current : Option Lexeme
  pending : List Terminal

/-- An operation of a feed. It gives a result or a lexical error, and the feed behind it in either
case; a check that fails leaves nothing. -/
abbrev Feeding (α : Type) : Type := ExceptT Fault (StateT Feed Option) α

namespace Feed

def at? (text : List Char) (offset : Nat) : Option Feed := do
  let gauge ← Gauge.at? text offset
  some ⟨gauge, none, []⟩

/-- Goes on with what a check gives. -/
def check {α : Type} (o : Option α) : Feeding α := fun p => o.map fun a => (.ok a, p)

/-- The lexeme that was put back, or the next one. -/
def raw : Feeding Lexeme := fun p =>
  match p.current with
  | some x => some (.ok x, { p with current := none })
  | none => do
    let (result, gauge) ← p.gauge.next?
    some (result, { p with gauge := gauge })

/-- How many lexemes can still be read. -/
def left (p : Feed) : Nat := p.gauge.rest.length + p.current.toList.length

/-- A blank uses up a lexeme. -/
theorem left_lt_of_raw {p p' : Feed} {x : Lexeme} {piece : Piece} (h : raw p = some (.ok x, p'))
    (hpiece : x.piece? = some piece) : p'.left < p.left := by
  obtain ⟨⟨text, rest, length⟩, current, pending⟩ := p
  cases current with
  | some y =>
    cases h
    simp [left]
  | none =>
    simp only [raw, Option.bind_eq_bind, Option.bind_eq_some_iff, Option.some.injEq,
      Prod.mk.injEq] at h
    obtain ⟨⟨result, gauge⟩, hnext, rfl, rfl⟩ := h
    cases rest with
    | nil =>
      -- The end of the text is no blank.
      simp only [Gauge.next?, Option.bind_eq_bind, Option.bind_eq_some_iff, Option.some.injEq,
        Prod.mk.injEq, Except.ok.injEq] at hnext
      obtain ⟨position, -, rfl, -⟩ := hnext
      cases hpiece
    | cons c cs =>
      have hrest := Gauge.rest_of_next? rfl hnext
      have hlt := Lexeme.scan_rest_length_lt c cs
      simp only [left, hrest, Option.toList_none]
      omega

/-- Reads blanks, and puts back the lexeme behind them. -/
def blanks (p : Feed) : Option (Except Fault (List Piece) × Feed) :=
  match _ : raw p with
  | none => none
  | some (.error f, p') => some (.error f, p')
  | some (.ok x, p') =>
    match _ : x.piece? with
    | none => some (.ok [], { p' with current := some x })
    | some piece => (blanks p').map fun (result, p'') => (result.map (piece :: ·), p'')
termination_by p.left
decreasing_by exact left_lt_of_raw (by assumption) (by assumption)

/-- One step of reading blanks, without the proofs that it ends. -/
theorem blanks_eq (p : Feed) :
    blanks p =
      match raw p with
      | none => none
      | some (.error f, p') => some (.error f, p')
      | some (.ok x, p') =>
        match x.piece? with
        | none => some (.ok [], { p' with current := some x })
        | some piece => (blanks p').map fun (result, p'') => (result.map (piece :: ·), p'') := by
  rw [blanks]
  -- The cases differ from the right side only in the equations that the recursion needs to end.
  split
  · rename_i h
    rw [h]
  · rename_i h
    rw [h]
  · rename_i h
    rw [h]
    split
    · rename_i hpiece
      simp only [hpiece]
    · rename_i hpiece
      simp only [hpiece]

theorem blanks_of_error {p p' : Feed} {f : Fault} (h : raw p = some (.error f, p')) :
    blanks p = some (.error f, p') := by
  rw [blanks_eq, h]

theorem blanks_of_lexeme {p p' : Feed} {x : Lexeme} (h : raw p = some (.ok x, p'))
    (hpiece : x.piece? = none) : blanks p = some (.ok [], { p' with current := some x }) := by
  rw [blanks_eq, h]
  dsimp only
  rw [hpiece]

theorem blanks_of_piece {p p' p'' : Feed} {x : Lexeme} {piece : Piece}
    {result : Except Fault (List Piece)} (h : raw p = some (.ok x, p'))
    (hpiece : x.piece? = some piece) (hrest : blanks p' = some (result, p'')) :
    blanks p = some (result.map (piece :: ·), p'') := by
  rw [blanks_eq, h]
  dsimp only
  rw [hpiece, hrest]
  rfl

/-- The own text of a lexeme, cut out of the source. -/
def ownText? (source : List Char) (x : Lexeme) : Option (List Char) := do
  let text ← slice? source x.span
  if x.kind = .stringLit then
    let stop ← sub? (width text) 1
    slice? text ⟨1, stop⟩
  else some text

/-- The terminal that a lexeme becomes between the given blanks. -/
def complete (x : Lexeme) (before after : List Piece) : Feeding Terminal := do
  let text ← check (ownText? (← get).gauge.text x)
  return ⟨⟨x.kind, String.ofList text, x.value, ⟨before⟩, ⟨after⟩⟩, x.span⟩

/-- The blanks behind a lexeme. Behind the end of the text none are looked for. -/
def trailing (x : Lexeme) : Feeding (List Piece) :=
  if x.kind = .endOfInput then pure [] else blanks

def promote : Feeding Terminal := do
  let before ← (blanks : Feeding (List Piece))
  let x ← raw
  let after ← trailing x
  complete x before after

def read : Feeding Terminal := do
  match (← get).pending with
  | t :: ts =>
    modify fun p => { p with pending := ts }
    return t
  | [] => promote

/-- Makes `n` more terminals and keeps them. -/
def fill : Nat → Feeding Unit
  | 0 => return ()
  | n + 1 => do
    let t ← promote
    modify fun p => { p with pending := p.pending ++ [t] }
    fill n

def peek (n : Nat) : Feeding Terminal := do
  fill (n + 1 - (← get).pending.length)
  check (← get).pending[n]?

def perform : Request → Feeding Answer
  | .read => return .terminal (← read)
  | .peek n => return .terminal (← peek n)
  | .range n => return .range (← peek n).span

/-- Some calls and what they gave, and the feed behind them. A lexical error does not end them. -/
def transcript? (p : Feed) : List Request → Option (List Exchange × Feed)
  | [] => some ([], p)
  | q :: qs => do
    let (answer, p') ← perform q p
    let (past, now) ← p'.transcript? qs
    some (⟨q, answer⟩ :: past, now)

/-! ## Operations in a row -/

section Bind

variable {α β : Type} {op : Feeding α} {k : α → Feeding β} {p p' : Feed}

/-- An operation that succeeds is followed by the next one. -/
theorem bind_ok {a : α} (h : op p = some (.ok a, p')) : (op >>= k) p = k a p' := by
  simp only [bind, ExceptT.bind, ExceptT.mk, StateT.bind, h]
  rfl

/-- Behind a lexical error nothing more is done. -/
theorem bind_error {f : Fault} (h : op p = some (.error f, p')) :
    (op >>= k) p = some (.error f, p') := by
  simp only [bind, ExceptT.bind, ExceptT.mk, StateT.bind, h]
  rfl

/-- A result can be mapped after it was computed or together with it. -/
theorem bind_pure_of_run {result : Except Fault α} (h : op p = some (result, p')) (f : α → β) :
    (op >>= fun a => pure (f a)) p = some (result.map f, p') := by
  cases result with
  | ok a =>
    rw [bind_ok h]
    rfl
  | error e =>
    rw [bind_error h]
    rfl

/-- Each terminal that is made goes to the end of those that wait. -/
theorem fill_of_promote {t : Terminal} (h : promote p = some (.ok t, p')) (n : Nat) :
    fill (n + 1) p = fill n { p' with pending := p'.pending ++ [t] } := by
  rw [fill, bind_ok h]
  rfl

theorem get_run (p : Feed) : (get : Feeding Feed) p = some (.ok p, p) := rfl

theorem check_run {a : α} {o : Option α} (h : o = some a) : check o p = some (.ok a, p) := by
  rw [check, h, Option.map_some]

end Bind

end Feed

/-! ## Texts that can be cut -/

/-- A lexeme that can be cut out of a text: it stands there, and if it is a string, its two ends are
one byte each. -/
def Lexeme.Cuttable (text : List Char) (x : Lexeme) : Prop :=
  x.span.Covers text x.text ∧ (x.kind = .stringLit → Fenced x.text)

/-- A terminal that is cut out of a text at its range. From a string two more bytes are cut off,
which are its first and its last character. -/
def Terminal.CutFrom (text : List Char) (t : Terminal) : Prop :=
  t.span.Inside text ∧ ∃ w, slice? text t.span = some w ∧
    if t.token.kind = .stringLit then
      2 ≤ width w ∧ Fenced w ∧ slice? w ⟨1, width w - 1⟩ = some t.token.text.toList
    else t.token.text.toList = w

/-- Where a stretch of a text stands, there is a range inside the text. -/
theorem Span.Covers.inside {text w : List Char} {s : Span} (h : s.Covers text w) :
    s.Inside text := by
  obtain ⟨front, back, rfl, rfl⟩ := h
  exact Span.inside_of_split front w back

namespace Lexeme.Cuttable

variable {text : List Char} {x : Lexeme}

/-- The text of a lexeme that can be cut is found at its range, and its quotation marks can be cut
off. -/
theorem ownText? (h : x.Cuttable text) : Feed.ownText? text x = some x.ownText.toList := by
  simp only [Feed.ownText?, slice?_eq h.1, Option.bind_eq_bind, Option.bind_some, Lexeme.ownText,
    String.toList_ofList]
  split
  · rename_i hkind
    obtain ⟨hwidth, hslice⟩ := (h.2 hkind).slice?
    have hsub : sub? (width x.text) 1 = some (width x.text - 1) := sub?_eq (by omega)
    simp only [hsub, Option.bind_some, hslice]
  · rfl

/-- A lexeme that can be cut makes a terminal that is cut out of the text. -/
theorem cutFrom (h : x.Cuttable text) (before after : List Piece) :
    (Terminal.ofLexeme x before after).CutFrom text := by
  refine ⟨h.1.inside, x.text, slice?_eq h.1, ?_⟩
  show if x.kind = .stringLit then 2 ≤ width x.text ∧ Fenced x.text ∧
    slice? x.text ⟨1, width x.text - 1⟩ = some x.ownText.toList else x.ownText.toList = x.text
  rw [Lexeme.ownText, String.toList_ofList]
  split
  · rename_i hkind
    obtain ⟨hwidth, hslice⟩ := (h.2 hkind).slice?
    exact ⟨hwidth, h.2 hkind, hslice⟩
  · rfl

/-- The end of the text can be cut as an empty stretch. -/
theorem of_end (text : List Char) : (Lexer.endAt (width text)).Cuttable text :=
  ⟨⟨text, [], by simp [Lexer.endAt], rfl⟩, nofun⟩

/-- Whatever a lexer reads can be cut. -/
theorem of_next {g : Gauge} {l : Lexer} (h : g.Meters l) (hx : l.next.1 = .ok x) :
    x.Cuttable g.text :=
  ⟨h.stands.covers hx, h.narrow.string hx⟩

end Lexeme.Cuttable

/-- What a reader has made of a text: a terminal that is cut out of it, or an error at a range inside
it. -/
def Reader.Sound (text : List Char) : Except Fault Terminal → Prop
  | .ok t => t.CutFrom text
  | .error f => f.span.Inside text

/-- What a call has given of a text: a terminal that is cut out of it, or a range inside it, be it
that of an error. -/
def Exchange.Sound (text : List Char) : Exchange → Prop
  | ⟨_, .ok (.terminal t)⟩ => t.CutFrom text
  | ⟨_, .ok (.range s)⟩ => s.Inside text
  | ⟨_, .error f⟩ => f.span.Inside text

namespace Exchange

variable {text : List Char} {result : Except Fault Terminal}

theorem sound_terminal (h : Reader.Sound text result) (q : Request) :
    Sound text ⟨q, result.map .terminal⟩ := by
  cases result with
  | ok t => exact h
  | error f => exact h

theorem sound_range (h : Reader.Sound text result) (q : Request) :
    Sound text ⟨q, (result.map Terminal.span).map .range⟩ := by
  cases result with
  | ok t => exact h.1
  | error f => exact h

end Exchange

namespace Feed

/-! ## Feeds and readers -/

/-- What a feed has still to read: what its gauge has, behind the lexeme that was put back. The end
of the text is none of the lexemes to be read, even if it was put back. -/
inductive Due (g : Gauge) : Option Lexeme → List (Except Fault Lexeme) → Prop
  | read {l : Lexer} (h : g.Meters l) : Due g none l.run
  | held {l : Lexer} {x : Lexeme} (h : g.Meters l) (hx : x.Cuttable g.text) :
      Due g (some x) (.ok x :: l.run)
  | ended {l : Lexer} (h : g.Meters l) (hrun : l.run = []) :
      Due g (some (Lexer.endAt (width g.text))) []

namespace Due

variable {g : Gauge} {current : Option Lexeme} {run : List (Except Fault Lexeme)}

theorem meters (h : Due g current run) : ∃ l, g.Meters l := by
  cases h with
  | read h | held h | ended h => exact ⟨_, h⟩

/-- A feed reads what comes first of what is due, or the end of the text if nothing is. -/
theorem raw (h : Due g current run) (pending : List Terminal) :
    ∃ g', Feed.raw ⟨g, current, pending⟩ =
        some (run.head?.getD (.ok (Lexer.endAt (width g.text))), ⟨g', none, pending⟩) ∧
      g'.text = g.text ∧ Due g' none run.tail ∧
      (∀ x, run.head?.getD (.ok (Lexer.endAt (width g.text))) = .ok x → x.Cuttable g.text) ∧
      ∀ f, run.head? = some (.error f) → f.span.Inside g.text := by
  -- What comes first is read by the lexer, was put back, or is the end of the text.
  cases h with
  | @read l h =>
    obtain ⟨g', hnext, hmeters, htext⟩ := h.next
    rw [← h.next_fst, ← l.run_next]
    refine ⟨g', ?_, htext, .read hmeters, fun x hx => .of_next h hx, ?_⟩
    · simp only [Feed.raw, hnext, Option.bind_eq_bind, Option.bind_some]
    · intro f hf
      have hinside := h.stands.next.2
      rw [h.next_fst, hf] at hinside
      exact hinside
  | @held l x h hx =>
    refine ⟨g, rfl, rfl, .read h, ?_, nofun⟩
    intro y hy
    cases hy
    exact hx
  -- Once the run is over the end is given, and nothing is due behind it.
  | @ended l h hrun =>
    refine ⟨g, rfl, rfl, ?_, ?_, nofun⟩
    · rw [List.tail_nil, ← hrun]
      exact .read h
    · intro y hy
      cases hy
      exact .of_end g.text

/-- A lexeme that was read can be put back. -/
theorem putBack (h : Due g none run) {x : Lexeme} (hx : x.Cuttable g.text) :
    Due g (some x) (.ok x :: run) := by
  cases h with
  | read h => exact .held h hx

/-- The end of the text can be put back too. -/
theorem putBack_end (h : Due g none run) (hrun : run = []) :
    Due g (some (Lexer.endAt (width g.text))) run := by
  cases h with
  | read h =>
    rw [hrun]
    exact .ended h hrun

end Due

/-- A feed over a text stands where a reader stands: the same is left to be read and the same
terminals wait to be handed out, each of them cut out of the text. -/
structure Follows (text : List Char) (p : Feed) (r : Reader) : Prop where
  source : p.gauge.text = text
  due : Due p.gauge p.current r.run
  noEnd : Lexeme.NoEnd r.run
  position : r.position = width text
  queue : r.queue = p.pending
  cut : ∀ t ∈ p.pending, t.CutFrom text

namespace Follows

variable {text : List Char} {p : Feed} {r : Reader}

/-- Due lexemes carry over to the feed: the next lexeme is the first of the run, or the end of the
text. -/
theorem raw (h : Follows text p r) :
    ∃ p', Feed.raw p = some (r.run.head?.getD (.ok (Lexer.endAt (width text))), p') ∧
      p'.current = none ∧ Follows text p' { r with run := r.run.tail } ∧
      (∀ x, r.run.head?.getD (.ok (Lexer.endAt (width text))) = .ok x → x.Cuttable text) ∧
      ∀ f, r.run.head? = some (.error f) → f.span.Inside text := by
  have hnoEnd : Lexeme.NoEnd r.run.tail := fun x hx => h.noEnd x (List.mem_of_mem_tail hx)
  obtain ⟨g', hraw, htext, hdue, hcuttable, hinside⟩ := h.due.raw p.pending
  rw [h.source] at hraw htext hcuttable hinside
  exact ⟨⟨g', none, p.pending⟩, hraw, rfl, ⟨htext, hdue, hnoEnd, h.position, h.queue, h.cut⟩,
    hcuttable, hinside⟩

/-- A lexeme that is put back stands at the head of the run again. -/
theorem putBack (h : Follows text p r) (hcurrent : p.current = none) {x : Lexeme}
    (hx : x.Cuttable text) (hkind : x.kind ≠ .endOfInput) :
    Follows text { p with current := some x } { r with run := .ok x :: r.run } := by
  have hdue := h.due
  rw [hcurrent] at hdue
  rw [← h.source] at hx
  refine ⟨h.source, hdue.putBack hx, ?_, h.position, h.queue, h.cut⟩
  intro y hy
  rcases List.mem_cons.1 hy with hy | hy
  · cases hy
    exact hkind
  · exact h.noEnd y hy

/-- The end of the text adds nothing to the run when it is put back. -/
theorem putBack_end (h : Follows text p r) (hcurrent : p.current = none) (hrun : r.run = []) :
    Follows text { p with current := some (Lexer.endAt (width text)) } r := by
  have hdue := h.due
  rw [hcurrent] at hdue
  have hback := hdue.putBack_end hrun
  rw [h.source] at hback
  exact ⟨h.source, hback, h.noEnd, h.position, h.queue, h.cut⟩

/-- What is left behind blanks is where the reader finds it. -/
theorem blanks (h : Follows text p r) :
    match Gap.read r.run with
    | .lexeme pieces x rest => ∃ p', Feed.blanks p = some (.ok pieces, p') ∧
        Follows text p' { r with run := .ok x :: rest }
    | .finish pieces => ∃ p', Feed.blanks p = some (.ok pieces, p') ∧
        Follows text p' { r with run := [] }
    | .fault f rest => ∃ p', Feed.blanks p = some (.error f, p') ∧
        Follows text p' { r with run := rest } ∧ f.span.Inside text := by
  obtain ⟨run, position, queue⟩ := r
  -- By induction on the lexemes that are due: each is an error, a blank that is kept, or a lexeme
  -- that is put back.
  induction run generalizing p with
  | nil =>
    obtain ⟨p', hraw, hcurrent, hfollows, -, -⟩ := h.raw
    exact ⟨_, blanks_of_lexeme hraw rfl, hfollows.putBack_end hcurrent rfl⟩
  | cons first run ih =>
    obtain ⟨p', hraw, hcurrent, hfollows, hcuttable, hinside⟩ := h.raw
    cases first with
    | error f => exact ⟨p', blanks_of_error hraw, hfollows, hinside f rfl⟩
    | ok x =>
      cases hpiece : x.piece? with
      | none =>
        have hkind := h.noEnd x List.mem_cons_self
        rw [Gap.read, hpiece]
        exact ⟨_, blanks_of_lexeme hraw hpiece, hfollows.putBack hcurrent (hcuttable x rfl) hkind⟩
      | some piece =>
        have hrest := ih hfollows
        rw [Gap.read, hpiece]
        dsimp only [List.tail_cons] at hrest ⊢
        -- Whatever ends the gap is found behind the first blank too.
        cases hgap : Gap.read run with
        | lexeme pieces y rest =>
          rw [hgap] at hrest
          obtain ⟨p'', hblanks, hend⟩ := hrest
          exact ⟨p'', blanks_of_piece hraw hpiece hblanks, hend⟩
        | finish pieces =>
          rw [hgap] at hrest
          obtain ⟨p'', hblanks, hend⟩ := hrest
          exact ⟨p'', blanks_of_piece hraw hpiece hblanks, hend⟩
        | fault f rest =>
          rw [hgap] at hrest
          obtain ⟨p'', hblanks, hend⟩ := hrest
          exact ⟨p'', blanks_of_piece hraw hpiece hblanks, hend⟩

/-- No check fails when a lexeme is made a terminal. -/
theorem complete (h : Follows text p r) {x : Lexeme} (hx : x.Cuttable text)
    (before after : List Piece) :
    Feed.complete x before after p = some (.ok (.ofLexeme x before after), p) := by
  have htext : Feed.ownText? p.gauge.text x = some x.ownText.toList := by
    rw [h.source, hx.ownText?]
  rw [Feed.complete, bind_ok (get_run p), bind_ok (check_run htext), String.ofList_toList]
  rfl

/-- A feed makes the terminal or the error that the reader makes. -/
theorem promote (h : Follows text p r) :
    ∃ p', Feed.promote p = some (r.advance.1, p') ∧ Follows text p' r.advance.2 ∧
      Reader.Sound text r.advance.1 := by
  -- Blanks are read twice, in front of the lexeme and behind it, and each time the gap has three
  -- ends.
  have hbefore := h.blanks
  cases hgap : Gap.read r.run with
  | fault f rest =>
    rw [hgap] at hbefore
    obtain ⟨p₁, hblanks, hfollows, hinside⟩ := hbefore
    have hadvance : r.advance = (.error f, { r with run := rest }) := by
      simp only [Reader.advance, Lossless.promote, hgap]
    rw [hadvance]
    exact ⟨p₁, bind_error hblanks, hfollows, hinside⟩
  | finish before =>
    rw [hgap] at hbefore
    obtain ⟨p₁, hblanks, hfollows⟩ := hbefore
    obtain ⟨p₂, hraw, -, hfollows', -, -⟩ := hfollows.raw
    have hend := Lexeme.Cuttable.of_end text
    have hadvance : r.advance = (.ok (.ofLexeme (Lexer.endAt (width text)) before []),
        { r with run := [] }) := by
      simp only [Reader.advance, Lossless.promote, hgap, h.position]
      rfl
    have htrailing : trailing (Lexer.endAt (width text)) p₂ = some (.ok [], p₂) := rfl
    rw [hadvance]
    refine ⟨p₂, ?_, hfollows', hend.cutFrom before []⟩
    rw [Feed.promote, bind_ok hblanks, bind_ok hraw, bind_ok htrailing, hfollows'.complete hend]
  | lexeme before x rest =>
    rw [hgap] at hbefore
    obtain ⟨p₁, hblanks, hfollows⟩ := hbefore
    obtain ⟨p₂, hraw, -, hfollows', hcuttable, -⟩ := hfollows.raw
    have hkind : x.kind ≠ .endOfInput := hfollows.noEnd x List.mem_cons_self
    have hx := hcuttable x rfl
    -- The lexeme is not the end of the text, so the blanks behind it are read as well.
    have hpromote : Feed.promote p =
        ((Feed.blanks : Feeding (List Piece)) >>= fun after => Feed.complete x before after) p₂ := by
      rw [Feed.promote, bind_ok hblanks, bind_ok hraw, trailing, if_neg hkind]
    have hafter := hfollows'.blanks
    rw [hpromote]
    dsimp only [List.tail_cons] at hafter
    cases hgap' : Gap.read rest with
    | fault f rest' =>
      rw [hgap'] at hafter
      obtain ⟨p₃, hblanks', hfollows'', hinside⟩ := hafter
      have hadvance : r.advance = (.error f, { r with run := rest' }) := by
        simp only [Reader.advance, Lossless.promote, hgap, hgap']
      rw [hadvance]
      exact ⟨p₃, bind_error hblanks', hfollows'', hinside⟩
    | finish after =>
      rw [hgap'] at hafter
      obtain ⟨p₃, hblanks', hfollows''⟩ := hafter
      have hadvance : r.advance = (.ok (.ofLexeme x before after), { r with run := [] }) := by
        simp only [Reader.advance, Lossless.promote, hgap, hgap']
      rw [hadvance, bind_ok hblanks', hfollows''.complete hx]
      exact ⟨p₃, rfl, hfollows'', hx.cutFrom before after⟩
    | lexeme after y rest' =>
      rw [hgap'] at hafter
      obtain ⟨p₃, hblanks', hfollows''⟩ := hafter
      have hadvance : r.advance =
          (.ok (.ofLexeme x before after), { r with run := .ok y :: rest' }) := by
        simp only [Reader.advance, Lossless.promote, hgap, hgap']
      rw [hadvance, bind_ok hblanks', hfollows''.complete hx]
      exact ⟨p₃, rfl, hfollows'', hx.cutFrom before after⟩

/-- A read hands out what waits, or makes the next terminal, as the reader does. -/
theorem read (h : Follows text p r) :
    ∃ p', Feed.read p = some (r.read.1, p') ∧ Follows text p' r.read.2 ∧
      Reader.Sound text r.read.1 := by
  cases hqueue : r.queue with
  | nil =>
    have hpending : p.pending = [] := h.queue.symm.trans hqueue
    have hread : Feed.read p = Feed.promote p := by
      rw [Feed.read, bind_ok (get_run p), hpending]
    rw [hread, Reader.read_of_nil hqueue]
    exact h.promote
  | cons t ts =>
    have hpending : p.pending = t :: ts := h.queue.symm.trans hqueue
    have hcut := h.cut
    rw [hpending] at hcut
    rw [Feed.read, bind_ok (get_run p), hpending, Reader.read_of_cons hqueue]
    refine ⟨{ p with pending := ts }, rfl, ?_, hcut t List.mem_cons_self⟩
    exact ⟨h.source, h.due, h.noEnd, h.position, rfl,
      fun u hu => hcut u (List.mem_cons_of_mem t hu)⟩

/-- A terminal that is made can be kept. -/
theorem keep (h : Follows text p r) {t : Terminal} (ht : t.CutFrom text) :
    Follows text { p with pending := p.pending ++ [t] } { r with queue := r.queue ++ [t] } := by
  refine ⟨h.source, h.due, h.noEnd, h.position, ?_, ?_⟩
  · show r.queue ++ [t] = p.pending ++ [t]
    rw [h.queue]
  · intro u hu
    rcases List.mem_append.1 hu with hu | hu
    · exact h.cut u hu
    · rw [List.mem_singleton.1 hu]
      exact ht

/-- Terminals are made and kept as the reader makes and keeps them, and the last one stands where a
look for it expects it. -/
theorem fill (h : Follows text p r) (m : Nat) :
    match Reader.extend m r with
    | (.ok t, next) => ∃ p', Feed.fill (m + 1) p = some (.ok (), p') ∧ Follows text p' next ∧
        next.queue[r.queue.length + m]? = some t ∧ t.CutFrom text
    | (.error f, next) => ∃ p', Feed.fill (m + 1) p = some (.error f, p') ∧
        Follows text p' next ∧ f.span.Inside text := by
  -- By induction on the number of terminals that are missing; each one joins the queue.
  induction m generalizing p r with
  | zero =>
    obtain ⟨p', hpromote, hfollows, hsound⟩ := h.promote
    unfold Reader.extend
    rcases hadvance : r.advance with ⟨result, next⟩
    rw [hadvance] at hpromote hfollows hsound
    cases result with
    | error f => exact ⟨p', bind_error hpromote, hfollows, hsound⟩
    | ok t =>
      have hqueue := Reader.queue_of_advance hadvance
      refine ⟨_, fill_of_promote hpromote 0, hfollows.keep hsound, ?_, hsound⟩
      simp [← hqueue]
  | succ m ih =>
    obtain ⟨p', hpromote, hfollows, hsound⟩ := h.promote
    unfold Reader.extend
    rcases hadvance : r.advance with ⟨result, next⟩
    rw [hadvance] at hpromote hfollows hsound
    cases result with
    | error f => exact ⟨p', bind_error hpromote, hfollows, hsound⟩
    | ok t =>
      have hqueue := Reader.queue_of_advance hadvance
      -- The place that is looked for stays the same while the queue grows towards it.
      have hlength : (next.queue ++ [t]).length + m = r.queue.length + (m + 1) := by
        rw [List.length_append, List.length_singleton, hqueue]
        omega
      have hrest := ih (hfollows.keep hsound)
      simp only [hlength] at hrest
      rw [fill_of_promote hpromote]
      exact hrest

/-- A look finds its terminal among those that wait, once enough of them are made. -/
theorem peek (h : Follows text p r) (n : Nat) :
    ∃ p', Feed.peek n p = some ((r.peek n).1, p') ∧ Follows text p' (r.peek n).2 ∧
      Reader.Sound text (r.peek n).1 := by
  have hpeek : Feed.peek n p = (Feed.fill (n + 1 - r.queue.length) >>= fun _ =>
      get >>= fun p => check p.pending[n]?) p := by
    rw [Feed.peek, bind_ok (get_run p), h.queue]
  rw [hpeek, Reader.peek]
  cases hn : r.queue[n]? with
  | some t =>
    -- Enough terminals wait, so none is made.
    have hlt : n < r.queue.length := (List.getElem?_eq_some_iff.1 hn).1
    have hzero : n + 1 - r.queue.length = 0 := by omega
    have hpending : p.pending[n]? = some t := by rw [← h.queue, hn]
    have hfill : Feed.fill (n + 1 - r.queue.length) p = some (.ok (), p) := by
      rw [hzero]
      rfl
    rw [bind_ok hfill, bind_ok (get_run p)]
    exact ⟨p, check_run hpending, h, h.cut t (List.mem_of_getElem? hpending)⟩
  | none =>
    have hle : r.queue.length ≤ n := List.getElem?_eq_none_iff.1 hn
    have hmore : n + 1 - r.queue.length = n - r.queue.length + 1 := by omega
    have hsum : r.queue.length + (n - r.queue.length) = n := by omega
    have hfill := h.fill (n - r.queue.length)
    rw [hmore]
    dsimp only
    generalize Reader.extend (n - r.queue.length) r = look at hfill ⊢
    rcases look with ⟨result, next⟩
    cases result with
    | error f =>
      obtain ⟨p', hfill, hfollows, hinside⟩ := hfill
      exact ⟨p', bind_error hfill, hfollows, hinside⟩
    | ok t =>
      obtain ⟨p', hfill, hfollows, hlast, hcut⟩ := hfill
      rw [hsum, hfollows.queue] at hlast
      refine ⟨p', ?_, hfollows, hcut⟩
      rw [bind_ok hfill, bind_ok (get_run p'), check_run hlast]

/-- A feed answers a call as the reader does. -/
theorem perform (h : Follows text p r) (q : Request) :
    ∃ p', Feed.perform q p = some ((r.perform q).1, p') ∧ Follows text p' (r.perform q).2 ∧
      Exchange.Sound text ⟨q, (r.perform q).1⟩ := by
  cases q with
  | read =>
    obtain ⟨p', hread, hfollows, hsound⟩ := h.read
    exact ⟨p', bind_pure_of_run hread Answer.terminal, hfollows, Exchange.sound_terminal hsound .read⟩
  | peek n =>
    obtain ⟨p', hpeek, hfollows, hsound⟩ := h.peek n
    exact ⟨p', bind_pure_of_run hpeek Answer.terminal, hfollows,
      Exchange.sound_terminal hsound (.peek n)⟩
  | range n =>
    obtain ⟨p', hpeek, hfollows, hsound⟩ := h.peek n
    have hrange := bind_pure_of_run hpeek fun t => Answer.range t.span
    have hmap : (r.peek n).1.map (fun t => Answer.range t.span) =
        ((r.peek n).1.map Terminal.span).map .range := by
      cases (r.peek n).1 <;> rfl
    rw [hmap] at hrange
    exact ⟨p', hrange, hfollows, Exchange.sound_range hsound (.range n)⟩

/-- A feed answers any calls as the reader does. -/
theorem transcript? (h : Follows text p r) (calls : List Request) :
    ∃ now, p.transcript? calls = some (r.transcript calls, now) ∧
      Follows text now (r.after calls) ∧ ∀ e ∈ r.transcript calls, e.Sound text := by
  induction calls generalizing p r with
  | nil => exact ⟨p, rfl, h, fun _ he => absurd he List.not_mem_nil⟩
  | cons q calls ih =>
    obtain ⟨p', hperform, hfollows, hsound⟩ := h.perform q
    obtain ⟨now, hrest, hnow, hall⟩ := ih hfollows
    refine ⟨now, ?_, hnow, ?_⟩
    · simp only [Feed.transcript?, hperform, hrest, Option.bind_eq_bind, Option.bind_some,
        Reader.transcript]
    · intro e he
      rcases List.mem_cons.1 he with rfl | he
      · exact hsound
      · exact hall e he

/-- What is left to read has been counted with the lexeme in progress. -/
theorem width_rest_le (h : Follows text p r) : width p.gauge.rest ≤ p.gauge.length := by
  obtain ⟨l, hmeters⟩ := h.due.meters
  rw [hmeters.rest, hmeters.length]
  exact Nat.le_add_left _ _

/-- At an offset that a lexer accepts, the feed can be made and stands where the reader of that
lexer stands. -/
theorem of_at? {offset : Nat} {l : Lexer} (hsmall : width text < UInt32.size)
    (h : Lexer.at? text offset = some l) :
    ∃ p, Feed.at? text offset = some p ∧ Follows text p (.ofLexer l) := by
  obtain ⟨g, hgauge, hmeters, htext⟩ := Gauge.Meters.of_at? hsmall h
  refine ⟨⟨g, none, []⟩, ?_, htext, .read hmeters, l.noEnd_run, ?_, rfl,
    fun _ ht => absurd ht List.not_mem_nil⟩
  · simp only [Feed.at?, hgauge, Option.bind_eq_bind, Option.bind_some]
  · show l.finish = width text
    rw [hmeters.finish, htext]

end Follows

/-- A feed at an offset that a lexer accepts, in a text of fewer than 2^32 bytes, answers all calls as
the reader does, also behind errors: no count, difference or cut fails. What is left to read is never
more than what was counted from the lexeme in progress on, all ranges lie inside the text with their
ends between characters, and every terminal is cut out of the text; a string has at least two bytes
there, and its two ends are one byte each. -/
theorem never_fails {text : List Char} {offset : Nat} {l : Lexer} (hsmall : width text < UInt32.size)
    (hat : Lexer.at? text offset = some l) (calls : List Request) :
    ∃ start now, Feed.at? text offset = some start ∧
      start.transcript? calls = some ((Reader.ofLexer l).transcript calls, now) ∧
      width now.gauge.rest ≤ now.gauge.length ∧
      (∀ e ∈ (Reader.ofLexer l).transcript calls, e.Sound text) ∧
      ∀ t ∈ now.pending, t.CutFrom text := by
  obtain ⟨start, hstart, hfollows⟩ := Follows.of_at? hsmall hat
  obtain ⟨now, htranscript, hnow, hsound⟩ := hfollows.transcript? calls
  exact ⟨start, now, hstart, htranscript, hnow.width_rest_le, hsound, hnow.cut⟩

/-- A number with two points in front of a string, behind a letter of two bytes. -/
def spoiltString : List Char := "é 1.2.\"ü\" x".toList

/-- Read from behind the blank, the string begins with the number that failed before, so it is the
first digit and the closing quotation mark that it loses. -/
theorem spoiltString_never_fails :
    let calls : List Request := [.read, .peek 1, .range 0, .read]
    ∃ l start now, Lexer.at? spoiltString 3 = some l ∧ Feed.at? spoiltString 3 = some start ∧
      start.transcript? calls = some ((Reader.ofLexer l).transcript calls, now) ∧
      width now.gauge.rest ≤ now.gauge.length ∧
      ((Reader.ofLexer l).transcript calls).filterMap Exchange.read? =
        [⟨⟨.stringLit, ".2.\"ü", none, ⟨[]⟩, ⟨[⟨.whitespace, 1⟩]⟩⟩, ⟨3, 11⟩⟩] := by
  intro calls
  have hat : Lexer.at? spoiltString 3 = some (Lexer.fresh 3 (spoiltString.drop 2)) := by
    decide +kernel
  have hsmall : width spoiltString < UInt32.size := by decide +kernel
  obtain ⟨start, now, hstart, htranscript, hlength, -, -⟩ := never_fails hsmall hat calls
  refine ⟨_, start, now, hat, hstart, htranscript, hlength, ?_⟩
  decide +kernel

end Feed

end Lossless
