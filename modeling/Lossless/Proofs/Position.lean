import Lossless.Proofs.Derivation
import Lossless.Proofs.Lookahead
import Lossless.Proofs.Terminals

/-!
# Positions only shift

A lexer that starts at another position finds the same lexemes and errors, with all ranges shifted.
The same holds for everything that is made from them:

* `Lexer.run_shift`: the lexemes and errors of a run;
* `Stream.ofLexer_shift`: the terminals of a stream and its ending;
* `Grammar.parse_shift`: the outcome of a parse. A tree has no positions, so only errors change.
-/

namespace Lossless

/-! ## Shifting -/

/-- A range that is `n` bytes further on. -/
def Span.shift (n : Nat) (s : Span) : Span := ⟨s.start + n, s.stop + n⟩

/-- A range that is given by its place and its length. -/
theorem Span.shift_add (n start length : Nat) :
    Span.shift n ⟨start, start + length⟩ = ⟨n + start, n + start + length⟩ := by
  simp only [shift, Span.mk.injEq]
  omega

def Fault.shift (n : Nat) (f : Fault) : Fault := { f with span := f.span.shift n }

def Lexeme.shift (n : Nat) (x : Lexeme) : Lexeme := { x with span := x.span.shift n }

def Lexeme.shiftRead (n : Nat) : Except Fault Lexeme → Except Fault Lexeme
  | .ok x => .ok (x.shift n)
  | .error f => .error (f.shift n)

def Lexer.shift (n : Nat) (l : Lexer) : Lexer := { l with start := l.start + n }

def Terminal.shift (n : Nat) (t : Terminal) : Terminal := { t with span := t.span.shift n }

def Ending.shift (n : Nat) : Ending → Ending
  | .finish position => .finish (position + n)
  | .fault f => .fault (f.shift n)

def Stream.shift (n : Nat) (s : Stream) : Stream := ⟨s.terminals.map (.shift n), s.ending.shift n⟩

/-! ## Lexers -/

namespace Lexer

/-- A step of a lexer that stands further on cuts the same text off. -/
theorem step_shift (n : Nat) (l : Lexer) (c : Char) (cs : List Char) :
    (l.shift n).step c cs =
      (Lexeme.shiftRead n (l.step c cs).1, (l.step c cs).2.shift n) := by
  have hstop : ∀ w : Nat, l.start + n + w = l.start + w + n := by
    intro w
    omega
  unfold step
  simp only [shift, hstop]
  cases Lexeme.evaluate (Lexeme.scan c cs).shape (l.held ++ (Lexeme.scan c cs).taken) <;> rfl

/-- A shifted lexer finds the same lexemes and errors, shifted. -/
theorem run_shift (n : Nat) (l : Lexer) : (l.shift n).run = l.run.map (Lexeme.shiftRead n) := by
  induction l using Lexer.run.induct with
  | case1 start held => rw [run_of_nil rfl, run_of_nil rfl, List.map_nil]
  | case2 start held c cs ih =>
    rw [run_of_cons (l := shift n ⟨start, held, c :: cs⟩) rfl,
      run_of_cons (l := ⟨start, held, c :: cs⟩) rfl, step_shift, List.map_cons, ih]

theorem finish_shift (n : Nat) (l : Lexer) : (l.shift n).finish = l.finish + n := by
  simp only [finish, position, shift]
  omega

end Lexer

/-! ## Terminals and streams -/

def Gap.shift (n : Nat) : Gap → Gap
  | .lexeme blanks x rest => .lexeme blanks (x.shift n) (rest.map (Lexeme.shiftRead n))
  | .finish blanks => .finish blanks
  | .fault f rest => .fault (f.shift n) (rest.map (Lexeme.shiftRead n))

theorem Lexeme.piece?_shift (n : Nat) (x : Lexeme) : (x.shift n).piece? = x.piece? := by
  have hlen : (x.span.shift n).length = x.span.length := by
    simp only [Span.length, Span.shift]
    omega
  simp only [piece?, shift, hlen]

/-- Gaps do not depend on positions. -/
theorem Gap.read_shift (n : Nat) (run : List (Except Fault Lexeme)) :
    Gap.read (run.map (Lexeme.shiftRead n)) = (Gap.read run).shift n := by
  fun_induction Gap.read run with
  | case1 => rfl
  | case2 f rest => rfl
  | case3 x rest p hp ih =>
    simp only [List.map_cons, Lexeme.shiftRead, Gap.read, Lexeme.piece?_shift, hp, ih]
    cases Gap.read rest <;> rfl
  | case4 x rest hp =>
    simp only [List.map_cons, Lexeme.shiftRead, Gap.read, Lexeme.piece?_shift, hp]
    rfl

def Promotion.shift (n : Nat) : Promotion → Promotion
  | .terminal t rest => .terminal (t.shift n) (rest.map (Lexeme.shiftRead n))
  | .finish t => .finish (t.shift n)
  | .fault f rest => .fault (f.shift n) (rest.map (Lexeme.shiftRead n))

/-- Terminals are made of the same lexemes. -/
theorem promote_shift (n position : Nat) (run : List (Except Fault Lexeme)) :
    promote (position + n) (run.map (Lexeme.shiftRead n)) = (promote position run).shift n := by
  unfold promote
  rw [Gap.read_shift]
  cases Gap.read run with
  | fault f rest => rfl
  | finish blanks => rfl
  | lexeme blanks x rest =>
    simp only [Gap.shift, Gap.read_shift]
    cases Gap.read rest <;> rfl

namespace Stream

/-- A stream is shifted with the run that it is made of. -/
theorem ofRun_shift (n position : Nat) (run : List (Except Fault Lexeme)) :
    ofRun (position + n) (run.map (Lexeme.shiftRead n)) = (ofRun position run).shift n := by
  -- A promotion leaves fewer lexemes, so the rest of the run is shorter.
  induction hlen : run.length using Nat.strongRecOn generalizing run with
  | ind length ih =>
    rw [ofRun_eq, promote_shift, ofRun_eq position run]
    cases hp : promote position run with
    | terminal t rest =>
      have hlt := length_lt_of_promote hp
      rw [hlen] at hlt
      simp only [Promotion.shift, ih rest.length hlt rest rfl]
      rfl
    | finish t => rfl
    | fault f rest => rfl

/-- The stream of a shifted lexer is shifted. -/
theorem ofLexer_shift (n : Nat) (l : Lexer) : ofLexer (l.shift n) = (ofLexer l).shift n := by
  rw [ofLexer, Lexer.finish_shift, Lexer.run_shift, ofRun_shift]
  rfl

/-- What is ahead of a shifted stream is what is ahead of the stream, shifted. -/
theorem ahead_shift (n : Nat) (s : Stream) (i : Nat) :
    (s.shift n).ahead i =
      match s.ahead i with
      | .ok t => .ok (t.shift n)
      | .error f => .error (f.shift n) := by
  rcases s with ⟨terminals, ending⟩
  simp only [ahead, shift, List.getElem?_map]
  cases terminals[i]? with
  | some t => rfl
  | none => cases ending <;> rfl

theorem ahead_shift_ok {s : Stream} {i : Nat} {t : Terminal} (h : s.ahead i = .ok t) (n : Nat) :
    (s.shift n).ahead i = .ok (t.shift n) := by
  rw [ahead_shift, h]

theorem ahead_shift_error {s : Stream} {i : Nat} {f : Fault} (h : s.ahead i = .error f) (n : Nat) :
    (s.shift n).ahead i = .error (f.shift n) := by
  rw [ahead_shift, h]

theorem tail_shift (n : Nat) (s : Stream) : (s.shift n).tail = s.tail.shift n := by
  simp only [tail, shift, List.map_tail]

end Stream

/-! ## Parses -/

namespace Grammar

def State.shift (n : Nat) (s : State) : State := { s with stream := s.stream.shift n }

def Failure.shift (n : Nat) : Failure → Failure
  | .lexical f => .lexical (f.shift n)
  | .grammar cause span => .grammar cause (span.shift n)

/-- A node has no positions, so a shifted parse makes the same one. -/
theorem Parses.shift {step : Step} {nodes : List Node} {s s' : State} {node : Node}
    (h : Parses step nodes s node s') (n : Nat) :
    Parses step nodes (s.shift n) node (s'.shift n) := by
  induction h with
  | look seen rest ih => exact .look (Stream.ahead_shift_ok seen n) ih
  | @take tag next nodes s s' t node seen rest ih =>
    refine .take (Stream.ahead_shift_ok seen n) ?_
    show Parses next (leaf tag t :: nodes) ⟨(s.stream.shift n).tail, s.log⟩ node (s'.shift n)
    rw [Stream.tail_shift]
    exact ih
  | call called rest ihc ih => exact .call ihc ih
  | goto rest ih => exact .goto ih
  | gather rest ih => exact .gather ih
  | note rest ih => exact .note ih
  | close => exact .close
  | join => exact .join

/-- A shifted parse fails for the same cause, at a shifted range. -/
theorem Fails.shift {step : Step} {nodes : List Node} {s : State} {e : Failure} {log : List Event}
    (h : Fails step nodes s e log) (n : Nat) :
    Fails step nodes (s.shift n) (e.shift n) log := by
  -- By induction on the failure: only looks and takes see the stream, and the shifted one shows the
  -- same.
  induction h with
  | look seen rest ih => exact .look (Stream.ahead_shift_ok seen n) ih
  | lookFault seen => exact .lookFault (Stream.ahead_shift_error seen n)
  | @take tag next nodes s t e log seen rest ih =>
    refine .take (Stream.ahead_shift_ok seen n) ?_
    show Fails next (leaf tag t :: nodes) ⟨(s.stream.shift n).tail, s.log⟩ (e.shift n) log
    rw [Stream.tail_shift]
    exact ih
  | takeFault seen => exact .takeFault (Stream.ahead_shift_error seen n)
  | called inner ih => exact .called ih
  | call called rest ih => exact .call (called.shift n) ih
  | goto rest ih => exact .goto ih
  | gather rest ih => exact .gather ih
  | note rest ih => exact .note ih
  | @fail cause nodes s t seen =>
    have hseen : (s.shift n).stream.ahead 0 = .ok (t.shift n) := Stream.ahead_shift_ok seen n
    exact .fail hseen
  | failFault seen => exact .failFault (Stream.ahead_shift_error seen n)

end Grammar

def Diagnostic.shift (n : Nat) (d : Diagnostic) : Diagnostic := { d with span := d.span.shift n }

/-- An error of a parse `n` bytes further on. An error of a file has no range. -/
def Error.shift (n : Nat) : Error → Error
  | .lexical d => .lexical (d.shift n)
  | .grammar d => .grammar (d.shift n)
  | .unreadable path cause => .unreadable path cause

theorem Grammar.Failure.error_shift (n : Nat) (e : Failure) :
    (e.shift n).error = e.error.shift n := by
  cases e <;> rfl

/-- The outcome of a parse on a shifted stream: the same tree or the same error, shifted. -/
theorem Grammar.parse_shift {rule : Rule} {entry : rule.needs = 0} (n : Nat) (s : Stream) :
    (parse rule entry (s.shift n)).result =
      match (parse rule entry s).result with
      | .ok node => .ok node
      | .error e => .error (e.shift n) := by
  cases h : (parse rule entry s).result with
  | ok node =>
    rcases parse_ok_iff.1 h with ⟨s', hparses⟩
    exact parse_ok_iff.2 ⟨s'.shift n, hparses.shift n⟩
  | error e =>
    rcases parse_error_iff.1 h with ⟨f, log, hfails, rfl⟩
    exact parse_error_iff.2 ⟨f.shift n, log, hfails.shift n, f.error_shift n⟩

end Lossless
