import Lossless.Proofs.RoundTrip

/-!
# Errors are exact

A plain run of a lexer calls `Lexer.next` again and again (`Lexer.nth`). What a parse reports can be
read off this run, although the parse looks ahead and meets lexical errors early:

* a unit is parsed only if the run has no error (`Stream.ofLexer_ahead`, `Parses.behind_mark`);
* a lexical error of a parse is the first error of the run, and a grammatical error stands at a
  lexeme of the run that is no blank, with no error up to there (`Fails.reported`);
* all ranges lie inside the text and begin and end between characters (`Lexer.Stands.nth`).
-/

namespace Lossless

open Text

/-! ## Plain runs -/

namespace Lexer

/-- The lexer behind `n` calls. -/
def skip (l : Lexer) : Nat → Lexer
  | 0 => l
  | n + 1 => (l.skip n).next.2

/-- What call number `n` of a plain run gives. -/
def nth (l : Lexer) (n : Nat) : Except Fault Lexeme := (l.skip n).next.1

/-- Calls can be counted from the first one or from the last one. -/
theorem skip_next (l : Lexer) (n : Nat) : l.next.2.skip n = l.skip (n + 1) := by
  induction n with
  | zero => rfl
  | succ n ih =>
    show (l.next.2.skip n).next.2 = (l.skip (n + 1)).next.2
    rw [ih]

theorem nth_next (l : Lexer) (n : Nat) : l.next.2.nth n = l.nth (n + 1) := by
  unfold nth
  rw [skip_next]

/-- A plain run gives the lexemes and errors of the text and then its end, again and again. -/
theorem nth_eq (l : Lexer) (n : Nat) :
    l.nth n = l.run[n]?.getD (.ok ⟨.endOfInput, .empty l.finish, [], none⟩) := by
  induction l using Lexer.run.induct generalizing n with
  | case1 start held =>
    -- At the end a lexer stays where it is.
    have hskip : ∀ n, skip ⟨start, held, []⟩ n = ⟨start, held, []⟩ := by
      intro n
      induction n with
      | zero => rfl
      | succ n ih =>
        show (skip ⟨start, held, []⟩ n).next.2 = _
        rw [ih]
        rfl
    rw [run_of_nil rfl, nth, hskip]
    rfl
  | case2 start held c cs ih =>
    rw [run_of_cons rfl]
    cases n with
    | zero => rfl
    | succ n =>
      -- A step leaves the end of the text where it was.
      have hfinish := step_finish ⟨start, held, c :: cs⟩ c cs rfl
      rw [← nth_next, List.getElem?_cons_succ, ← hfinish]
      exact ih n

/-- Where the run of a lexer has its first error is where its calls have it. -/
theorem nth_of_run {l : Lexer} {xs : List Lexeme} {e : Except Fault Lexeme}
    {rest : List (Except Fault Lexeme)} (h : l.run = xs.map .ok ++ e :: rest) :
    l.nth xs.length = e ∧ ∀ i < xs.length, ∃ x, l.nth i = .ok x := by
  constructor
  · rw [nth_eq, h]
    simp
  · intro i hi
    refine ⟨xs[i], ?_⟩
    rw [nth_eq, h, List.getElem?_append_left (by simpa using hi)]
    simp [hi]

/-- A run without an error gives only lexemes, and behind them the end of the text. -/
theorem nth_of_clean {l : Lexer} {xs : List Lexeme} (h : l.run = xs.map .ok) :
    l.nth xs.length = .ok ⟨.endOfInput, .empty l.finish, [], none⟩ ∧ ∀ i, ∃ x, l.nth i = .ok x := by
  constructor
  · rw [nth_eq, h]
    simp
  · intro i
    rw [nth_eq, h, List.getElem?_map]
    cases xs[i]? with
    | none => exact ⟨_, rfl⟩
    | some x => exact ⟨x, rfl⟩

end Lexer

/-! ## Ranges -/

/-- The range lies inside a text, and both its ends lie between two characters or at an end of the
text. -/
def Span.Inside (text : List Char) (s : Span) : Prop :=
  s.start ≤ s.stop ∧ s.stop ≤ width text ∧
    (dropBytes? s.start text).isSome = true ∧ (dropBytes? s.stop text).isSome = true

/-- The range between two cuts of a text lies inside it. -/
theorem Span.inside_of_split (front middle back : List Char) :
    Span.Inside (front ++ middle ++ back) ⟨width front, width front + width middle⟩ := by
  refine ⟨Nat.le_add_right _ _, ?_, ?_, ?_⟩
  · simp only [width_append]
    omega
  · rw [List.append_assoc, dropBytes?_width_append]
    rfl
  · rw [← width_append, dropBytes?_width_append]
    rfl

/-- The range of a lexeme or an error. -/
def Lexeme.spanOf : Except Fault Lexeme → Span
  | .ok x => x.span
  | .error f => f.span

namespace Lexer

/-- The lexer stands in a text: what it has in front of it, held back and still to read, ends the
text, and it knows the position at which that begins. -/
def Stands (text : List Char) (l : Lexer) : Prop :=
  ∃ front, text = front ++ l.held ++ l.rest ∧ width front = l.start

variable {text : List Char} {l : Lexer}

theorem stands_new (text : List Char) : Stands text (new text) := ⟨[], rfl, rfl⟩

/-- A lexer that starts at an offset stands there. -/
theorem stands_at {offset : Nat} (h : at? text offset = some l) : Stands text l := by
  rcases Option.map_eq_some_iff.1 h with ⟨rest, hrest, rfl⟩
  rcases eq_append_of_dropBytes? hrest with ⟨front, htext, hwidth⟩
  exact ⟨front, by simpa using htext, hwidth⟩

/-- A call gives a range inside the text and leaves the lexer in the text. -/
theorem Stands.next (h : Stands text l) :
    Stands text l.next.2 ∧ (Lexeme.spanOf l.next.1).Inside text := by
  rcases l with ⟨start, held, rest⟩
  rcases h with ⟨front, htext, hwidth⟩
  have hstart : width front = start := hwidth
  cases rest with
  | nil =>
    refine ⟨⟨front, htext, hwidth⟩, ?_⟩
    -- At the end the range is empty, and what is held back lies in front of it.
    have hend := Span.inside_of_split (front ++ held) [] []
    rw [List.append_nil, List.append_nil, width_append, hstart] at hend
    rw [show text = front ++ held by simpa using htext]
    exact hend
  | cons c cs =>
    have hcut := Lexeme.scan_append c cs
    have hsplit : text = front ++ (held ++ (Lexeme.scan c cs).taken) ++ (Lexeme.scan c cs).rest := by
      rw [htext, ← hcut]
      simp
    have hinside := Span.inside_of_split front (held ++ (Lexeme.scan c cs).taken)
      (Lexeme.scan c cs).rest
    rw [← hsplit, hstart] at hinside
    simp only [Lexer.next, step]
    split
    · -- The lexeme succeeds, and its characters are now in front.
      refine ⟨⟨front ++ (held ++ (Lexeme.scan c cs).taken), by simpa using hsplit, ?_⟩, hinside⟩
      rw [width_append, hstart]
    · exact ⟨⟨front, hsplit, hwidth⟩, hinside⟩

theorem Stands.skip (h : Stands text l) (n : Nat) : Stands text (l.skip n) := by
  induction n with
  | zero => exact h
  | succ n ih => exact ih.next.1

/-- All ranges of a plain run lie inside the text. -/
theorem Stands.nth (h : Stands text l) (n : Nat) : (Lexeme.spanOf (l.nth n)).Inside text :=
  (h.skip n).next.2

end Lexer

/-! ## Streams and runs -/

/-- What is found at a place of a stream, in terms of the run that the stream was made from: a
terminal with the kind and range of a lexeme that is no blank, the end of a run without an error, or
the first error. -/
def Stream.Shows (position : Nat) (run : List (Except Fault Lexeme)) :
    Except Fault Terminal → Prop
  | .ok t =>
    (∃ (xs : List Lexeme) (x : Lexeme) (rest : List (Except Fault Lexeme)),
      run = xs.map .ok ++ .ok x :: rest ∧ x.kind.isBlank = false ∧ t.token.kind = x.kind ∧
        t.span = x.span) ∨
      (∃ xs : List Lexeme, run = xs.map .ok) ∧ t.token.kind = .endOfInput ∧
        t.span = .empty position
  | .error f => ∃ (xs : List Lexeme) (rest : List (Except Fault Lexeme)),
      run = xs.map .ok ++ .error f :: rest

/-- Lexemes in front of a run change nothing in what is found behind them. -/
theorem Stream.Shows.behind {position : Nat} {run : List (Except Fault Lexeme)}
    {found : Except Fault Terminal} (h : Shows position run found) (xs : List Lexeme) :
    Shows position (xs.map .ok ++ run) found := by
  cases found with
  | error f =>
    rcases h with ⟨ys, rest, rfl⟩
    exact ⟨xs ++ ys, rest, by simp⟩
  | ok t =>
    rcases h with ⟨ys, x, rest, rfl, hx, hkind, hspan⟩ | ⟨⟨ys, rfl⟩, hkind, hspan⟩
    · exact Or.inl ⟨xs ++ ys, x, rest, by simp, hx, hkind, hspan⟩
    · exact Or.inr ⟨⟨xs ++ ys, by simp⟩, hkind, hspan⟩

/-- What a stream shows is made of the run: terminals up to the first error, and then that error, or
the end of the text for ever. -/
theorem Stream.ofRun_ahead (position : Nat) (run : List (Except Fault Lexeme)) (i : Nat) :
    Shows position run ((ofRun position run).ahead i) := by
  -- A promotion leaves fewer lexemes, so the rest of the run is shorter.
  induction hlen : run.length using Nat.strongRecOn generalizing run i with
  | ind length ih =>
    have hof := promote_of position run
    rw [ofRun_eq]
    cases hp : promote position run with
    | terminal t rest =>
      have hlt := length_lt_of_promote hp
      rw [hlen] at hlt
      rw [hp] at hof
      rcases hof with ⟨xs, x, ys, hrun, hx, hkind, hspan⟩
      cases i with
      | zero => exact Or.inl ⟨xs, x, ys.map .ok ++ rest, hrun, hx, hkind, hspan⟩
      | succ i =>
        have hrest := (ih rest.length hlt rest i rfl).behind (xs ++ x :: ys)
        rw [show run = (xs ++ x :: ys).map .ok ++ rest by rw [hrun]; simp]
        exact hrest
    | finish t =>
      rw [hp] at hof
      rcases hof with ⟨hclean, hkind, hspan⟩
      cases i with
      | zero => exact Or.inr ⟨hclean, hkind, hspan⟩
      | succ i => exact Or.inr ⟨hclean, rfl, rfl⟩
    | fault f rest =>
      rw [hp] at hof
      rcases hof with ⟨xs, hrun⟩
      exact ⟨xs, rest, hrun⟩

/-- What is found at a place of the stream of a lexer. -/
theorem Stream.ofLexer_ahead (l : Lexer) (i : Nat) :
    Shows l.finish l.run ((ofLexer l).ahead i) := ofRun_ahead l.finish l.run i

/-- The end of the text is found only if no error comes before it. -/
theorem Stream.run_of_end {l : Lexer} {i : Nat} {t : Terminal} (h : (ofLexer l).ahead i = .ok t)
    (hk : t.token.kind = .endOfInput) : ∃ xs : List Lexeme, l.run = xs.map .ok := by
  have hshows := ofLexer_ahead l i
  rw [h] at hshows
  rcases hshows with ⟨xs, x, rest, hrun, -, hkind, -⟩ | ⟨hclean, -, -⟩
  · have hx : x.kind ≠ .endOfInput := l.noEnd_run x (by rw [hrun]; simp)
    rw [← hkind] at hx
    exact absurd hk hx
  · exact hclean

/-! ## What a failed parse reports -/

namespace Grammar

/-- An error that is found at a place of a stream: a lexical error that stands there, or a
grammatical error with the range of the terminal that stands there. -/
def Failure.FoundIn (s : Stream) : Failure → Prop
  | .lexical f => ∃ i, s.ahead i = .error f
  | .grammar _ span => ∃ i t, s.ahead i = .ok t ∧ t.span = span

/-- What is found in the rest of a stream is found in the stream. -/
theorem Failure.FoundIn.of_drop {s : Stream} {n : Nat} {e : Failure} (h : e.FoundIn (s.drop n)) :
    e.FoundIn s := by
  cases e with
  | lexical f =>
    rcases h with ⟨i, hi⟩
    rw [Stream.ahead_drop] at hi
    exact ⟨n + i, hi⟩
  | grammar cause span =>
    rcases h with ⟨i, t, hi, ht⟩
    rw [Stream.ahead_drop] at hi
    exact ⟨n + i, t, hi, ht⟩

/-- Every error of a parse is found in its stream. -/
theorem Fails.reported {step : Step} {nodes : List Node} {s : State} {e : Failure}
    {log : List Event} (h : Fails step nodes s e log) : e.FoundIn s.stream := by
  induction h with
  | look _ _ ih => exact ih
  | @lookFault n next nodes s f seen => exact ⟨n, seen⟩
  | take _ _ ih =>
    rw [Stream.tail_eq_drop] at ih
    exact ih.of_drop
  | takeFault seen => exact ⟨0, seen⟩
  | called _ ih => exact ih
  | call called _ ih =>
    rcases called.exists_passed with ⟨n, hn, -⟩
    rw [hn] at ih
    exact ih.of_drop
  | goto _ ih => exact ih
  | gather _ ih => exact ih
  | note _ ih => exact ih
  | @fail cause nodes s t seen => exact ⟨0, t, seen, rfl⟩
  | failFault seen => exact ⟨0, seen⟩

end Grammar

/-- An error says what a plain run of the lexer finds: a lexical error is the first error of the
run, and a grammatical error has the range of a lexeme that is no blank, with no error up to there.
The lexeme can be the empty one at the end of the text. -/
def Error.Exact (l : Lexer) : Error → Prop
  | .lexical d => ∃ n f, l.nth n = .error f ∧ (∀ i < n, ∃ x, l.nth i = .ok x) ∧ d = f.diagnostic
  | .grammar d => ∃ n x, l.nth n = .ok x ∧ x.kind.isBlank = false ∧ x.span = d.span ∧
      (x.kind = .endOfInput → d.span = .empty l.finish) ∧ ∀ i < n, ∃ y, l.nth i = .ok y
  | .unreadable _ _ => False

/-- An exact error has a diagnostic, and its range lies inside the text. -/
theorem Error.Exact.inside {text : List Char} {l : Lexer} {e : Error} (h : e.Exact l)
    (hl : l.Stands text) : ∃ d, e.diagnostic? = some d ∧ d.span.Inside text := by
  cases e with
  | lexical d =>
    rcases h with ⟨n, f, hf, -, rfl⟩
    have hinside := hl.nth n
    rw [hf] at hinside
    exact ⟨f.diagnostic, rfl, hinside⟩
  | grammar d =>
    rcases h with ⟨n, x, hx, -, hspan, -⟩
    have hinside := hl.nth n
    rw [hx] at hinside
    refine ⟨d, rfl, ?_⟩
    rw [← hspan]
    exact hinside
  | unreadable path cause => exact absurd h id

/-- A failure that is found in the stream of a lexer is exact. -/
theorem Grammar.Failure.FoundIn.exact {l : Lexer} {e : Failure}
    (h : e.FoundIn (Stream.ofLexer l)) : e.error.Exact l := by
  cases e with
  | lexical f =>
    rcases h with ⟨i, hi⟩
    have hshows := Stream.ofLexer_ahead l i
    rw [hi] at hshows
    rcases hshows with ⟨xs, rest, hrun⟩
    rcases Lexer.nth_of_run hrun with ⟨hnth, hbefore⟩
    exact ⟨xs.length, f, hnth, hbefore, rfl⟩
  | grammar cause span =>
    rcases h with ⟨i, t, hi, rfl⟩
    have hshows := Stream.ofLexer_ahead l i
    rw [hi] at hshows
    -- A grammar error stands at a lexeme of the run or at its end.
    rcases hshows with ⟨xs, x, rest, hrun, hblank, hkind, hspan⟩ | ⟨⟨xs, hrun⟩, hkind, hspan⟩
    · rcases Lexer.nth_of_run hrun with ⟨hnth, hbefore⟩
      have hx : x.kind ≠ .endOfInput := l.noEnd_run x (by rw [hrun]; simp)
      exact ⟨xs.length, x, hnth, hblank, hspan.symm, fun hend => absurd hend hx, hbefore⟩
    · rcases Lexer.nth_of_clean hrun with ⟨hnth, hall⟩
      exact ⟨xs.length, _, hnth, rfl, hspan.symm, fun _ => hspan, fun i _ => hall i⟩

/-- A parse of the stream of a lexer reports exact errors only. -/
theorem Grammar.parse_exact {rule : Rule} {entry : rule.needs = 0} {l : Lexer} {e : Error}
    (h : (parse rule entry (Stream.ofLexer l)).result = .error e) : e.Exact l := by
  rcases parse_error_iff.1 h with ⟨f, log, hfails, rfl⟩
  exact hfails.reported.exact

/-- At an offset that is accepted, the only errors are those of the lexer and of the grammar. -/
theorem exact_of_parseDeclarationAt {text : String} {offset : Nat} {l : Lexer} {e : Error}
    (hl : Lexer.at? text.toList offset = some l) (h : parseDeclarationAt text offset = .error e) :
    e.Exact l := by
  unfold parseDeclarationAt reportDeclarationAt at h
  rw [hl] at h
  exact Grammar.parse_exact h

/-- Errors are exact. A unit is parsed only if a plain run of the lexer has no error; an error of a
parse, of a unit or of a class at an offset, says what the plain run from there finds; and every
error is about a range inside the text. -/
theorem diagnostics_exact (text : String) :
    (∀ tree, parseUnit text = .ok tree → ∀ n, ∃ x, (Lexer.new text.toList).nth n = .ok x) ∧
      (∀ e, parseUnit text = .error e →
        e.Exact (Lexer.new text.toList) ∧
          ∃ d, e.diagnostic? = some d ∧ d.span.Inside text.toList) ∧
      ∀ offset e, parseDeclarationAt text offset = .error e →
        (∀ l, Lexer.at? text.toList offset = some l → e.Exact l) ∧
          ∃ d, e.diagnostic? = some d ∧ d.span.Inside text.toList := by
  refine ⟨?_, ?_, ?_⟩
  · intro tree h
    rcases Grammar.parse_ok_iff.1 h with ⟨s', hparses⟩
    -- A unit ends with the terminal at the end of the text.
    rcases hparses.behind_mark rfl with ⟨i, t, ht, hk, -⟩
    rcases Stream.run_of_end ht hk with ⟨xs, hrun⟩
    exact (Lexer.nth_of_clean hrun).2
  · intro e h
    have hexact : e.Exact (Lexer.new text.toList) := Grammar.parse_exact h
    exact ⟨hexact, hexact.inside (Lexer.stands_new text.toList)⟩
  · intro offset e h
    constructor
    · intro l hl
      exact exact_of_parseDeclarationAt hl h
    · cases hl : Lexer.at? text.toList offset with
      | some l => exact (exact_of_parseDeclarationAt hl h).inside (Lexer.stands_at hl)
      | none =>
        -- An offset that is refused is reported at the end of the text.
        unfold parseDeclarationAt reportDeclarationAt at h
        rw [hl] at h
        cases h
        refine ⟨_, rfl, ?_⟩
        have hend := Span.inside_of_split text.toList [] []
        rw [List.append_nil, List.append_nil] at hend
        exact hend

/-- A text that is parsed, one with a string that is not closed, and a class with a member that is
none, behind a character of two bytes. -/
theorem diagnostics_exact_instances :
    (∃ tree, parseUnit "using é;" = .ok tree ∧
        ∀ n, ∃ x, (Lexer.new "using é;".toList).nth n = .ok x) ∧
      (∃ e, parseUnit "class A \x7b \"b" = .error e ∧
        e.Exact (Lexer.new "class A \x7b \"b".toList)) ∧
      ∃ e l, parseDeclarationAt "using é;\nclass A \x7b int x 5; \x7d" 10 = .error e ∧
        Lexer.at? "using é;\nclass A \x7b int x 5; \x7d".toList 10 = some l ∧ e.Exact l := by
  -- Each text is run to see whether it is parsed; what its diagnostics say follows in general.
  refine ⟨?_, ?_, ?_⟩
  · have hok : (parseUnit "using é;").isOk = true := by decide +kernel
    obtain ⟨tree, h⟩ := exists_of_isOk hok
    exact ⟨tree, h, (diagnostics_exact _).1 tree h⟩
  · have hok : (parseUnit "class A \x7b \"b").isOk = false := by decide +kernel
    obtain ⟨e, h⟩ := exists_of_not_isOk hok
    exact ⟨e, h, ((diagnostics_exact _).2.1 e h).1⟩
  · have hok : (parseDeclarationAt "using é;\nclass A \x7b int x 5; \x7d" 10).isOk = false := by
      decide +kernel
    have hat : (Lexer.at? "using é;\nclass A \x7b int x 5; \x7d".toList 10).isSome = true := by
      decide +kernel
    rcases Option.isSome_iff_exists.1 hat with ⟨l, hl⟩
    obtain ⟨e, h⟩ := exists_of_not_isOk hok
    exact ⟨e, l, h, hl, ((diagnostics_exact _).2.2 10 e h).1 l hl⟩

end Lossless
