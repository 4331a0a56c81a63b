import Lossless.Proofs.Diagnostics

/-!
# Streams and the tokens of a text

The tokens of a text are its lexemes that are no blanks. The terminals of a stream are tokens of its
text in their order, and behind them there is nothing but the end of the text or an error:

* `Stream.exists_front`: the terminals of a stream have the ranges of tokens;
* `Stream.ofLexer_endsOnce`: the end of the text comes last;
* `Lexer.allTokens_spans`: the ranges of tokens follow each other and are not empty, so that a terminal
  is told by its range (`Stream.span_ne`).
-/

namespace Lossless

/-! ## The end of a stream -/

namespace Stream

/-- In front of a terminal that is not the end there are only such terminals. -/
def EndsOnce (s : Stream) : Prop :=
  ∀ i j t, i ≤ j → s.ahead j = .ok t → t.token.kind ≠ .endOfInput →
    ∃ u, s.ahead i = .ok u ∧ u.token.kind ≠ .endOfInput

/-- The next `n` terminals are there, and none of them is the end. -/
def Holds (n : Nat) (s : Stream) : Prop :=
  ∀ i < n, ∃ t, s.ahead i = .ok t ∧ t.token.kind ≠ .endOfInput

/-- How many terminals are left in front of the end. -/
def left (s : Stream) : Nat := s.terminals.countP (·.token.kind ≠ .endOfInput)

variable {s : Stream}

theorem EndsOnce.drop (h : s.EndsOnce) (n : Nat) : (s.drop n).EndsOnce := by
  intro i j t hij hj hk
  rw [ahead_drop] at hj
  rcases h (n + i) (n + j) t (by omega) hj hk with ⟨u, hu, hend⟩
  refine ⟨u, ?_, hend⟩
  rw [ahead_drop]
  exact hu

theorem EndsOnce.tail (h : s.EndsOnce) : s.tail.EndsOnce := by
  rw [tail_eq_drop]
  exact h.drop 1

/-- A terminal that is seen and is not the end makes known all that are in front of it. -/
theorem EndsOnce.holds (h : s.EndsOnce) {n : Nat} {t : Terminal} (ht : s.ahead n = .ok t)
    (hk : t.token.kind ≠ .endOfInput) : s.Holds (n + 1) :=
  fun i hi => h i n t (by omega) ht hk

theorem holds_zero (s : Stream) : s.Holds 0 := fun i hi => absurd hi (Nat.not_lt_zero i)

theorem Holds.le {m n : Nat} (h : s.Holds n) (hle : m ≤ n) : s.Holds m :=
  fun i hi => h i (Nat.lt_of_lt_of_le hi hle)

theorem Holds.max {m n : Nat} (hm : s.Holds m) (hn : s.Holds n) : s.Holds (max m n) := by
  intro i hi
  by_cases him : i < m
  · exact hm i him
  · exact hn i (by omega)

theorem Holds.tail {n : Nat} (h : s.Holds n) : s.tail.Holds (n - 1) := by
  intro i hi
  rcases h (1 + i) (by omega) with ⟨t, ht, hk⟩
  refine ⟨t, ?_, hk⟩
  rw [tail_eq_drop, ahead_drop]
  exact ht

/-- A terminal that is not the end is one of those that the stream lists. -/
theorem getElem?_of_ahead {i : Nat} {t : Terminal} (ht : s.ahead i = .ok t)
    (hk : t.token.kind ≠ .endOfInput) : s.terminals[i]? = some t := by
  unfold ahead at ht
  cases hi : s.terminals[i]? with
  | some u =>
    rw [hi] at ht
    cases ht
    rfl
  | none =>
    rw [hi] at ht
    cases hending : s.ending with
    | finish position =>
      rw [hending] at ht
      cases ht
      exact absurd rfl hk
    | fault f =>
      rw [hending] at ht
      cases ht

/-- If nothing but the end stands behind the first terminals, a terminal that is not the end is one
of these. -/
theorem getElem?_front {front back : List Terminal} (hs : s.terminals = front ++ back)
    (hback : ∀ t ∈ back, t.token.kind = .endOfInput) {i : Nat} {t : Terminal}
    (ht : s.ahead i = .ok t) (hk : t.token.kind ≠ .endOfInput) : front[i]? = some t := by
  have hget := getElem?_of_ahead ht hk
  rw [hs] at hget
  by_cases hi : i < front.length
  · rw [List.getElem?_append_left hi] at hget
    exact hget
  · rw [List.getElem?_append_right (Nat.le_of_not_lt hi)] at hget
    exact absurd (hback t (List.mem_of_getElem? hget)) hk

theorem ahead_of_getElem? {i : Nat} {t : Terminal} (h : s.terminals[i]? = some t) :
    s.ahead i = .ok t := by
  unfold ahead
  rw [h]

/-- A terminal in front of the end is used up by reading it. -/
theorem left_tail {t : Terminal} (ht : s.ahead 0 = .ok t) (hk : t.token.kind ≠ .endOfInput) :
    s.left = s.tail.left + 1 := by
  have hhead := getElem?_of_ahead ht hk
  rcases s with ⟨terminals, ending⟩
  cases terminals with
  | nil => cases hhead
  | cons u us =>
    cases hhead
    simp [left, Stream.tail, hk]

theorem left_tail_le : s.tail.left ≤ s.left := by
  rcases s with ⟨terminals, ending⟩
  exact List.Sublist.countP_le (List.tail_sublist terminals)

end Stream

/-! ## The tokens of a text -/

/-- The lexemes of a run that are no blanks. -/
def Lexeme.tokensOf (run : List (Except Fault Lexeme)) : List Lexeme :=
  run.filterMap fun
    | .ok x => if x.kind.isBlank then none else some x
    | .error _ => none

/-- The lexemes in front of a lexer that are no blanks. -/
def Lexer.allTokens (l : Lexer) : List Lexeme := Lexeme.tokensOf l.run

theorem Lexeme.tokensOf_append (xs ys : List (Except Fault Lexeme)) :
    tokensOf (xs ++ ys) = tokensOf xs ++ tokensOf ys := List.filterMap_append ..

theorem Lexeme.tokensOf_cons {x : Lexeme} (hx : x.kind.isBlank = false)
    (run : List (Except Fault Lexeme)) : tokensOf (.ok x :: run) = x :: tokensOf run := by
  simp [tokensOf, hx]

theorem Lexeme.tokensOf_blank {x : Lexeme} (hx : x.kind.isBlank = true)
    (run : List (Except Fault Lexeme)) : tokensOf (.ok x :: run) = tokensOf run := by
  simp [tokensOf, hx]

/-- One read takes the first lexeme off the run. -/
theorem Lexer.run_next (l : Lexer) : l.next.2.run = l.run.tail := by
  cases h : l.rest with
  | nil =>
    have hnext : l.next.2 = l := by
      unfold next
      rw [h]
    rw [hnext, run_of_nil h]
    rfl
  | cons c cs =>
    have hnext : l.next.2 = (l.step c cs).2 := by
      unfold next
      rw [h]
    rw [hnext, run_of_cons h]
    rfl

theorem Lexer.run_skip (l : Lexer) (n : Nat) : (l.skip n).run = l.run.drop n := by
  induction n with
  | zero => rfl
  | succ n ih => rw [skip, run_next, ih, List.tail_drop]

/-- From a lexeme of a text on there are no more tokens than in the whole text. -/
theorem Lexer.length_allTokens_skip (l : Lexer) (n : Nat) :
    (l.skip n).allTokens.length ≤ l.allTokens.length := by
  rw [allTokens, run_skip]
  exact ((List.drop_sublist n l.run).filterMap _).length_le

/-- The terminals of a stream are tokens of the run it is made from, in their order, and perhaps the
end of the text behind them. -/
theorem Stream.exists_front (position : Nat) (run : List (Except Fault Lexeme))
    (hrun : Lexeme.NoEnd run) :
    ∃ front back, (ofRun position run).terminals = front ++ back ∧
      (∀ t ∈ front, t.token.kind ≠ .endOfInput) ∧ (∀ t ∈ back, t.token.kind = .endOfInput) ∧
      (front.map Terminal.span).Sublist ((Lexeme.tokensOf run).map Lexeme.span) := by
  -- By induction on the length of the run, as a terminal takes several lexemes.
  induction hlen : run.length using Nat.strongRecOn generalizing run with
  | ind length ih =>
    have hof := promote_of position run
    rw [ofRun_eq]
    cases hp : promote position run with
    | terminal t rest =>
      have hlt := length_lt_of_promote hp
      rw [hlen] at hlt
      rw [hp] at hof
      rcases hof with ⟨xs, x, ys, hsplit, hx, hkind, hspan⟩
      have hrest : Lexeme.NoEnd rest := fun y hy => hrun y (by rw [hsplit]; simp [hy])
      rcases ih rest.length hlt rest hrest rfl with ⟨front, back, hterminals, hfront, hback, hsub⟩
      refine ⟨t :: front, back, ?_, ?_, hback, ?_⟩
      · exact congrArg (t :: ·) hterminals
      · refine List.forall_mem_cons.2 ⟨?_, hfront⟩
        rw [hkind]
        exact hrun x (by rw [hsplit]; simp)
      · -- The blanks around the lexeme are no tokens, so it is the next one.
        rw [hsplit, Lexeme.tokensOf_append, Lexeme.tokensOf_cons hx, Lexeme.tokensOf_append,
          List.map_append, List.map_cons, List.map_cons, List.map_append, hspan]
        have hmore := hsub.trans (List.sublist_append_right
          ((Lexeme.tokensOf (ys.map .ok)).map Lexeme.span) _)
        exact (hmore.cons_cons x.span).trans (List.sublist_append_right _ _)
    | finish t =>
      rw [hp] at hof
      exact ⟨[], [t], rfl, by simp, by simpa using hof.2.1, List.nil_sublist _⟩
    | fault f rest => exact ⟨[], [], rfl, by simp, by simp, List.nil_sublist _⟩

/-- Only the end stands behind the end in the stream of a lexer. -/
theorem Stream.ofLexer_endsOnce (l : Lexer) : (ofLexer l).EndsOnce := by
  rcases exists_front l.finish l.run l.noEnd_run with ⟨front, back, hterminals, hfront, hback, -⟩
  intro i j t hij ht hk
  have hget := getElem?_front hterminals hback ht hk
  have hj : j < front.length := (List.getElem?_eq_some_iff.1 hget).1
  have hi : (ofLexer l).terminals[i]? = some (front.get ⟨i, by omega⟩) := by
    rw [ofLexer, hterminals, List.getElem?_append_left (by omega)]
    exact List.getElem?_eq_getElem _
  exact ⟨_, ahead_of_getElem? hi, hfront _ (List.get_mem ..)⟩

/-- A stream has no more terminals than its text has tokens. -/
theorem Stream.left_ofLexer (l : Lexer) : (ofLexer l).left ≤ l.allTokens.length := by
  rcases exists_front l.finish l.run l.noEnd_run with
    ⟨front, back, hterminals, hfront, hback, hsub⟩
  have hcount : (ofLexer l).left = front.length := by
    have hnone : back.countP (·.token.kind ≠ .endOfInput) = 0 := by
      rw [List.countP_eq_zero]
      simpa using hback
    have hall : front.countP (·.token.kind ≠ .endOfInput) = front.length := by
      rw [List.countP_eq_length]
      simpa using hfront
    rw [left, ofLexer, hterminals, List.countP_append, hnone, hall, Nat.add_zero]
  have hlength := hsub.length_le
  rw [List.length_map, List.length_map] at hlength
  rw [hcount]
  exact hlength

/-! ## Ranges of tokens -/

/-- A lexeme is not empty, begins where the lexer stands, and the lexer goes on behind it. After an
error the lexer still stands where it stood. -/
theorem Lexer.step_start (l : Lexer) (c : Char) (cs : List Char) :
    l.start ≤ (l.step c cs).2.start ∧ ∀ x, (l.step c cs).1 = .ok x →
      x.span.start = l.start ∧ l.start < x.span.stop ∧ x.span.stop = (l.step c cs).2.start := by
  have hpos : 0 < Text.width (l.held ++ (Lexeme.scan c cs).taken) := by
    refine Nat.pos_of_ne_zero fun hzero => ?_
    exact Lexeme.scan_taken_ne_nil c cs (List.append_eq_nil_iff.1 (Text.width_eq_zero.1 hzero)).2
  unfold step
  dsimp only
  split
  · refine ⟨Nat.le_add_right _ _, ?_⟩
    intro x hx
    cases hx
    exact ⟨rfl, Nat.lt_add_of_pos_right hpos, rfl⟩
  · exact ⟨Nat.le_refl _, nofun⟩

/-- The ranges of the tokens in front of a lexer are not empty, begin where the lexer stands or
behind, and follow each other. -/
theorem Lexer.allTokens_spans (l : Lexer) :
    (∀ x ∈ l.allTokens, l.start ≤ x.span.start ∧ x.span.start < x.span.stop) ∧
      l.allTokens.Pairwise fun x y => x.span.stop ≤ y.span.start := by
  induction l using Lexer.run.induct with
  | case1 start held =>
    rw [allTokens, run_of_nil rfl]
    exact ⟨fun x hx => absurd hx List.not_mem_nil, .nil⟩
  | case2 start held c cs ih =>
    rw [allTokens, run_of_cons rfl]
    have hstep := step_start ⟨start, held, c :: cs⟩ c cs
    generalize step ⟨start, held, c :: cs⟩ c cs = read at ih hstep
    rcases ih with ⟨hstarts, hpairs⟩
    rcases hstep with ⟨hle, hfirst⟩
    -- What follows starts behind this step, so also behind the start of it.
    have hlater : ∀ x ∈ read.2.allTokens, start ≤ x.span.start ∧ x.span.start < x.span.stop :=
      fun x hx => ⟨Nat.le_trans hle (hstarts x hx).1, (hstarts x hx).2⟩
    cases hread : read.1 with
    | error f => exact ⟨hlater, hpairs⟩
    | ok x =>
      rcases hfirst x hread with ⟨hstart, hlt, hstop⟩
      by_cases hx : x.kind.isBlank = true
      · rw [Lexeme.tokensOf_blank hx]
        exact ⟨hlater, hpairs⟩
      · rw [Lexeme.tokensOf_cons (by simpa using hx)]
        refine ⟨List.forall_mem_cons.2 ⟨?_, hlater⟩, List.pairwise_cons.2 ⟨?_, hpairs⟩⟩
        · rw [hstart]
          exact ⟨Nat.le_refl start, hlt⟩
        · intro y hy
          rw [hstop]
          exact (hstarts y hy).1

/-- Two terminals of which one comes in front of the other, and is not the end, have different
ranges. -/
theorem Stream.span_ne {l : Lexer} {i j : Nat} {t u : Terminal} (hij : i < j)
    (ht : (ofLexer l).ahead i = .ok t) (hk : t.token.kind ≠ .endOfInput)
    (hu : (ofLexer l).ahead j = .ok u) : t.span ≠ u.span := by
  rcases exists_front l.finish l.run l.noEnd_run with
    ⟨front, back, hterminals, -, hback, hsub⟩
  rcases l.allTokens_spans with ⟨hspans, hpairs⟩
  have hnonempty : ∀ v ∈ front, v.span.start < v.span.stop := by
    intro v hv
    rcases List.mem_map.1 (hsub.subset (List.mem_map_of_mem hv)) with ⟨x, hx, hxv⟩
    rw [← hxv]
    exact (hspans x hx).2
  have hi := getElem?_front hterminals hback ht hk
  have hlt := hnonempty t (List.mem_of_getElem? hi)
  intro hspan
  by_cases hku : u.token.kind = .endOfInput
  · -- The end of the text has an empty range.
    have hshows := ofLexer_ahead l j
    rw [hu] at hshows
    rcases hshows with ⟨xs, x, rest, hrun, -, hkind, -⟩ | ⟨-, -, hempty⟩
    · exact l.noEnd_run x (by rw [hrun]; simp) (hkind.symm.trans hku)
    · rw [hspan, hempty] at hlt
      exact absurd hlt (Nat.lt_irrefl _)
  · have hj := getElem?_front hterminals hback hu hku
    have hordered : (front.map Terminal.span).Pairwise fun a b => a.stop ≤ b.start :=
      (List.pairwise_map.2 hpairs).sublist hsub
    have hle := List.pairwise_iff_getElem.1 (List.pairwise_map.1 hordered) i j
      (List.getElem?_eq_some_iff.1 hi).1 (List.getElem?_eq_some_iff.1 hj).1 hij
    rw [(List.getElem?_eq_some_iff.1 hi).2, (List.getElem?_eq_some_iff.1 hj).2, ← hspan] at hle
    omega

end Lossless
