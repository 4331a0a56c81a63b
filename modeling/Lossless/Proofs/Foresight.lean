import Lossless.Proofs.Pacing

/-!
# Errors are decided two terminals ahead

A rule looks at the next three terminals at most, and it takes terminals one by one. So whether and
how a parse fails in front of a terminal is settled by what it has taken, that terminal and the two
behind it.

* `Parses.foreseen`: a parse comes out the same on every stream that agrees with the first one up to
  two terminals behind what the parse has taken;
* `Fails.foreseen`: a parse that fails in front of a terminal fails in the same way on every stream
  that agrees with the first one up to two terminals behind it.

No parse fails behind the end of the text, so a terminal in front of which it fails is the first one
with its range.
-/

namespace Lossless

namespace Stream

/-- Two streams agree on all terminals up to number `n`. -/
def AgreeTo (n : Nat) (s u : Stream) : Prop := ∀ i ≤ n, u.ahead i = s.ahead i

variable {s u : Stream}

theorem AgreeTo.le {m n : Nat} (h : AgreeTo n s u) (hle : m ≤ n) : AgreeTo m s u :=
  fun i hi => h i (Nat.le_trans hi hle)

theorem AgreeTo.drop {m n : Nat} (h : AgreeTo (m + n) s u) : AgreeTo n (s.drop m) (u.drop m) := by
  intro i hi
  rw [ahead_drop, ahead_drop]
  exact h (m + i) (Nat.add_le_add_left hi m)

theorem AgreeTo.tail {n : Nat} (h : AgreeTo (1 + n) s u) : AgreeTo n s.tail u.tail := by
  rw [tail_eq_drop, tail_eq_drop]
  exact h.drop

/-- Streams that list the same terminals at first agree on them. -/
theorem AgreeTo.of_take {n : Nat} (hn : n < s.terminals.length)
    (h : u.terminals.take (n + 1) = s.terminals.take (n + 1)) : AgreeTo n s u := by
  intro i hi
  have hs : s.terminals[i]? = some (s.terminals.get ⟨i, by omega⟩) := List.getElem?_eq_getElem _
  have hu : u.terminals[i]? = s.terminals[i]? := by
    rw [← List.getElem?_take_of_lt (Nat.lt_succ_of_le hi), h,
      List.getElem?_take_of_lt (Nat.lt_succ_of_le hi)]
  rw [ahead_of_getElem? hs, ahead_of_getElem? (hu.trans hs)]

/-- What is there behind some terminals is there from the first of them on. -/
theorem Holds.append {m n : Nat} (hm : s.Holds m) (hn : (s.drop m).Holds n) :
    s.Holds (m + n) := by
  intro i hi
  by_cases him : i < m
  · exact hm i him
  · rcases hn (i - m) (by omega) with ⟨t, ht, hk⟩
    rw [ahead_drop, Nat.add_sub_cancel' (Nat.le_of_not_lt him)] at ht
    exact ⟨t, ht, hk⟩

/-- One more terminal in front of those that are known to be there. -/
theorem Holds.cons {n : Nat} {t : Terminal} (ht : s.ahead 0 = .ok t)
    (hk : t.token.kind ≠ .endOfInput) (h : s.tail.Holds n) : s.Holds (1 + n) := by
  rw [tail_eq_drop] at h
  refine .append ?_ h
  intro i hi
  rw [Nat.lt_one_iff.1 hi]
  exact ⟨t, ht, hk⟩

end Stream

namespace Grammar

/-- A parse comes out the same on every stream that agrees with the first one up to two terminals
behind what the parse has taken. Except by a unit, the end of the text is not taken. -/
theorem Parses.foreseen {step : Step} {nodes : List Node} {s s' : State} {node : Node}
    (h : Parses step nodes s node s') :
    ∀ {rule : Rule} {bound known : Nat}, Steady rule step bound known → s.stream.EndsOnce →
      s.stream.Holds known →
      ∃ n, s'.stream = s.stream.drop n ∧ (rule ≠ .unitItems → s.stream.Holds n) ∧
        ∀ u, s.stream.AgreeTo (n + 2) u →
          Parses step nodes ⟨u, s.log⟩ node ⟨u.drop n, s'.log⟩ := by
  induction h with
  | @look i next nodes s s' t node seen rest ih =>
    intro rule bound known hsteady hends hknown
    rcases hsteady.look hends hknown seen with ⟨known', hnext, hknown'⟩
    rcases ih hnext hends hknown' with ⟨n, hdrop, hholds, hagree⟩
    refine ⟨n, hdrop, hholds, ?_⟩
    intro u hu
    exact .look ((hu i (by omega)).trans seen) (hagree u hu)
  | @take tag next nodes s s' t node seen rest ih =>
    intro rule bound known hsteady hends hknown
    rcases hsteady with ⟨hpos, hnext⟩ | ⟨hunit, kind, rfl⟩
    · rcases ih hnext hends.tail hknown.tail with ⟨n, hdrop, hholds, hagree⟩
      rcases hknown 0 hpos with ⟨t', ht', hk⟩
      refine ⟨1 + n, ?_, fun hrule => .cons ht' hk (hholds hrule), ?_⟩
      · rw [hdrop, Stream.tail_eq_drop, Stream.drop_drop]
      · intro u hu
        have hrest := hagree u.tail (.tail (hu.le (by omega)))
        rw [Stream.tail_eq_drop, Stream.drop_drop] at hrest
        refine .take ((hu 0 (Nat.zero_le _)).trans seen) ?_
        rw [Stream.tail_eq_drop]
        exact hrest
    · -- The end of a unit is taken, and the unit is complete.
      cases rest
      refine ⟨1, Stream.tail_eq_drop _, fun hrule => absurd hunit hrule, ?_⟩
      intro u hu
      rw [← Stream.tail_eq_drop]
      exact .take ((hu 0 (Nat.zero_le _)).trans seen) .close
  | @call r next nodes s s₁ s' inner node called rest ihc ih =>
    intro rule bound known hsteady hends hknown
    rcases hsteady with ⟨-, hneeds, hunit, hnext⟩
    rcases ihc (steady_body r) hends (hknown.le hneeds) with ⟨m, hdrop₁, hholds₁, hagree₁⟩
    have hends₁ : s₁.stream.EndsOnce := by
      rw [hdrop₁]
      exact hends.drop m
    rcases ih hnext hends₁ (Stream.holds_zero _) with ⟨n, hdrop, hholds, hagree⟩
    rw [hdrop₁] at hdrop hholds hagree
    refine ⟨m + n, ?_, fun hrule => .append (hholds₁ hunit) (hholds hrule), ?_⟩
    · rw [hdrop, Stream.drop_drop]
    · intro u hu
      have hcalled := hagree₁ u (hu.le (by omega))
      have hrest := hagree (u.drop m) (.drop (hu.le (by omega)))
      rw [Stream.drop_drop] at hrest
      exact .call hcalled hrest
  | @goto r nodes s s' node rest ih =>
    intro rule bound known hsteady hends hknown
    rcases hsteady with ⟨-, hneeds, -, hunit⟩
    rcases ih (steady_body r) hends (hknown.le hneeds) with ⟨n, hdrop, hholds, hagree⟩
    exact ⟨n, hdrop, fun hrule => hholds (mt hunit hrule), fun u hu => .goto (hagree u hu)⟩
  | gather rest ih =>
    intro rule bound known hsteady hends hknown
    rcases ih hsteady hends hknown with ⟨n, hdrop, hholds, hagree⟩
    exact ⟨n, hdrop, hholds, fun u hu => .gather (hagree u hu)⟩
  | note rest ih =>
    intro rule bound known hsteady hends hknown
    rcases ih hsteady hends hknown with ⟨n, hdrop, hholds, hagree⟩
    exact ⟨n, hdrop, hholds, fun u hu => .note (hagree u hu)⟩
  | close =>
    intro rule bound known hsteady hends hknown
    exact ⟨0, rfl, fun _ => Stream.holds_zero _, fun u _ => .close⟩
  | join =>
    intro rule bound known hsteady hends hknown
    exact ⟨0, rfl, fun _ => Stream.holds_zero _, fun u _ => .join⟩

/-- A parse that fails in front of a terminal fails in the same way on every stream that agrees with
the first one up to two terminals behind it. The end of the text has not been taken by then. -/
theorem Fails.foreseen {step : Step} {nodes : List Node} {s : State} {e : Failure}
    {log : List Event} (h : Fails step nodes s e log) :
    ∀ {rule : Rule} {bound known : Nat} {cause : GrammarCause} {span : Span},
      e = .grammar cause span → Steady rule step bound known → s.stream.EndsOnce →
      s.stream.Holds known →
      ∃ n t, s.stream.ahead n = .ok t ∧ t.span = span ∧ s.stream.Holds n ∧
        ∀ u, s.stream.AgreeTo (n + 2) u → Fails step nodes ⟨u, s.log⟩ e log := by
  -- By induction on the failure: what is known to be ahead says that no step takes the end, so the
  -- place of the error is counted in terminals.
  induction h with
  | @look i next nodes s t e log seen rest ih =>
    intro rule bound known cause span he hsteady hends hknown
    rcases hsteady.look hends hknown seen with ⟨known', hnext, hknown'⟩
    rcases ih he hnext hends hknown' with ⟨n, t', ht', hspan, hholds, hagree⟩
    refine ⟨n, t', ht', hspan, hholds, ?_⟩
    intro u hu
    exact .look ((hu i (by omega)).trans seen) (hagree u hu)
  | @take tag next nodes s t e log seen rest ih =>
    intro rule bound known cause span he hsteady hends hknown
    -- A step takes a terminal that is known not to be the end, or the end of a unit, behind which
    -- nothing fails.
    rcases hsteady with ⟨hpos, hnext⟩ | ⟨hunit, kind, rfl⟩
    · rcases ih he hnext hends.tail hknown.tail with ⟨n, t', ht', hspan, hholds, hagree⟩
      rcases hknown 0 hpos with ⟨x, hx, hk⟩
      rw [Stream.tail_eq_drop, Stream.ahead_drop] at ht'
      refine ⟨1 + n, t', ht', hspan, .cons hx hk hholds, ?_⟩
      intro u hu
      exact .take ((hu 0 (Nat.zero_le _)).trans seen) (hagree u.tail (.tail (hu.le (by omega))))
    · cases rest
  | @called r next nodes s e log inner ih =>
    intro rule bound known cause span he hsteady hends hknown
    rcases ih he (steady_body r) hends (hknown.le hsteady.2.1) with
      ⟨n, t, ht, hspan, hholds, hagree⟩
    exact ⟨n, t, ht, hspan, hholds, fun u hu => .called (hagree u hu)⟩
  | @call r next nodes s s₁ inner e log called rest ih =>
    intro rule bound known cause span he hsteady hends hknown
    rcases hsteady with ⟨-, hneeds, hunit, hnext⟩
    -- The called rule ends `m` terminals further on, on both streams.
    rcases called.foreseen (steady_body r) hends (hknown.le hneeds) with
      ⟨m, hdrop, hholds₁, hagree₁⟩
    have hends₁ : s₁.stream.EndsOnce := by
      rw [hdrop]
      exact hends.drop m
    rcases ih he hnext hends₁ (Stream.holds_zero _) with ⟨n, t, ht, hspan, hholds, hagree⟩
    rw [hdrop] at ht hholds hagree
    rw [Stream.ahead_drop] at ht
    refine ⟨m + n, t, ht, hspan, .append (hholds₁ hunit) hholds, ?_⟩
    intro u hu
    exact .call (hagree₁ u (hu.le (by omega))) (hagree (u.drop m) (.drop (hu.le (by omega))))
  | @goto r nodes s e log rest ih =>
    intro rule bound known cause span he hsteady hends hknown
    rcases ih he (steady_body r) hends (hknown.le hsteady.2.1) with
      ⟨n, t, ht, hspan, hholds, hagree⟩
    exact ⟨n, t, ht, hspan, hholds, fun u hu => .goto (hagree u hu)⟩
  | gather rest ih =>
    intro rule bound known cause span he hsteady hends hknown
    rcases ih he hsteady hends hknown with ⟨n, t, ht, hspan, hholds, hagree⟩
    exact ⟨n, t, ht, hspan, hholds, fun u hu => .gather (hagree u hu)⟩
  | note rest ih =>
    intro rule bound known cause span he hsteady hends hknown
    rcases ih he hsteady hends hknown with ⟨n, t, ht, hspan, hholds, hagree⟩
    exact ⟨n, t, ht, hspan, hholds, fun u hu => .note (hagree u hu)⟩
  | @fail cause' nodes s t seen =>
    intro rule bound known cause span he hsteady hends hknown
    cases he
    refine ⟨0, t, seen, rfl, Stream.holds_zero _, ?_⟩
    intro u hu
    exact .fail ((hu 0 (Nat.zero_le _)).trans seen)
  -- Lexical errors are none of the grammar.
  | lookFault seen =>
    intro rule bound known cause span he
    cases he
  | takeFault seen =>
    intro rule bound known cause span he
    cases he
  | failFault seen =>
    intro rule bound known cause span he
    cases he

/-- A parse that fails at a terminal fails in the same way on every stream that agrees with the
first one up to two terminals behind it. -/
theorem parse_foreseen {rule : Rule} {entry : rule.needs = 0} {l : Lexer} {u : Stream}
    {d : Diagnostic} {k : Nat} {t : Terminal}
    (h : (parse rule entry (Stream.ofLexer l)).result = .error (.grammar d))
    (ht : (Stream.ofLexer l).ahead k = .ok t) (hspan : t.span = d.span)
    (hagree : (Stream.ofLexer l).AgreeTo (k + 2) u) :
    (parse rule entry u).result = .error (.grammar d) := by
  rcases parse_error_iff.1 h with ⟨e, log, hfails, he⟩
  cases e with
  | lexical f => cases he
  | grammar cause span =>
    have hneeds : (Stream.ofLexer l).Holds rule.needs := by
      rw [entry]
      exact Stream.holds_zero _
    rcases hfails.foreseen rfl (steady_body rule) (Stream.ofLexer_endsOnce l) hneeds with
      ⟨n, t', ht', hspan', hholds, hforeseen⟩
    -- In front of the place of the error no terminal has the range of the error.
    have hle : n ≤ k := by
      refine Nat.le_of_not_lt fun hlt => ?_
      rcases hholds k hlt with ⟨x, hx, hk⟩
      rw [ht] at hx
      cases hx
      cases he
      exact Stream.span_ne hlt ht hk ht' (hspan.trans hspan'.symm)
    exact parse_error_iff.2 ⟨_, log, hforeseen u (hagree.le (by omega)), he⟩

end Grammar

open Grammar

/-- Errors are decided two terminals ahead. If the parse of a text fails at terminal number `k`, and
the terminals of another text are the same up to number `k + 2`, its parse fails in the same way;
and so does the parse of a class at an offset. -/
theorem error_foreseen (text other : String) :
    (∀ d k t, parseUnit text = .error (.grammar d) →
      (Stream.ofLexer (Lexer.new text.toList)).ahead k = .ok t → t.span = d.span →
      (Stream.ofLexer (Lexer.new text.toList)).AgreeTo (k + 2)
        (Stream.ofLexer (Lexer.new other.toList)) →
      parseUnit other = .error (.grammar d)) ∧
    ∀ offset offset' l l' d k t, Lexer.at? text.toList offset = some l →
      Lexer.at? other.toList offset' = some l' →
      parseDeclarationAt text offset = .error (.grammar d) →
      (Stream.ofLexer l).ahead k = .ok t → t.span = d.span →
      (Stream.ofLexer l).AgreeTo (k + 2) (Stream.ofLexer l') →
      parseDeclarationAt other offset' = .error (.grammar d) := by
  constructor
  · intro d k t h ht hspan hagree
    exact parse_foreseen h ht hspan hagree
  · intro offset offset' l l' d k t hl hl' h ht hspan hagree
    unfold parseDeclarationAt reportDeclarationAt at h ⊢
    rw [hl] at h
    rw [hl']
    exact parse_foreseen h ht hspan hagree

/-- A text with a member that is none. -/
def brokenMember : String := "/ class A \x7b int x 5; \x7d a"

/-- The same member, but something else behind the two terminals that follow the error. -/
def brokenMemberToo : String := "/ class A \x7b int x 5; \x7d \"b\" ("

/-- Two texts with the same beginning, in which a member is broken, and the same texts from an
offset on. -/
theorem brokenMember_foreseen :
    (∃ d t, parseUnit brokenMember = .error (.grammar d) ∧
        (Stream.ofLexer (Lexer.new brokenMember.toList)).ahead 6 = .ok t ∧ t.span = d.span ∧
        (Stream.ofLexer (Lexer.new brokenMember.toList)).AgreeTo 8
          (Stream.ofLexer (Lexer.new brokenMemberToo.toList)) ∧
        parseUnit brokenMemberToo = .error (.grammar d)) ∧
      ∃ l l' d t, Lexer.at? brokenMember.toList 2 = some l ∧
        Lexer.at? brokenMemberToo.toList 2 = some l' ∧
        parseDeclarationAt brokenMember 2 = .error (.grammar d) ∧
        (Stream.ofLexer l).ahead 5 = .ok t ∧ t.span = d.span ∧
        (Stream.ofLexer l).AgreeTo 7 (Stream.ofLexer l') ∧
        parseDeclarationAt brokenMemberToo 2 = .error (.grammar d) := by
  constructor
  · -- The failure, its terminal and the agreement are evaluated; the other text fails by the
    -- theorem.
    have hrun : run (depthFor (Stream.ofLexer (Lexer.new brokenMember.toList))) .unitItems []
        ⟨Stream.ofLexer (Lexer.new brokenMember.toList), []⟩ =
          .failed (.grammar .memberBody ⟨18, 19⟩) [] := by
      decide +kernel
    have hterminal : ∃ t ∈ (Stream.ofLexer (Lexer.new brokenMember.toList)).terminals[6]?,
        t.span = ⟨18, 19⟩ := by
      decide +kernel
    have hagree : (Stream.ofLexer (Lexer.new brokenMember.toList)).AgreeTo 8
        (Stream.ofLexer (Lexer.new brokenMemberToo.toList)) :=
      .of_take (by decide +kernel) (by decide +kernel)
    rcases hterminal with ⟨t, ht, hspan⟩
    have hahead := Stream.ahead_of_getElem? ht
    have herror : parseUnit brokenMember = .error (Failure.grammar .memberBody ⟨18, 19⟩).error :=
      congrArg Report.result (parse_of_failed hrun)
    have hother := (error_foreseen brokenMember brokenMemberToo).1 _ 6 t herror hahead hspan hagree
    exact ⟨_, t, herror, hahead, hspan, hagree, hother⟩
  · have hlexers : ∃ l ∈ Lexer.at? brokenMember.toList 2,
        ∃ l' ∈ Lexer.at? brokenMemberToo.toList 2,
          run (depthFor (Stream.ofLexer l)) .classDecl [] ⟨Stream.ofLexer l, []⟩ =
              .failed (.grammar .memberBody ⟨18, 19⟩) [] ∧
            (∃ t ∈ (Stream.ofLexer l).terminals[5]?, t.span = ⟨18, 19⟩) ∧
            7 < (Stream.ofLexer l).terminals.length ∧
            (Stream.ofLexer l').terminals.take 8 = (Stream.ofLexer l).terminals.take 8 := by
      decide +kernel
    rcases hlexers with ⟨l, hl, l', hl', hrun, ⟨t, ht, hspan⟩, hlength, htake⟩
    have hagree := Stream.AgreeTo.of_take hlength htake
    have hahead := Stream.ahead_of_getElem? ht
    have herror : parseDeclarationAt brokenMember 2 =
        .error (Failure.grammar .memberBody ⟨18, 19⟩).error := by
      unfold parseDeclarationAt reportDeclarationAt
      rw [hl]
      exact congrArg Report.result (parse_of_failed hrun)
    have hother := (error_foreseen brokenMember brokenMemberToo).2 2 2 l l' _ 5 t hl hl' herror
      hahead hspan hagree
    exact ⟨l, l', _, t, hl, hl', herror, hahead, hspan, hagree, hother⟩

end Lossless
