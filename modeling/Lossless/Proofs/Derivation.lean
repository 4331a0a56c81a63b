import Lossless.Parse

/-!
# Derivations

A run of the grammar is computed with a bound on the depth of calls. Here the same runs are given by
rules of inference, without a bound: `Parses` for a step that ends in a node and `Fails` for a step
that ends in an error. The bound of `Grammar.parse` is never reached, so what a parse returns is
exactly what can be derived:

* `parse_ok_iff`: a parse returns a node iff the body of its rule `Parses` to it;
* `parse_error_iff`: a parse returns an error iff the body of its rule `Fails` with it.

Statements about all parses are then inductions over derivations, one case for each kind of step.
-/

namespace Lossless.Grammar

/-- A step ends in a node: from the nodes collected so far, the newest first, and a state, to the
node of the rule and the state behind it. -/
inductive Parses : Step → List Node → State → Node → State → Prop where
  | look {n : Fin 3} {next : Glimpse → Step} {nodes : List Node} {s s' : State} {t : Terminal}
      {node : Node} (seen : s.stream.ahead n = .ok t)
      (rest : Parses (next (.ofTerminal t)) nodes s node s') :
      Parses (.look n next) nodes s node s'
  | take {tag : Option Kind} {next : Step} {nodes : List Node} {s s' : State} {t : Terminal}
      {node : Node} (seen : s.stream.ahead 0 = .ok t)
      (rest : Parses next (leaf tag t :: nodes) { s with stream := s.stream.tail } node s') :
      Parses (.take tag next) nodes s node s'
  | call {rule : Rule} {next : Step} {nodes : List Node} {s s₁ s' : State} {inner node : Node}
      (called : Parses rule.body [] s inner s₁) (rest : Parses next (inner :: nodes) s₁ node s') :
      Parses (.call rule next) nodes s node s'
  | goto {rule : Rule} {nodes : List Node} {s s' : State} {node : Node}
      (rest : Parses rule.body nodes s node s') : Parses (.goto rule) nodes s node s'
  | gather {kind : Kind} {next : Step} {nodes : List Node} {s s' : State} {node : Node}
      (rest : Parses next [.tree kind nodes.reverse] s node s') :
      Parses (.gather kind next) nodes s node s'
  | note {event : Nat → Event} {next : Step} {nodes : List Node} {s s' : State} {node : Node}
      (rest : Parses next nodes { s with log := event nodes.length :: s.log } node s') :
      Parses (.note event next) nodes s node s'
  | close {kind : Kind} {nodes : List Node} {s : State} :
      Parses (.close kind) nodes s (.tree kind nodes.reverse) s
  | join {kind : Kind} {nodes : List Node} {s : State} :
      Parses (.join kind) nodes s (joined kind nodes.reverse) s

/-- A step ends in an error, with what was reported up to there. -/
inductive Fails : Step → List Node → State → Failure → List Event → Prop where
  | look {n : Fin 3} {next : Glimpse → Step} {nodes : List Node} {s : State} {t : Terminal}
      {e : Failure} {log : List Event} (seen : s.stream.ahead n = .ok t)
      (rest : Fails (next (.ofTerminal t)) nodes s e log) : Fails (.look n next) nodes s e log
  | lookFault {n : Fin 3} {next : Glimpse → Step} {nodes : List Node} {s : State} {f : Fault}
      (seen : s.stream.ahead n = .error f) : Fails (.look n next) nodes s (.lexical f) s.log
  | take {tag : Option Kind} {next : Step} {nodes : List Node} {s : State} {t : Terminal}
      {e : Failure} {log : List Event} (seen : s.stream.ahead 0 = .ok t)
      (rest : Fails next (leaf tag t :: nodes) { s with stream := s.stream.tail } e log) :
      Fails (.take tag next) nodes s e log
  | takeFault {tag : Option Kind} {next : Step} {nodes : List Node} {s : State} {f : Fault}
      (seen : s.stream.ahead 0 = .error f) : Fails (.take tag next) nodes s (.lexical f) s.log
  | called {rule : Rule} {next : Step} {nodes : List Node} {s : State} {e : Failure}
      {log : List Event} (inner : Fails rule.body [] s e log) :
      Fails (.call rule next) nodes s e log
  | call {rule : Rule} {next : Step} {nodes : List Node} {s s₁ : State} {inner : Node}
      {e : Failure} {log : List Event} (called : Parses rule.body [] s inner s₁)
      (rest : Fails next (inner :: nodes) s₁ e log) : Fails (.call rule next) nodes s e log
  | goto {rule : Rule} {nodes : List Node} {s : State} {e : Failure} {log : List Event}
      (rest : Fails rule.body nodes s e log) : Fails (.goto rule) nodes s e log
  | gather {kind : Kind} {next : Step} {nodes : List Node} {s : State} {e : Failure}
      {log : List Event} (rest : Fails next [.tree kind nodes.reverse] s e log) :
      Fails (.gather kind next) nodes s e log
  | note {event : Nat → Event} {next : Step} {nodes : List Node} {s : State} {e : Failure}
      {log : List Event}
      (rest : Fails next nodes { s with log := event nodes.length :: s.log } e log) :
      Fails (.note event next) nodes s e log
  | fail {cause : GrammarCause} {nodes : List Node} {s : State} {t : Terminal}
      (seen : s.stream.ahead 0 = .ok t) :
      Fails (.fail cause) nodes s (.grammar cause t.span) s.log
  | failFault {cause : GrammarCause} {nodes : List Node} {s : State} {f : Fault}
      (seen : s.stream.ahead 0 = .error f) : Fails (.fail cause) nodes s (.lexical f) s.log

/-- What has been reported before has no influence on a parse. -/
theorem Parses.relog {step : Step} {nodes : List Node} {s s' : State} {node : Node}
    (h : Parses step nodes s node s') :
    ∀ log, ∃ log', Parses step nodes ⟨s.stream, log⟩ node ⟨s'.stream, log'⟩ := by
  -- By induction on the parse: no step reads the log, and each passes on the one it gets.
  induction h with
  | look seen _ ih =>
    intro log
    rcases ih log with ⟨log', h⟩
    exact ⟨log', .look seen h⟩
  | take seen _ ih =>
    intro log
    rcases ih log with ⟨log', h⟩
    exact ⟨log', .take seen h⟩
  | call _ _ ihc ih =>
    intro log
    rcases ihc log with ⟨log₁, hc⟩
    rcases ih log₁ with ⟨log', h⟩
    exact ⟨log', .call hc h⟩
  | goto _ ih =>
    intro log
    rcases ih log with ⟨log', h⟩
    exact ⟨log', .goto h⟩
  | gather _ ih =>
    intro log
    rcases ih log with ⟨log', h⟩
    exact ⟨log', .gather h⟩
  | @note event _ nodes _ _ _ _ ih =>
    intro log
    rcases ih (event nodes.length :: log) with ⟨log', h⟩
    exact ⟨log', .note h⟩
  | close =>
    intro log
    exact ⟨log, .close⟩
  | join =>
    intro log
    exact ⟨log, .join⟩

/-! ## Building blocks -/

section Blocks

variable {nodes : List Node} {s s' : State} {node : Node}

/-- A look succeeds iff there is a terminal to be seen and the steps chosen for it succeed. -/
theorem parses_look {n : Fin 3} {next : Glimpse → Step} :
    Parses (.look n next) nodes s node s' ↔
      ∃ t, s.stream.ahead n = .ok t ∧ Parses (next (.ofTerminal t)) nodes s node s' := by
  constructor
  · intro h
    cases h with | look seen rest => exact ⟨_, seen, rest⟩
  · rintro ⟨t, seen, rest⟩
    exact .look seen rest

/-- A terminal is taken iff there is one and the steps behind it succeed. -/
theorem parses_take {tag : Option Kind} {next : Step} :
    Parses (.take tag next) nodes s node s' ↔
      ∃ t, s.stream.ahead 0 = .ok t ∧
        Parses next (leaf tag t :: nodes) { s with stream := s.stream.tail } node s' := by
  constructor
  · intro h
    cases h with | take seen rest => exact ⟨_, seen, rest⟩
  · rintro ⟨t, seen, rest⟩
    exact .take seen rest

/-- The kind of the next terminal decides between two ways to go on. -/
theorem parses_ifAt {kind : Kind} {yes no : Step} :
    Parses (ifAt kind yes no) nodes s node s' ↔
      ∃ t, s.stream.ahead 0 = .ok t ∧
        (t.token.kind = kind ∧ Parses yes nodes s node s' ∨
          t.token.kind ≠ kind ∧ Parses no nodes s node s') := by
  simp only [ifAt, parses_look]
  refine exists_congr fun t => and_congr_right fun _ => ?_
  show Parses (if t.token.kind = kind then yes else no) nodes s node s' ↔ _
  split <;> simp_all

/-- A terminal that is expected is there and is taken. -/
theorem parses_expect {kind : Kind} {cause : GrammarCause} {next : Step} :
    Parses (expect kind cause next) nodes s node s' ↔
      ∃ t, s.stream.ahead 0 = .ok t ∧ t.token.kind = kind ∧
        Parses next (leaf none t :: nodes) { s with stream := s.stream.tail } node s' := by
  have hfail : ¬Parses (.fail cause) nodes s node s' := fun h => by cases h
  show Parses (ifAt kind (bump next) (.fail cause)) nodes s node s' ↔ _
  simp only [parses_ifAt, bump, parses_take, hfail, and_false, or_false]
  constructor
  · rintro ⟨t, seen, hk, t', seen', rest⟩
    cases seen.symm.trans seen'
    exact ⟨t, seen, hk, rest⟩
  · rintro ⟨t, seen, hk, rest⟩
    exact ⟨t, seen, hk, t, seen, rest⟩

end Blocks

/-! ## Runs have derivations -/

/-- The outcome of a step, unless it is cut off, can be derived. -/
def Outcome.Derived (step : Step) (nodes : List Node) (s : State) : Outcome → Prop
  | .done node s' => Parses step nodes s node s'
  | .failed e log => Fails step nodes s e log
  | .exhausted => True

/-- The steps of a run are derived if the rules that they call are, whatever depth is left to these.
The induction is on the steps. -/
theorem exec_derived {depth : Nat}
    (ih : ∀ (r : Rule) (nodes : List Node) (s : State),
      (run depth r nodes s).Derived r.body nodes s) (step : Step) :
    ∀ (nodes : List Node) (s : State), (exec (run depth) step nodes s).Derived step nodes s := by
  -- What is called or continued with runs one level deeper, where `ih` holds.
  induction step with
  | look n next ihs =>
    intro nodes s
    simp only [exec]
    split
    · rename_i t ht
      have h := ihs (.ofTerminal t) nodes s
      generalize exec (run depth) (next (.ofTerminal t)) nodes s = o at h ⊢
      cases o with
      | done node s' => exact .look ht h
      | failed e log => exact .look ht h
      | exhausted => trivial
    · rename_i f hf
      exact .lookFault hf
  | take tag next ihs =>
    intro nodes s
    simp only [exec]
    split
    · rename_i t ht
      have h := ihs (leaf tag t :: nodes) { s with stream := s.stream.tail }
      generalize exec (run depth) next (leaf tag t :: nodes)
        { s with stream := s.stream.tail } = o at h ⊢
      cases o with
      | done node s' => exact .take ht h
      | failed e log => exact .take ht h
      | exhausted => trivial
    · rename_i f hf
      exact .takeFault hf
  | call r next ihs =>
    intro nodes s
    have hr := ih r [] s
    simp only [exec]
    cases hrun : run depth r [] s with
    | done inner s₁ =>
      rw [hrun] at hr
      have h := ihs (inner :: nodes) s₁
      dsimp only
      generalize exec (run depth) next (inner :: nodes) s₁ = o at h ⊢
      cases o with
      | done node s' => exact .call hr h
      | failed e log => exact .call hr h
      | exhausted => trivial
    | failed e log =>
      rw [hrun] at hr
      exact .called hr
    | exhausted => trivial
  | goto r =>
    intro nodes s
    have hr := ih r nodes s
    simp only [exec]
    generalize run depth r nodes s = o at hr ⊢
    cases o with
    | done node s' => exact .goto hr
    | failed e log => exact .goto hr
    | exhausted => trivial
  | gather kind next ihs =>
    intro nodes s
    have h := ihs [.tree kind nodes.reverse] s
    simp only [exec]
    generalize exec (run depth) next [.tree kind nodes.reverse] s = o at h ⊢
    cases o with
    | done node s' => exact .gather h
    | failed e log => exact .gather h
    | exhausted => trivial
  | note event next ihs =>
    intro nodes s
    have h := ihs nodes { s with log := event nodes.length :: s.log }
    simp only [exec]
    generalize exec (run depth) next nodes { s with log := event nodes.length :: s.log } = o at h ⊢
    cases o with
    | done node s' => exact .note h
    | failed e log => exact .note h
    | exhausted => trivial
  | close kind =>
    intro nodes s
    exact .close
  | join kind =>
    intro nodes s
    exact .join
  | fail cause =>
    intro nodes s
    simp only [exec]
    split
    · rename_i t ht
      exact .fail ht
    · rename_i f hf
      exact .failFault hf

/-- Whatever a run gives is derived: by induction on the depth that is left. -/
theorem run_derived (depth : Nat) (rule : Rule) (nodes : List Node) (s : State) :
    (run depth rule nodes s).Derived rule.body nodes s := by
  induction depth generalizing rule nodes s with
  | zero => trivial
  | succ depth ih => exact exec_derived ih rule.body nodes s

/-- A run that ends in a node derives it. -/
theorem Parses.of_run {n : Nat} {rule : Rule} {nodes : List Node} {s s' : State} {node : Node}
    (h : run n rule nodes s = .done node s') : Parses rule.body nodes s node s' := by
  have hd := run_derived n rule nodes s
  rw [h] at hd
  exact hd

/-! ## Derivations are runs -/

/-- A run either is cut off or ends in the node that is derived. -/
theorem Parses.exec {step : Step} {nodes : List Node} {s s' : State} {node : Node}
    (h : Parses step nodes s node s') (depth : Nat) :
    exec (run depth) step nodes s = .exhausted ∨ exec (run depth) step nodes s = .done node s' := by
  -- The depth is needed only where a rule is entered, and may be too small there.
  induction h generalizing depth with
  | look seen _ ih => simpa only [Grammar.exec, seen] using ih depth
  | take seen _ ih => simpa only [Grammar.exec, seen] using ih depth
  | call _ _ ihc ih =>
    cases depth with
    | zero => exact Or.inl rfl
    | succ depth =>
      simp only [Grammar.exec, run]
      rcases ihc depth with hc | hc
      · rw [hc]
        exact Or.inl rfl
      · rw [hc]
        exact ih (depth + 1)
  | goto _ ih =>
    cases depth with
    | zero => exact Or.inl rfl
    | succ depth => exact ih depth
  | gather _ ih => exact ih depth
  | note _ ih => exact ih depth
  | close => exact Or.inr rfl
  | join => exact Or.inr rfl

/-- A run either is cut off or ends in the error that is derived. -/
theorem Fails.exec {step : Step} {nodes : List Node} {s : State} {e : Failure} {log : List Event}
    (h : Fails step nodes s e log) (depth : Nat) :
    exec (run depth) step nodes s = .exhausted ∨
      exec (run depth) step nodes s = .failed e log := by
  -- Only calls and jumps use up depth, so these are the cases in which the run may be cut off.
  induction h generalizing depth with
  | look seen _ ih => simpa only [Grammar.exec, seen] using ih depth
  | lookFault seen =>
    right
    simp only [Grammar.exec, seen]
  | take seen _ ih => simpa only [Grammar.exec, seen] using ih depth
  | takeFault seen =>
    right
    simp only [Grammar.exec, seen]
  | called _ ih =>
    cases depth with
    | zero => exact Or.inl rfl
    | succ depth =>
      simp only [Grammar.exec, run]
      rcases ih depth with hc | hc
      · rw [hc]
        exact Or.inl rfl
      · rw [hc]
        exact Or.inr rfl
  | call called _ ih =>
    cases depth with
    | zero => exact Or.inl rfl
    | succ depth =>
      simp only [Grammar.exec, run]
      -- The call has succeeded in the derivation, so the run of it does too or is cut off.
      rcases called.exec depth with hc | hc
      · rw [hc]
        exact Or.inl rfl
      · rw [hc]
        exact ih (depth + 1)
  | goto _ ih =>
    cases depth with
    | zero => exact Or.inl rfl
    | succ depth => exact ih depth
  | gather _ ih => exact ih depth
  | note _ ih => exact ih depth
  | fail seen =>
    right
    simp only [Grammar.exec, seen]
  | failFault seen =>
    right
    simp only [Grammar.exec, seen]

/-! ## What a parse returns -/

/-- The run behind a parse is the body of the rule, run with the depth that is left. -/
theorem run_depthFor (rule : Rule) (nodes : List Node) (s : State) :
    run (depthFor s.stream) rule nodes s =
      exec (run (5 * s.stream.terminals.length + 4)) rule.body nodes s := rfl

/-- A derivation of a tree is found within the depth that a parse allows. -/
theorem Parses.run_depthFor {rule : Rule} {nodes : List Node} {s s' : State} {node : Node}
    (h : Parses rule.body nodes s node s') (entry : rule.needs = 0) :
    run (depthFor s.stream) rule nodes s = .done node s' := by
  have hne := run_ne_exhausted entry nodes s
  rw [Grammar.run_depthFor] at hne ⊢
  rcases h.exec (5 * s.stream.terminals.length + 4) with he | he
  · exact absurd he hne
  · exact he

/-- So is the derivation of an error. -/
theorem Fails.run_depthFor {rule : Rule} {nodes : List Node} {s : State} {e : Failure}
    {log : List Event} (h : Fails rule.body nodes s e log) (entry : rule.needs = 0) :
    run (depthFor s.stream) rule nodes s = .failed e log := by
  have hne := run_ne_exhausted entry nodes s
  rw [Grammar.run_depthFor] at hne ⊢
  rcases h.exec (5 * s.stream.terminals.length + 4) with he | he
  · exact absurd he hne
  · exact he

/-- The report of a parse is read off the outcome of its run. -/
theorem parse_of_done {rule : Rule} {entry : rule.needs = 0} {s : Stream} {node : Node} {s' : State}
    (h : run (depthFor s) rule [] ⟨s, []⟩ = .done node s') :
    parse rule entry s = ⟨s'.log.reverse, .ok node⟩ := by
  unfold parse
  split
  · rename_i node₁ s₁ h₁
    rw [h] at h₁
    cases h₁
    rfl
  · rename_i h₁
    rw [h] at h₁
    cases h₁
  · rename_i h₁
    rw [h] at h₁
    cases h₁

/-- A run that fails makes the parse report its error and what was logged before. -/
theorem parse_of_failed {rule : Rule} {entry : rule.needs = 0} {s : Stream} {e : Failure}
    {log : List Event} (h : run (depthFor s) rule [] ⟨s, []⟩ = .failed e log) :
    parse rule entry s = ⟨log.reverse, .error e.error⟩ := by
  unfold parse
  split
  · rename_i h₁
    rw [h] at h₁
    cases h₁
  · rename_i e₁ log₁ h₁
    rw [h] at h₁
    cases h₁
    rfl
  · rename_i h₁
    rw [h] at h₁
    cases h₁

/-- What a parse returns is derived, be it a node or an error. -/
theorem parse_derived (rule : Rule) (entry : rule.needs = 0) (s : Stream) :
    (∀ node, (parse rule entry s).result = .ok node →
        ∃ s', Parses rule.body [] ⟨s, []⟩ node s') ∧
      ∀ error, (parse rule entry s).result = .error error →
        ∃ e log, Fails rule.body [] ⟨s, []⟩ e log ∧ e.error = error := by
  have hd := run_derived (depthFor s) rule [] ⟨s, []⟩
  cases hrun : run (depthFor s) rule [] ⟨s, []⟩ with
  | done node s' =>
    rw [hrun] at hd
    rw [parse_of_done hrun]
    constructor
    · intro _ h
      cases h
      exact ⟨s', hd⟩
    · intro _ h
      cases h
  | failed e log =>
    rw [hrun] at hd
    rw [parse_of_failed hrun]
    constructor
    · intro _ h
      cases h
    · intro _ h
      cases h
      exact ⟨e, log, hd, rfl⟩
  | exhausted => exact absurd hrun (run_ne_exhausted entry [] ⟨s, []⟩)

/-- A parse returns exactly the node that its rule derives. -/
theorem parse_ok_iff {rule : Rule} {entry : rule.needs = 0} {s : Stream} {node : Node} :
    (parse rule entry s).result = .ok node ↔ ∃ s', Parses rule.body [] ⟨s, []⟩ node s' := by
  constructor
  · exact (parse_derived rule entry s).1 node
  · rintro ⟨s', h⟩
    rw [parse_of_done (h.run_depthFor entry)]

/-- A parse returns exactly the error that its rule derives. -/
theorem parse_error_iff {rule : Rule} {entry : rule.needs = 0} {s : Stream} {error : Error} :
    (parse rule entry s).result = .error error ↔
      ∃ e log, Fails rule.body [] ⟨s, []⟩ e log ∧ e.error = error := by
  constructor
  · exact (parse_derived rule entry s).2 error
  · rintro ⟨e, log, h, rfl⟩
    rw [parse_of_failed (h.run_depthFor entry)]

end Lossless.Grammar

/-! ## Parses that are evaluated -/

namespace Lossless

section Evaluated

variable {ε α : Type} {r : Except ε α}

theorem eq_ok_of_mem_toOption {a : α} (h : a ∈ r.toOption) : r = .ok a := by
  cases r with
  | ok b => rw [Option.some.inj h]
  | error e => cases h

/-- A result that is seen to be good has a value. -/
theorem exists_of_isOk (h : r.isOk = true) : ∃ a, r = .ok a := by
  cases r with
  | ok a => exact ⟨a, rfl⟩
  | error e => cases h

/-- A result that is seen to be bad has an error. -/
theorem exists_of_not_isOk (h : r.isOk = false) : ∃ e, r = .error e := by
  cases r with
  | ok a => cases h
  | error e => exact ⟨e, rfl⟩

end Evaluated

end Lossless
