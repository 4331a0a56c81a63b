import Lossless.Proofs.Origins

/-!
# Contracts for the rules

A contract says in front of what and with which nodes each rule is entered, what it makes of them,
and what holds of every node that is put together on the way. A contract is kept if each rule does
its part and may rely on the contract for the rules that it calls or continues with. What is checked
rule by rule then holds of whole runs:

* `Parses.kept`: a parse makes what the contract says, and every node in it is as the contract says;
* `watch_eq_run`: a run that is watched, and would be stopped where a rule is entered against the
  contract, is the same run, whether it succeeds or fails.
-/

namespace Lossless

namespace Grammar

open Pattern

/-! ## Contracts -/

/-- What is agreed on about the rules. -/
structure Contract where
  /-- What is known of every terminal. -/
  sees : Terminal → Prop
  /-- A rule is entered with these nodes, the newest first, in front of this stream. -/
  enter : Rule → List Node → Stream → Prop
  /-- A rule that was entered so makes this node and leaves this stream. -/
  make : Rule → List Node → Stream → Node → Stream → Prop
  /-- Children are put under a node of this kind. -/
  node : Kind → List Node → Prop

namespace Contract

/-- A step does its part and ends as `post` says. -/
@[simp] def Holds (c : Contract) (post : Node → Stream → Prop) :
    Step → List Node → Stream → Prop
  | .look n next, nodes, s =>
    ∀ t, s.ahead n = .ok t → c.sees t → c.Holds post (next (.ofTerminal t)) nodes s
  | .take tag next, nodes, s =>
    ∀ t, s.ahead 0 = .ok t → c.sees t → c.Holds post next (leaf tag t :: nodes) s.tail
  | .call r next, nodes, s =>
    c.enter r [] s ∧ ∀ inner s', [inner.symbol] ∈ r.makes.matches' → c.make r [] s inner s' →
      c.Holds post next (inner :: nodes) s'
  | .goto r, nodes, s =>
    c.enter r nodes s ∧ ∀ node s', c.make r nodes s node s' → post node s'
  | .gather kind next, nodes, s =>
    c.node kind nodes.reverse ∧ c.Holds post next [.tree kind nodes.reverse] s
  | .note _ next, nodes, s => c.Holds post next nodes s
  | .close kind, nodes, s => c.node kind nodes.reverse ∧ post (.tree kind nodes.reverse) s
  | .join kind, nodes, s => post (joined kind nodes.reverse) s
  | .fail _, _, _ => True

/-- Every rule that is entered as agreed does its part. -/
def Kept (c : Contract) : Prop :=
  ∀ rule nodes s, c.enter rule nodes s → c.Holds (c.make rule nodes s) rule.body nodes s

/-- Every node over children in a tree is as agreed. -/
def Throughout (c : Contract) (n : Node) : Prop :=
  ∀ k cs, Node.tree k cs ∈ n.descendants → c.node k cs

variable {c : Contract} {post : Node → Stream → Prop} {nodes : List Node} {s : Stream}

/-- A choice does its part iff each branch does, under the condition that leads there. -/
theorem holds_ite {p : Prop} [Decidable p] {a b : Step} :
    c.Holds post (if p then a else b) nodes s ↔
      (p → c.Holds post a nodes s) ∧ (¬p → c.Holds post b nodes s) := by
  split <;> simp_all

theorem holds_elim {α : Type} {o : Option α} {a : Step} {f : α → Step} :
    c.Holds post (o.elim a f) nodes s ↔
      (o = none → c.Holds post a nodes s) ∧ ∀ x, o = some x → c.Holds post (f x) nodes s := by
  cases o <;> simp

/-- A terminal that has been seen is taken. -/
theorem Holds.take {tag : Option Kind} {next : Step} {t : Terminal} (ht : s.ahead 0 = .ok t)
    (h : c.Holds post next (leaf tag t :: nodes) s.tail) :
    c.Holds post (.take tag next) nodes s := by
  intro u hu _
  rw [ht] at hu
  cases hu
  exact h

/-- A terminal that has been seen is taken as it is. -/
theorem Holds.bump {next : Step} {t : Terminal} (ht : s.ahead 0 = .ok t)
    (h : c.Holds post next (.token t.token :: nodes) s.tail) :
    c.Holds post (bump next) nodes s :=
  .take ht h

/-- A loop over items does its part if any item may be called for and the loop may go on behind
it. -/
theorem Holds.items {loop : Rule} {other : Glimpse → Step}
    (henter : ∀ g r, item? g = some r → c.enter r [] s)
    (hother : ∀ t, s.ahead 0 = .ok t → c.sees t →
      c.Holds post (other (.ofTerminal t)) nodes s)
    (hitem : ∀ t r inner s', s.ahead 0 = .ok t → item? (.ofTerminal t) = some r →
      [inner.symbol] ∈ r.makes.matches' → c.Holds post (.goto loop) (inner :: nodes) s') :
    c.Holds post
      (.look 0 fun g => (item? g).elim (other g) fun r => .call r (.goto loop)) nodes s := by
  intro t ht hseen
  refine holds_elim.2 ⟨fun _ => hother t ht hseen, fun r hr => ⟨henter _ r hr, ?_⟩⟩
  intro inner s' hinner _
  exact hitem t r inner s' ht hr hinner

theorem throughout_token (t : Token) : c.Throughout (.token t) := by
  intro k cs h
  simp [Node.descendants, Node.outline, Node.outlineAt] at h

/-- What holds of a node and throughout its children holds throughout the tree. -/
theorem throughout_tree {k : Kind} {cs : List Node} (h : c.node k cs)
    (hcs : ∀ n ∈ cs, c.Throughout n) : c.Throughout (.tree k cs) := by
  intro k' cs' hmem
  rcases Node.mem_descendants.1 hmem with heq | ⟨n, hn, hmem⟩
  · cases heq
    exact h
  · exact hcs n hn k' cs' hmem

end Contract

/-! ## Contracts hold of runs -/

/-- A stream shows nothing but terminals of a text, and all that it shows is as agreed. -/
structure Contract.Covers (c : Contract) (s : Stream) : Prop where
  lexical : ∀ i t, s.ahead i = .ok t → t.token.kind.isLexical = true
  seen : ∀ i t, s.ahead i = .ok t → c.sees t

namespace Contract.Covers

variable {c : Contract} {s : Stream}

/-- A contract that covers a stream covers what is left of it. -/
theorem drop (h : c.Covers s) (n : Nat) : c.Covers (s.drop n) where
  lexical i t ht := h.lexical (n + i) t (by rwa [← Stream.ahead_drop])
  seen i t ht := h.seen (n + i) t (by rwa [← Stream.ahead_drop])

theorem tail (h : c.Covers s) : c.Covers s.tail := by
  rw [Stream.tail_eq_drop]
  exact h.drop 1

/-- What a rule leaves of a stream is covered as well. -/
theorem of_parses (h : c.Covers s) {step : Step} {nodes : List Node} {log : List Event}
    {node : Node} {s' : State} (parses : Parses step nodes ⟨s, log⟩ node s') :
    c.Covers s'.stream := by
  obtain ⟨n, hn, -⟩ := parses.exists_passed
  rw [hn]
  exact h.drop n

end Contract.Covers

section Runs

variable {c : Contract}

/-- What a rule makes when it is called by itself. -/
theorem Contract.Covers.made {s : Stream} (h : c.Covers s) {r : Rule} {log : List Event}
    {inner : Node} {s' : State} (hstarts : s.Starts r.awaits) (hbegun : Fits 1 (r.begun s.next?))
    (called : Parses r.body [] ⟨s, log⟩ inner s') : [inner.symbol] ∈ r.makes.matches' :=
  (called.conforms h.lexical (n := 0) rfl (builds_body r hstarts) (hbegun rfl) (by simp)).1

/-- A parse by steps that do their part ends as they say, and all nodes in it are as agreed. -/
theorem Parses.kept (kept : c.Kept) {step : Step} {nodes : List Node} {s s' : State} {node : Node}
    (h : Parses step nodes s node s') :
    ∀ {rule : Rule} {p : Pattern} {post : Node → Stream → Prop}, c.Covers s.stream →
      Builds rule step s.stream p → c.Holds post step nodes s.stream →
      (∀ m ∈ nodes, c.Throughout m) → post node s'.stream ∧ c.Throughout node := by
  -- The pattern is carried along only to know what the rules that are called make.
  induction h with
  | @look i next nodes s s' t node seen rest ih =>
    intro rule p post hs hb hh hns
    exact ih hs (hb t seen (hs.lexical i t seen)) (hh t seen (hs.seen i t seen)) hns
  | @take tag next nodes s s' t node seen rest ih =>
    intro rule p post hs hb hh hns
    refine ih hs.tail (hb t seen (hs.lexical 0 t seen)).2 (hh t seen (hs.seen 0 t seen)) ?_
    exact List.forall_mem_cons.2 ⟨Contract.throughout_token _, hns⟩
  | @call r next nodes s s₁ s' inner node called rest ihc ih =>
    intro rule p post hs hb hh hns
    obtain ⟨hstarts, hbegun, hnext⟩ := hb
    obtain ⟨henter, hafter⟩ := hh
    obtain ⟨hmake, hinner⟩ :=
      ihc hs (builds_body r hstarts) (kept r [] s.stream henter) (by simp)
    exact ih (hs.of_parses called) (hnext s₁.stream ⟨inner, s.log, s₁.log, called⟩)
      (hafter inner s₁.stream (hs.made hstarts hbegun called) hmake)
      (List.forall_mem_cons.2 ⟨hinner, hns⟩)
  | @goto r nodes s s' node rest ih =>
    intro rule p post hs hb hh hns
    obtain ⟨hmake, hnode⟩ := ih hs (builds_body r hb.1) (kept r nodes s.stream hh.1) hns
    exact ⟨hh.2 node s'.stream hmake, hnode⟩
  | @gather kind next nodes s s' node rest ih =>
    intro rule p post hs hb hh hns
    refine ih hs hb.2 hh.2 (List.forall_mem_singleton.2 (Contract.throughout_tree hh.1 ?_))
    simpa using hns
  | note rest ih =>
    intro rule p post hs hb hh hns
    exact ih hs hb hh hns
  | @close kind nodes s =>
    intro rule p post hs hb hh hns
    refine ⟨hh.2, Contract.throughout_tree hh.1 ?_⟩
    simpa using hns
  | @join kind nodes s =>
    intro rule p post hs hb hh hns
    obtain ⟨t, ht, -⟩ := exists_token_joined kind nodes.reverse
    refine ⟨hh, ?_⟩
    rw [ht]
    exact Contract.throughout_token t

/-! ## Watched runs -/

/-- Runs a rule as `run` does, but stops where a rule is entered that does not pass a check. -/
def watch (check : Rule → List Node → Bool) : Nat → Rule → List Node → State → Outcome
  | 0, _, _, _ => .exhausted
  | depth + 1, rule, nodes, s =>
    if check rule nodes then exec (watch check depth) rule.body nodes s else .exhausted

variable {check : Rule → List Node → Bool}

/-- If the rules that are entered as agreed run as they do unwatched, so do steps that do their
part. -/
theorem exec_watch (kept : c.Kept) {depth : Nat}
    (ih : ∀ (r : Rule) (nodes : List Node) (s : State), c.Covers s.stream →
      s.stream.Starts r.awaits → c.enter r nodes s.stream →
      watch check depth r nodes s = run depth r nodes s) {rule : Rule} (step : Step) :
    ∀ (nodes : List Node) (s : State) {p : Pattern} {post : Node → Stream → Prop},
      c.Covers s.stream → Builds rule step s.stream p → c.Holds post step nodes s.stream →
      exec (watch check depth) step nodes s = exec (run depth) step nodes s := by
  -- By induction on the step: at a call the rule keeps its contract, so what follows may rely on
  -- it.
  induction step with
  | look n next ihs =>
    intro nodes s p post hs hb hh
    simp only [exec]
    cases ht : s.stream.ahead n with
    | error f => rfl
    | ok t =>
      exact ihs _ nodes s hs (hb t ht (hs.lexical n t ht)) (hh t ht (hs.seen n t ht))
  | take tag next ihs =>
    intro nodes s p post hs hb hh
    simp only [exec]
    cases ht : s.stream.ahead 0 with
    | error f => rfl
    | ok t =>
      exact ihs _ { s with stream := s.stream.tail } hs.tail (hb t ht (hs.lexical 0 t ht)).2
        (hh t ht (hs.seen 0 t ht))
  | call r next ihs =>
    intro nodes s p post hs hb hh
    obtain ⟨hstarts, hbegun, hnext⟩ := hb
    obtain ⟨henter, hafter⟩ := hh
    simp only [exec, ih r [] s hs hstarts henter]
    cases hr : run depth r [] s with
    | failed e log => rfl
    | exhausted => rfl
    | done inner s₁ =>
      have called := Parses.of_run hr
      -- What the rule has made is what the steps behind the call agreed on.
      obtain ⟨hmake, -⟩ :=
        called.kept kept hs (builds_body r hstarts) (kept r [] s.stream henter) (by simp)
      exact ihs (inner :: nodes) s₁ (hs.of_parses called)
        (hnext s₁.stream ⟨inner, s.log, s₁.log, called⟩)
        (hafter inner s₁.stream (hs.made hstarts hbegun called) hmake)
  | goto r =>
    intro nodes s p post hs hb hh
    exact ih r nodes s hs hb.1 hh.1
  | gather kind next ihs =>
    intro nodes s p post hs hb hh
    exact ihs [.tree kind nodes.reverse] s hs hb.2 hh.2
  | note event next ihs =>
    intro nodes s p post hs hb hh
    exact ihs nodes { s with log := event nodes.length :: s.log } hs hb hh
  | close kind =>
    intro nodes s p post hs hb hh
    rfl
  | join kind =>
    intro nodes s p post hs hb hh
    rfl
  | fail cause =>
    intro nodes s p post hs hb hh
    rfl

/-- A run that begins as agreed passes every check that the contract implies. -/
theorem watch_eq_run (kept : c.Kept)
    (hcheck : ∀ rule nodes s, c.enter rule nodes s → check rule nodes = true) (depth : Nat) :
    ∀ (rule : Rule) (nodes : List Node) (s : State), c.Covers s.stream →
      s.stream.Starts rule.awaits → c.enter rule nodes s.stream →
      watch check depth rule nodes s = run depth rule nodes s := by
  induction depth with
  | zero =>
    intro rule nodes s hs hstarts henter
    rfl
  | succ depth ih =>
    intro rule nodes s hs hstarts henter
    rw [watch, if_pos (hcheck rule nodes s.stream henter), run]
    exact exec_watch kept ih rule.body nodes s hs (builds_body rule hstarts)
      (kept rule nodes s.stream henter)

end Runs

end Grammar

/-! ## Contracts hold of texts -/

/-- A tree is what comes out of a text, taken as a whole or as a class at some offset. -/
def ParsedFrom (text : String) (tree : Node) : Prop :=
  parseUnit text = .ok tree ∨ ∃ offset, parseDeclarationAt text offset = .ok tree

/-- Trees that are parsed, from the start of a text or at an offset, keep to the schema. -/
theorem ParsedFrom.conforms {text : String} {tree : Node} (h : ParsedFrom text tree) :
    tree.Conforms := by
  rcases h with h | ⟨offset, h⟩
  · exact ((conforms_of_parse_ok text).1 tree h).2
  · exact ((conforms_of_parse_ok text).2 offset tree h).2

namespace Grammar.Contract

/-- Whatever text a stream is read from, the contract covers it. -/
def CoversTexts (c : Contract) : Prop :=
  ∀ p cs i t, (Stream.ofLexer (.fresh p cs)).ahead i = .ok t → c.sees t

variable {c : Contract}

theorem CoversTexts.covers (h : c.CoversTexts) (p : Nat) (cs : List Char) :
    c.Covers (Stream.ofLexer (.fresh p cs)) where
  lexical _ _ := Stream.isLexical_of_ahead
  seen i t ht := h p cs i t ht

/-- All nodes that a rule makes of a text by itself are as agreed. -/
theorem Kept.throughout_parse (kept : c.Kept) (covers : c.CoversTexts) {rule : Rule}
    {entry : rule.needs = 0} {p : Nat} {cs : List Char} {node : Node} (hawaits : rule.awaits = [])
    (henter : c.enter rule [] (Stream.ofLexer (.fresh p cs)))
    (h : (parse rule entry (Stream.ofLexer (.fresh p cs))).result = .ok node) :
    c.Throughout node := by
  obtain ⟨s', hparses⟩ := parse_ok_iff.1 h
  have hstarts := rule.starts hawaits (Stream.ofLexer (.fresh p cs))
  exact (hparses.kept kept (covers.covers p cs) (builds_body rule hstarts) (kept rule [] _ henter)
    (by simp)).2

/-- All nodes of a tree that comes out of a text are as agreed. -/
theorem Kept.throughout (kept : c.Kept) (covers : c.CoversTexts)
    (hunit : ∀ s, c.enter .unitItems [] s) (hclass : ∀ s, c.enter .classDecl [] s) {text : String}
    {tree : Node} (h : ParsedFrom text tree) : c.Throughout tree := by
  rcases h with h | ⟨offset, h⟩
  · rw [parseUnit, reportUnit, Lexer.new_eq_fresh] at h
    exact kept.throughout_parse covers rfl (hunit _) h
  · obtain ⟨rest, -, h⟩ := parse_of_declaration h
    exact kept.throughout_parse covers rfl (hclass _) h

/-- The run over a whole text, whatever comes of it, passes every check that the contract
implies. -/
theorem Kept.watch_unit (kept : c.Kept) (covers : c.CoversTexts)
    (hunit : ∀ s, c.enter .unitItems [] s) {check : Rule → List Node → Bool}
    (hcheck : ∀ rule nodes s, c.enter rule nodes s → check rule nodes = true) (depth : Nat)
    (text : String) :
    watch check depth .unitItems [] ⟨Stream.ofLexer (Lexer.new text.toList), []⟩ =
      run depth .unitItems [] ⟨Stream.ofLexer (Lexer.new text.toList), []⟩ := by
  rw [Lexer.new_eq_fresh]
  exact watch_eq_run kept hcheck depth .unitItems [] _ (covers.covers 0 text.toList) trivial
    (hunit _)

end Grammar.Contract

end Lossless
