import Lossless.Proofs.Conformance

/-!
# Where nodes come from

A node in a tree that is parsed is a terminal of the text, under its own kind or under that of a
modifier, or it is a statement, or a rule has made it at some place of the stream (`Origin`). What a
rule makes is known from the schema, so that the kind of a node tells the rule that made it and what
that rule has read (`Origin.of_closingBrace`, `Origin.of_comment`).
-/

namespace Lossless

namespace Node

/-- The nodes below a node are the node itself and those below its children. -/
theorem mem_descendants {m n : Node} :
    m ∈ n.descendants ↔ m = n ∨ ∃ c ∈ n.children, m ∈ c.descendants := by
  cases n with
  | token t => simp [descendants, outline, outlineAt, children]
  | tree k cs =>
    simp only [descendants, outline, outlineAt, List.map_cons, map_snd_outlineIn, children,
      List.mem_cons, List.mem_flatMap]

theorem mem_descendants_self (n : Node) : n ∈ n.descendants := mem_descendants.2 (.inl rfl)

/-- What is below a child is below the tree. -/
theorem mem_descendants_of_child {m c : Node} {k : Kind} {cs : List Node} (hc : c ∈ cs)
    (hm : m ∈ c.descendants) : m ∈ (tree k cs).descendants :=
  mem_descendants.2 (.inr ⟨c, hc, hm⟩)

end Node

namespace Grammar

open RegularExpression Pattern

/-! ## Kinds that steps give -/

/-- The kinds of nodes that are put together in the course of a rule. -/
def statementKinds : List Kind := [.namespaceStatement, .classStatement]

/-- The steps give terminals no kinds but those of modifiers, and put nothing together but
statements. -/
@[simp] def LabelsOnly : Step → Prop
  | .look _ next => ∀ g, LabelsOnly (next g)
  | .take tag next => (∀ k, tag = some k → k ∈ Kind.tags) ∧ LabelsOnly next
  | .call _ next => LabelsOnly next
  | .goto _ => True
  | .gather kind next => kind ∈ statementKinds ∧ LabelsOnly next
  | .note _ next => LabelsOnly next
  | .close _ => True
  | .join _ => True
  | .fail _ => True

theorem labelsOnly_ite {c : Prop} [Decidable c] {a b : Step} :
    LabelsOnly (if c then a else b) ↔ (c → LabelsOnly a) ∧ (¬c → LabelsOnly b) := by
  split <;> simp_all

theorem labelsOnly_elim {α : Type} {o : Option α} {a : Step} {f : α → Step} :
    LabelsOnly (o.elim a f) ↔
      (o = none → LabelsOnly a) ∧ ∀ x, o = some x → LabelsOnly (f x) := by
  cases o <;> simp

/-- A word that is a modifier is taken under the kind of its modifier. -/
theorem labelsOnly_tagged {g : Glimpse} {tag? : String → Option Kind} {other next : Step}
    (htag : ∀ word k, tag? word = some k → k ∈ Kind.tags) (hother : LabelsOnly other)
    (hnext : LabelsOnly next) :
    LabelsOnly ((g.word?.bind tag?).elim other fun tag => .take (some tag) next) := by
  refine labelsOnly_elim.2 ⟨fun _ => hother, ?_⟩
  intro k hk
  refine ⟨?_, hnext⟩
  rintro _ ⟨⟩
  exact htag _ _ (word?_bind hk).2

/-- The only rules that give terminals another kind are those that take modifiers. -/
theorem labelsOnly_body (rule : Rule) : LabelsOnly rule.body := by
  cases rule with
  | classDecl =>
    simp only [Rule.body, classDecl_eq, LabelsOnly]
    intro g
    refine labelsOnly_tagged ?_ (by simp [labelsOnly_ite]) trivial
    intro word k hk
    exact (by decide : [Kind.accessor, .abstractMod, .sealedMod, .staticMod] ⊆ Kind.tags)
      (classModifier?_mem hk)
  | memberModifiers name =>
    simp only [Rule.body, memberModifiers_eq, LabelsOnly]
    intro g
    refine labelsOnly_tagged ?_ (by simp [labelsOnly_ite]) trivial
    intro word k hk
    exact (by decide : modifierWords.map Prod.snd ⊆ Kind.tags) (memberModifier?_mem hk)
  | _ => simp [labelsOnly_ite, labelsOnly_elim, statementKinds, Kind.tags]

/-! ## Origins -/

/-- Where a node comes from, in a parse of the stream `all`. -/
inductive Origin (all : Stream) : Node → Prop where
  | terminal {i : Nat} {t : Terminal} (seen : all.ahead i = .ok t) : Origin all (.token t.token)
  | modifier {i : Nat} {t : Terminal} {tag : Kind} (seen : all.ahead i = .ok t)
      (tagged : tag ∈ Kind.tags) : Origin all (leaf (some tag) t)
  | statement {kind : Kind} {ns : List Node} (known : kind ∈ statementKinds) :
      Origin all (.tree kind ns)
  | rule {r : Rule} {n : Nat} {log : List Event} {node : Node} {s' : State}
      (starts : (all.drop n).Starts r.awaits)
      (parses : Parses r.body [] ⟨all.drop n, log⟩ node s')
      (made : [node.symbol] ∈ r.makes.matches') : Origin all node

/-- A terminal that is taken comes from the stream, with its own kind or with that of a modifier. -/
theorem Origin.leaf {all : Stream} {i : Nat} {t : Terminal} (seen : all.ahead i = .ok t)
    {tag : Option Kind} (htag : ∀ k, tag = some k → k ∈ Kind.tags) :
    Origin all (Grammar.leaf tag t) := by
  cases tag with
  | none => exact .terminal seen
  | some k => exact .modifier seen (htag k rfl)

/-- Every node in a tree has an origin. -/
def Sourced (all : Stream) (n : Node) : Prop := ∀ m ∈ n.descendants, Origin all m

/-- A tree is sourced if its root has an origin and its children are sourced. -/
theorem Sourced.of_children {all : Stream} {n : Node} (h : Origin all n)
    (hc : ∀ c ∈ n.children, Sourced all c) : Sourced all n := by
  intro m hm
  rcases Node.mem_descendants.1 hm with rfl | ⟨c, hmem, hm⟩
  · exact h
  · exact hc c hmem m hm

/-- All nodes below the node that a parse makes have an origin in the stream. -/
theorem Parses.sourced {rule : Rule} {all : Stream}
    (hall : ∀ i t, all.ahead i = .ok t → t.token.kind.isLexical = true) {step : Step}
    {nodes : List Node} {s s' : State} {node : Node} (h : Parses step nodes s node s') :
    ∀ {n : Nat} {p : Pattern}, s.stream = all.drop n → Builds rule step s.stream p →
      LabelsOnly step → (∀ c ∈ nodes, Sourced all c) → ∀ c ∈ node.children, Sourced all c := by
  -- The invariant is that the nodes collected so far have origins; the pattern is carried along
  -- only to know what the rules that are called make.
  induction h generalizing rule with
  | @look i next nodes s s' t node seen rest ih =>
    intro n p hs hb hl hc
    refine ih hs (hb t seen (hall (n + i) t ?_)) (hl _) hc
    rw [← Stream.ahead_drop, ← hs]
    exact seen
  | @take tag next nodes s s' t node seen rest ih =>
    intro n p hs hb hl hc
    have hat : all.ahead n = .ok t := by
      rw [← Nat.add_zero n, ← Stream.ahead_drop, ← hs]
      exact seen
    obtain ⟨htag, hl⟩ := hl
    refine ih (n := n + 1) ?_ (hb t seen (hall n t hat)).2 hl ?_
    · show s.stream.tail = all.drop (n + 1)
      rw [hs, Stream.tail_drop]
    · refine List.forall_mem_cons.2 ⟨.of_children (.leaf hat htag) ?_, hc⟩
      intro c hmem
      cases hmem
  | @call r next nodes s s₁ s' inner node called rest ihc ih =>
    intro n p hs hb hl hc
    obtain ⟨hstarts, hbegun, hnext⟩ := hb
    obtain ⟨m, hm, -⟩ := called.exists_passed
    have hbody := builds_body r hstarts
    obtain ⟨hmade, -⟩ := called.conforms hall hs hbody (hbegun rfl) (by simp)
    refine ih (n := n + m) ?_ (hnext s₁.stream ⟨inner, s.log, s₁.log, called⟩) hl ?_
    · rw [hm, hs, Stream.drop_drop]
    · have hinner := ihc hs hbody (labelsOnly_body r) (by simp)
      rw [show s = ⟨all.drop n, s.log⟩ by rw [← hs]] at called
      rw [hs] at hstarts
      exact List.forall_mem_cons.2 ⟨.of_children (.rule hstarts called hmade) hinner, hc⟩
  | @goto r nodes s s' node rest ih =>
    intro n p hs hb hl hc
    exact ih hs (builds_body r hb.1) (labelsOnly_body r) hc
  | @gather kind next nodes s s' node rest ih =>
    intro n p hs hb hl hc
    refine ih hs hb.2 hl.2 (List.forall_mem_singleton.2 (.of_children (.statement hl.1) ?_))
    simpa [Node.children] using hc
  | note rest ih =>
    intro n p hs hb hl hc
    exact ih hs hb hl hc
  | close =>
    intro n p hs hb hl hc
    simpa [Node.children] using hc
  | @join kind nodes s =>
    intro n p hs hb hl hc
    obtain ⟨t, ht, -⟩ := exists_token_joined kind nodes.reverse
    rw [ht]
    intro c hmem
    cases hmem

/-- Every node of a parsed tree has an origin in the text. -/
theorem sourced_of_parse (rule : Rule) {entry : rule.needs = 0} {p : Nat} {cs : List Char}
    {node : Node} (hawaits : rule.awaits = []) (hbegun : ∀ next, Fits 1 (rule.begun next))
    (h : (parse rule entry (Stream.ofLexer (.fresh p cs))).result = .ok node) :
    Sourced (Stream.ofLexer (.fresh p cs)) node := by
  obtain ⟨s', hparses⟩ := parse_ok_iff.1 h
  obtain ⟨hmade, -⟩ := conforms_of_parse rule hawaits hbegun h
  have hstarts := rule.starts hawaits (Stream.ofLexer (.fresh p cs))
  have hlexical : ∀ i t, (Stream.ofLexer (.fresh p cs)).ahead i = .ok t →
      t.token.kind.isLexical = true := fun _ _ => Stream.isLexical_of_ahead
  refine .of_children (.rule (n := 0) hstarts hparses hmade) ?_
  exact hparses.sourced hlexical (n := 0) rfl (builds_body rule hstarts) (labelsOnly_body rule)
    (by simp)

/-! ## Nodes of a kind -/

/-- No rule makes a closing brace, so each one in a tree is a terminal of the text. -/
theorem not_makes_closingBrace (r : Rule) :
    [Symbol.terminal .rightBrace] ∉ r.makes.matches' := by
  cases r with
  | upToClose what => cases what <;> decide
  | typeList list => cases list <;> decide
  | typeItems list => cases list <;> decide
  | _ => simp only [Rule.makes]; decide

/-- Comments are made by one rule. -/
theorem eq_lineComment_of_makes {r : Rule} (h : [Symbol.tree .comment] ∈ r.makes.matches') :
    r = .lineComment := by
  cases r with
  | lineComment => rfl
  | upToClose what => cases what <;> exact absurd h (by decide)
  | typeList list => cases list <;> exact absurd h (by decide)
  | typeItems list => cases list <;> exact absurd h (by decide)
  | _ => exact absurd h (by simp only [Rule.makes]; decide)

namespace Origin

variable {all : Stream}

/-- A closing brace is taken from the text as it is. -/
theorem of_closingBrace {z : Token} (h : Origin all (.token z)) (hz : z.kind = .rightBrace) :
    ∃ i t, all.ahead i = .ok t ∧ t.token = z := by
  generalize hn : Node.token z = node at h
  cases h with
  | terminal seen =>
    cases hn
    exact ⟨_, _, seen, rfl⟩
  | @modifier i t tag seen tagged =>
    cases hn
    have htag : tag = .rightBrace := hz
    rw [htag] at tagged
    exact absurd tagged (by decide)
  | statement known => cases hn
  | rule starts parses made =>
    subst hn
    rw [Node.symbol, if_neg (by simp [hz]), hz] at made
    exact absurd made (not_makes_closingBrace _)

/-- A comment is made by the rule for comments, in front of two slashes. -/
theorem of_comment {cs : List Node} (h : Origin all (.tree .comment cs)) :
    ∃ n log s', (all.drop n).Starts [.doubleSlash] ∧
      Parses Rule.lineComment.body [] ⟨all.drop n, log⟩ (.tree .comment cs) s' := by
  generalize hn : Node.tree .comment cs = node at h
  cases h with
  | terminal seen => cases hn
  | modifier seen tagged => cases hn
  | statement known =>
    cases hn
    exact absurd known (by decide)
  | rule starts parses made =>
    subst hn
    cases eq_lineComment_of_makes made
    exact ⟨_, _, _, starts, parses⟩

end Origin

end Grammar

end Lossless
