import Lossless.Proofs.RoundTrip

/-!
# Parses on streams that look alike

A decision sees no more of a terminal than its kind, its text and the end of its line. On two
streams that show the same of every terminal, a rule takes the same steps, and what it makes differs
only as far as the terminals do. How far that is depends on the streams, so it is a parameter: a
`Likeness` relates the nodes made from the same stretch of both streams, and has to be closed under
the few ways in which nodes are made.

* `Parses.alike`: a parse on the one stream has a like parse on the other;
* `Fails.alike`: a parse that fails on the one stream fails on the other, for the same cause and at
  the same place;
* `parse_alike`: both together, for whole parses.
-/

namespace Lossless

open Grammar

/-- All that a decision can see of the first stream is also there in the second. -/
def Stream.Resembles (s t : Stream) : Prop :=
  ∀ i x, s.ahead i = .ok x → ∃ y, t.ahead i = .ok y ∧ Glimpse.ofTerminal y = Glimpse.ofTerminal x

/-- What a stream does not have, the one that resembles it does not have either. -/
theorem Stream.Resembles.error {s t : Stream} (h : t.Resembles s) {i : Nat} {f : Fault}
    (hf : s.ahead i = .error f) : ∃ f', t.ahead i = .error f' := by
  cases ht : t.ahead i with
  | error f' => exact ⟨f', rfl⟩
  | ok y =>
    rcases h i y ht with ⟨x, hx, -⟩
    rw [hf] at hx
    cases hx

namespace Grammar

/-! ## What is joined -/

/-- Nodes of `S` from terminal `i` on, the newest first, that are joined under a kind: terminals and
nothing else, which become the text of a comment or, if they begin with a point, a word. -/
structure Joinable (S : Stream) (i : Nat) (kind : Kind) (nodes : List Node) : Prop where
  ne_nil : nodes ≠ []
  flat : ∀ n ∈ nodes, n.isToken = true
  use : kind = .commentText ∨ kind = .ident ∧
    ∃ x, S.ahead i = .ok x ∧ x.token.kind = .dot ∧ nodes.getLast? = some (leaf none x)

/-- The steps join terminals to nothing but the text of a comment, and only if there are any.
`filled` says that nodes have been collected. -/
@[simp] def Plain : Step → (filled : Bool) → Prop
  | .look _ next, filled => ∀ g, Plain (next g) filled
  | .take _ next, _ | .call _ next, _ | .gather _ next, _ => Plain next true
  | .goto r, _ => r ≠ .ctorMark
  | .note _ next, filled => Plain next filled
  | .join kind, filled => kind = .commentText ∧ filled = true
  | .close _, _ | .fail _, _ => True

/-- A choice is plain if each branch is. -/
theorem plain_ite {c : Prop} [Decidable c] {a b : Step} {filled : Bool} :
    Plain (if c then a else b) filled ↔ (c → Plain a filled) ∧ (¬c → Plain b filled) := by
  split <;> simp_all

theorem plain_elim {α : Type} {o : Option α} {a : Step} {f : α → Step} {filled : Bool} :
    Plain (o.elim a f) filled ↔
      (o = none → Plain a filled) ∧ ∀ x, o = some x → Plain (f x) filled := by
  cases o <;> simp

/-- Only a constructor mark is joined to a word. -/
theorem plain_body {rule : Rule} (h : rule ≠ .ctorMark) : Plain rule.body false := by
  cases rule with
  | ctorMark => exact absurd rfl h
  | _ => simp [plain_ite, plain_elim]

/-- A constructor mark is a point and a word. -/
theorem Parses.ctorMark_iff {s s' : State} {node : Node} :
    Parses Rule.ctorMark.body [] s node s' ↔
      ∃ x y, s.stream.ahead 0 = .ok x ∧ x.token.kind = .dot ∧
        s.stream.tail.ahead 0 = .ok y ∧ y.token.kind = .ident ∧
        node = joined .ident [leaf none x, leaf none y] ∧
        s' = { s with stream := s.stream.tail.tail } := by
  simp only [Rule.body, ctorMark, parses_expect]
  constructor
  · rintro ⟨x, hx, hdot, y, hy, hident, rest⟩
    cases rest
    exact ⟨x, y, hx, hdot, hy, hident, rfl, rfl⟩
  · rintro ⟨x, y, hx, hdot, hy, hident, rfl, rfl⟩
    exact ⟨x, hx, hdot, y, hy, hident, .join⟩

/-- What a step may join are terminals. -/
theorem Faithful.flat {kind : Kind} {nodes : List Node} {s : State}
    (h : Faithful (.join kind) nodes s) : ∀ n ∈ nodes, n.isToken = true := by
  rcases h with ⟨word, flat, ⟨-, hflat⟩, -, hnodes⟩
  exact hnodes hflat

/-! ## Likenesses -/

/-- A relation between the nodes that are made from the terminals `i` up to `j` of two streams, the
newest first, that each way of making nodes preserves. -/
structure Likeness (S T : Stream) where
  Rel : (i j : Nat) → List Node → List Node → Prop
  nil : ∀ i, Rel i i [] []
  leaf : ∀ {j x y} (tag : Option Kind), S.ahead j = .ok x → T.ahead j = .ok y →
    Rel j (j + 1) [leaf tag x] [leaf tag y]
  cons : ∀ {i j k ns ms n m}, Rel i j ns ms → Rel j k [n] [m] → Rel i k (n :: ns) (m :: ms)
  tree : ∀ {i j ns ms} (kind : Kind), Rel i j ns ms →
    Rel i j [.tree kind ns.reverse] [.tree kind ms.reverse]
  join : ∀ {i j ns ms kind}, Rel i j ns ms → Joinable S i kind ns →
    Rel i j [joined kind ns.reverse] [joined kind ms.reverse]

/-- The relation that holds of all nodes. -/
def Likeness.trivial (S T : Stream) : Likeness S T where
  Rel _ _ _ _ := True
  nil _ := True.intro
  leaf _ _ _ := True.intro
  cons _ _ := True.intro
  tree _ _ := True.intro
  join _ _ := True.intro

variable {S T : Stream}

/-- A like parse of a constructor mark. -/
theorem Parses.alike_ctorMark (L : Likeness S T) (hst : S.Resembles T) {j : Nat} {s s' : State}
    {node : Node} (h : Parses Rule.ctorMark.body [] s node s') (hs : s.stream = S.drop j)
    (log : List Event) :
    ∃ k m log', s'.stream = S.drop k ∧
      Parses Rule.ctorMark.body [] ⟨T.drop j, log⟩ m ⟨T.drop k, log'⟩ ∧ L.Rel j k [node] [m] := by
  rcases Parses.ctorMark_iff.1 h with ⟨x, y, hx, hdot, hy, hident, rfl, rfl⟩
  rw [hs, Stream.tail_drop, Stream.ahead_drop] at hy
  rw [hs, Stream.ahead_drop] at hx
  rw [Nat.add_zero] at hx hy
  -- Both terminals of the mark are seen in the other stream, at the same places.
  rcases hst _ _ hx with ⟨x', hx', hglimpse⟩
  rcases hst _ _ hy with ⟨y', hy', hglimpse'⟩
  have hdot' : x'.token.kind = .dot := (congrArg Glimpse.kind hglimpse).trans hdot
  have hident' : y'.token.kind = .ident := (congrArg Glimpse.kind hglimpse').trans hident
  refine ⟨j + 2, joined .ident [Grammar.leaf none x', Grammar.leaf none y'], log, ?_, ?_, ?_⟩
  · show s.stream.tail.tail = _
    rw [hs, Stream.tail_drop, Stream.tail_drop]
  · refine Parses.ctorMark_iff.2 ⟨x', y', ?_, hdot', ?_, hident', rfl, ?_⟩
    · rw [Stream.ahead_drop, Nat.add_zero, hx']
    · rw [Stream.tail_drop, Stream.ahead_drop, Nat.add_zero, hy']
    · simp only [Stream.tail_drop]
  · -- The two leaves are alike, and so are the words they are joined to.
    have hnodes := L.cons (L.leaf none hx hx') (L.leaf none hy hy')
    have hjoin : Joinable S j .ident [Grammar.leaf none y, Grammar.leaf none x] := by
      refine ⟨List.cons_ne_nil _ _, ?_, Or.inr ⟨rfl, x, hx, hdot, rfl⟩⟩
      simp [Node.isToken, Node.token?]
    exact L.join hnodes hjoin

/-- A parse on one stream has a like parse on every stream that resembles it. -/
theorem Parses.alike (L : Likeness S T) (hst : S.Resembles T) {step : Step} {nodes : List Node}
    {s s' : State} {node : Node} (h : Parses step nodes s node s') :
    ∀ {i j : Nat} {filled : Bool} {ms : List Node} (log : List Event), s.stream = S.drop j →
      Plain step filled → (filled = true → nodes ≠ []) → Faithful step nodes s →
      L.Rel i j nodes ms →
      ∃ k m log', s'.stream = S.drop k ∧ Parses step ms ⟨T.drop j, log⟩ m ⟨T.drop k, log'⟩ ∧
        L.Rel i k [node] [m] := by
  -- Both parses stand at terminal `j`, and their nodes from terminal `i` on are alike.
  induction h with
  | @look n next nodes s s' x node seen rest ih =>
    intro i j filled ms log hs hplain hfilled hf hrel
    rcases ih log hs (hplain (.ofTerminal x)) hfilled (hf.look seen) hrel with
      ⟨k, m, log', hs', hm, hnode⟩
    rw [hs, Stream.ahead_drop] at seen
    rcases hst _ _ seen with ⟨y, hy, hglimpse⟩
    rw [← Stream.ahead_drop] at hy
    rw [← hglimpse] at hm
    exact ⟨k, m, log', hs', .look hy hm, hnode⟩
  | @take tag next nodes s s' x node seen rest ih =>
    intro i j filled ms log hs hplain hfilled hf hrel
    have hfaithful := (hf.take seen).2
    rw [hs, Stream.ahead_drop, Nat.add_zero] at seen
    rcases hst _ _ seen with ⟨y, hy, -⟩
    have htail : s.stream.tail = S.drop (j + 1) := by rw [hs, Stream.tail_drop]
    rcases ih log htail hplain (fun _ => List.cons_ne_nil _ _) hfaithful
      (L.cons hrel (L.leaf tag seen hy)) with ⟨k, m, log', hs', hm, hnode⟩
    refine ⟨k, m, log', hs', .take (t := y) ?_ ?_, hnode⟩
    · show (T.drop j).ahead 0 = .ok y
      rw [Stream.ahead_drop, Nat.add_zero, hy]
    · show Parses next _ ⟨(T.drop j).tail, log⟩ m _
      rw [Stream.tail_drop]
      exact hm
  | @call rule next nodes s s₁ s' inner node called rest ihc ih =>
    intro i j filled ms log hs hplain hfilled hf hrel
    -- The rule that is called begins a stretch of its own.
    have hcalled : ∃ k m log', s₁.stream = S.drop k ∧
        Parses rule.body [] ⟨T.drop j, log⟩ m ⟨T.drop k, log'⟩ ∧ L.Rel j k [inner] [m] := by
      by_cases hrule : rule = .ctorMark
      · subst hrule
        exact called.alike_ctorMark L hst hs log
      · exact ihc log hs (plain_body hrule) (by simp) (.body rule s) (L.nil j)
    rcases hcalled with ⟨k₁, m₁, log₁, hs₁, hm₁, hinner⟩
    rcases ih log₁ hs₁ hplain (fun _ => List.cons_ne_nil _ _) (hf.call inner s₁)
      (L.cons hrel hinner) with ⟨k, m, log', hs', hm, hnode⟩
    exact ⟨k, m, log', hs', .call hm₁ hm, hnode⟩
  | @goto rule nodes s s' node rest ih =>
    intro i j filled ms log hs hplain hfilled hf hrel
    rcases ih log hs (plain_body hplain) (by simp) hf.goto hrel with ⟨k, m, log', hs', hm, hnode⟩
    exact ⟨k, m, log', hs', .goto hm, hnode⟩
  | @gather kind next nodes s s' node rest ih =>
    intro i j filled ms log hs hplain hfilled hf hrel
    rcases ih log hs hplain (fun _ => List.cons_ne_nil _ _) hf.gather (L.tree kind hrel) with
      ⟨k, m, log', hs', hm, hnode⟩
    exact ⟨k, m, log', hs', .gather hm, hnode⟩
  | @note event next nodes s s' node rest ih =>
    intro i j filled ms log hs hplain hfilled hf hrel
    rcases ih (event ms.length :: log) hs hplain hfilled (hf.note _) hrel with
      ⟨k, m, log', hs', hm, hnode⟩
    exact ⟨k, m, log', hs', .note hm, hnode⟩
  | @close kind nodes s =>
    intro i j filled ms log hs hplain hfilled hf hrel
    exact ⟨j, _, log, hs, .close, L.tree kind hrel⟩
  | @join kind nodes s =>
    intro i j filled ms log hs hplain hfilled hf hrel
    exact ⟨j, _, log, hs, .join, L.join hrel ⟨hfilled hplain.2, hf.flat, Or.inl hplain.1⟩⟩

/-- A rule that is called at terminal `j` of one stream has a like parse on the other. -/
theorem Parses.alike_body (L : Likeness S T) (hst : S.Resembles T) {rule : Rule} {j : Nat}
    {s s' : State} {node : Node} (h : Parses rule.body [] s node s') (hs : s.stream = S.drop j)
    (log : List Event) :
    ∃ k m log', s'.stream = S.drop k ∧
      Parses rule.body [] ⟨T.drop j, log⟩ m ⟨T.drop k, log'⟩ ∧ L.Rel j k [node] [m] := by
  by_cases hrule : rule = .ctorMark
  · subst hrule
    exact h.alike_ctorMark L hst hs log
  · exact h.alike L hst log hs (plain_body hrule) (by simp) (.body rule s) (L.nil j)

/-! ## Failures -/

/-- Two failures for the same cause at the same place of two streams. -/
inductive Failure.Mirrored (S T : Stream) : Failure → Failure → Prop where
  | lexical {i : Nat} {f f' : Fault} (here : S.ahead i = .error f) (there : T.ahead i = .error f') :
      Mirrored S T (.lexical f) (.lexical f')
  | grammar {i : Nat} {x y : Terminal} (cause : GrammarCause) (here : S.ahead i = .ok x)
      (there : T.ahead i = .ok y) :
      Mirrored S T (.grammar cause x.span) (.grammar cause y.span)

/-- A failure at the same place of two streams that resemble each other, whatever nodes have been
collected on the second. -/
theorem Fails.alike (hst : S.Resembles T) (hts : T.Resembles S) {step : Step} {nodes : List Node}
    {s : State} {e : Failure} {log : List Event} (h : Fails step nodes s e log) :
    ∀ {j : Nat} (ms : List Node) (log' : List Event), s.stream = S.drop j →
      ∃ e' log'', Fails step ms ⟨T.drop j, log'⟩ e' log'' ∧ e.Mirrored S T e' := by
  -- Nodes have no influence on a failure, so nothing has to be known of them.
  induction h with
  | look seen rest ih =>
    intro j ms log' hs
    rcases ih ms log' hs with ⟨e', log'', hf, he⟩
    rw [hs, Stream.ahead_drop] at seen
    rcases hst _ _ seen with ⟨y, hy, hglimpse⟩
    rw [← Stream.ahead_drop] at hy
    rw [← hglimpse] at hf
    exact ⟨e', log'', .look hy hf, he⟩
  | lookFault seen =>
    intro j ms log' hs
    rw [hs, Stream.ahead_drop] at seen
    rcases hts.error seen with ⟨f', hf'⟩
    refine ⟨.lexical f', log', .lookFault ?_, .lexical seen hf'⟩
    rw [Stream.ahead_drop, hf']
  | @take tag next nodes s x e log seen rest ih =>
    intro j ms log' hs
    rw [hs, Stream.ahead_drop] at seen
    rcases hst _ _ seen with ⟨y, hy, -⟩
    rw [← Stream.ahead_drop] at hy
    have htail : s.stream.tail = S.drop (j + 1) := by rw [hs, Stream.tail_drop]
    rcases ih (leaf tag y :: ms) log' htail with ⟨e', log'', hf, he⟩
    rw [← Stream.tail_drop] at hf
    exact ⟨e', log'', .take hy hf, he⟩
  | takeFault seen =>
    intro j ms log' hs
    rw [hs, Stream.ahead_drop] at seen
    rcases hts.error seen with ⟨f', hf'⟩
    refine ⟨.lexical f', log', .takeFault ?_, .lexical seen hf'⟩
    rw [Stream.ahead_drop, hf']
  | called inner ih =>
    intro j ms log' hs
    rcases ih [] log' hs with ⟨e', log'', hf, he⟩
    exact ⟨e', log'', .called hf, he⟩
  | call called rest ih =>
    intro j ms log' hs
    rcases called.alike_body (.trivial S T) hst hs log' with ⟨k, m, log₁, hs₁, hm, -⟩
    rcases ih (m :: ms) log₁ hs₁ with ⟨e', log'', hf, he⟩
    exact ⟨e', log'', .call hm hf, he⟩
  | goto rest ih =>
    intro j ms log' hs
    rcases ih ms log' hs with ⟨e', log'', hf, he⟩
    exact ⟨e', log'', .goto hf, he⟩
  | gather rest ih =>
    intro j ms log' hs
    rcases ih _ log' hs with ⟨e', log'', hf, he⟩
    exact ⟨e', log'', .gather hf, he⟩
  | note rest ih =>
    intro j ms log' hs
    rcases ih ms _ hs with ⟨e', log'', hf, he⟩
    exact ⟨e', log'', .note hf, he⟩
  | @fail cause nodes s x seen =>
    intro j ms log' hs
    rw [hs, Stream.ahead_drop] at seen
    rcases hst _ _ seen with ⟨y, hy, -⟩
    refine ⟨.grammar cause y.span, log', .fail ?_, .grammar cause seen hy⟩
    rw [Stream.ahead_drop, hy]
  | failFault seen =>
    intro j ms log' hs
    rw [hs, Stream.ahead_drop] at seen
    rcases hts.error seen with ⟨f', hf'⟩
    refine ⟨.lexical f', log', .failFault ?_, .lexical seen hf'⟩
    rw [Stream.ahead_drop, hf']

/-! ## Whole parses -/

/-- A rule comes to like ends on streams that resemble each other. -/
theorem parse_alike (L : Likeness S T) (hst : S.Resembles T) (hts : T.Resembles S) (rule : Rule)
    (entry : rule.needs = 0) :
    match (parse rule entry S).result, (parse rule entry T).result with
    | .ok n, .ok m => ∃ k, L.Rel 0 k [n] [m]
    | .error e, .error e' =>
      ∃ f f' : Failure, e = f.error ∧ e' = f'.error ∧ f.Mirrored S T f'
    | _, _ => False := by
  -- The end of one run is mirrored in the other, so they end alike.
  cases hS : (parse rule entry S).result with
  | ok n =>
    rcases parse_ok_iff.1 hS with ⟨s', hn⟩
    rcases hn.alike_body L hst (j := 0) rfl [] with ⟨k, m, log', -, hm, hrel⟩
    have hT : (parse rule entry T).result = .ok m := parse_ok_iff.2 ⟨_, hm⟩
    rw [hT]
    exact ⟨k, hrel⟩
  | error e =>
    rcases parse_error_iff.1 hS with ⟨f, log, hf, rfl⟩
    rcases hf.alike hst hts (j := 0) [] [] rfl with ⟨f', log', hf', hmirror⟩
    have hT : (parse rule entry T).result = .error f'.error :=
      parse_error_iff.2 ⟨f', log', hf', rfl⟩
    rw [hT]
    exact ⟨f, f', rfl, rfl, hmirror⟩

end Grammar

end Lossless
