import Lossless.Proofs.RoundTrip

/-!
# How far a rule sees

A rule looks at terminals before it takes them, and some rules end although they have looked
further than they have taken. `Rule.reach` says how many terminals behind its end a rule may have
seen, and `Rule.least` how many it takes at the least; `Within` states for the steps of a rule that
these numbers are right. Whether a line ends behind a terminal is asked only in comments, and counts
there as if the next terminal had been seen.

* `Parses.transfer`: a parse comes out the same on every stream that agrees with the old one as far
  as the parse could see. The blanks behind the last of these terminals may change; then they change
  in the node and nothing else does;
* `Parses.cut_short`: if a stream breaks off in an error before the end of the parse, the parse
  fails with that error.

A class has reach zero, so nothing behind its closing brace has any influence on it.
-/

namespace Lossless.Grammar

/-! ## Bounds -/

namespace Rule

/-- How many terminals a rule takes at the least, together with the rules that it calls. -/
@[simp] def least : Rule → Nat
  | .qualifiedTail | .inheritanceTail | .memberNameTail | .initializerTail => 0
  | .classDecl | .ctorInitializer => 4
  | .attributeSection | .methodBody => 3
  | .classTail _ | .classBlock _ | .blockComment | .attributeArgs | .member _ | .memberModifiers _
  | .ctorName | .ctorMark | .parameterItems | .parameter | .parameterDefault | .arrayMark
  | .typeList _ | .inheritance => 2
  | _ => 1

/-- How many terminals behind its end a rule can have seen. -/
@[simp] def reach : Rule → Nat
  | .qualifiedName | .qualifiedTail | .inheritance | .inheritanceTail | .typeRef => 2
  | .usingDirective | .lineComment | .commentText | .attributeSection | .attributeArgs
  | .argumentItems | .argumentTail .. | .member _ | .memberModifiers _ | .memberName
  | .memberNameTail | .ctorName | .ctorMark | .fieldInitializer | .initializerTail | .parameter
  | .typeList _ | .typeItems _ => 1
  | _ => 0

/-- Whether the first decision of a rule depends on where a line ends. -/
@[simp] def readsLine : Rule → Bool
  | .lineComment | .commentText => true
  | _ => false

end Rule

/-- What comes next does not depend on whether a line ends behind the terminal that is seen. -/
def LineBlind (next : Glimpse → Step) : Prop :=
  ∀ (g : Glimpse) (line : Bool), next { g with endsLine := line } = next g

/-- The steps of `rule` keep to its bounds. `line` allows the next decision to depend on where a
line ends, `seen` counts the terminals ahead that have been seen and `taken` those that have been
taken. -/
@[simp] def Within (rule : Rule) : Step → (line : Bool) → (seen taken : Nat) → Prop
  | .look n next, false, seen, taken =>
    LineBlind next ∧ ∀ g, Within rule (next g) false (max seen (n + 1)) taken
  | .look n next, true, seen, taken => ∀ g, Within rule (next g) false (max seen (n + 2)) taken
  | .take _ next, _, seen, taken => Within rule next false (seen - 1) (taken + 1)
  | .call r next, _, seen, taken =>
    1 ≤ r.least ∧ Within rule next false (max (seen - r.least) r.reach) (taken + r.least)
  | .goto r, _, seen, taken =>
    seen - r.least ≤ rule.reach ∧ r.reach ≤ rule.reach ∧ rule.least ≤ taken + r.least
  | .gather _ next, line, seen, taken => Within rule next line seen taken
  | .note _ next, line, seen, taken => Within rule next line seen taken
  | .close _, _, seen, taken => seen ≤ rule.reach ∧ rule.least ≤ taken
  | .join _, _, seen, taken => seen ≤ rule.reach ∧ rule.least ≤ taken ∧ 1 ≤ rule.reach
  | .fail _, _, _, _ => True

/-- A choice keeps to the bounds if each branch does, under the condition that leads there. -/
theorem within_ite {rule : Rule} {c : Prop} [Decidable c] {a b : Step} {line : Bool}
    {seen taken : Nat} :
    Within rule (if c then a else b) line seen taken ↔
      (c → Within rule a line seen taken) ∧ (¬c → Within rule b line seen taken) := by
  split <;> simp_all

theorem within_elim {rule : Rule} {α : Type} {o : Option α} {a : Step} {f : α → Step}
    {line : Bool} {seen taken : Nat} :
    Within rule (o.elim a f) line seen taken ↔
      (o = none → Within rule a line seen taken) ∧
        ∀ x, o = some x → Within rule (f x) line seen taken := by
  cases o <;> simp

theorem Glimpse.word?_line (g : Glimpse) (line : Bool) :
    Glimpse.word? { g with endsLine := line } = g.word? := rfl

theorem Glimpse.is_line (g : Glimpse) (line : Bool) (word : String) :
    Glimpse.is { g with endsLine := line } word = g.is word := rfl

/-- What may begin a value is told by its kind. -/
theorem argumentValue_line (assignable : Bool) : LineBlind (argumentValue assignable) := by
  intro g line
  rfl

/-- What starts an item takes a terminal and is followed by no more than one that it has seen. -/
theorem item?_bounds {g : Glimpse} {r : Rule} (h : item? g = some r) :
    1 ≤ r.least ∧ r.reach ≤ 1 := by
  have hr := item?_mem h
  simp only [List.mem_cons, List.not_mem_nil, or_false] at hr
  rcases hr with rfl | rfl | rfl | rfl | rfl | rfl <;> decide

/-- An item and what follows it keep to the bounds of the rule that collects the items. -/
theorem within_items {rule : Rule} (hleast : rule.least = 1) (hreach : rule.reach = 0)
    {other : Glimpse → Step} (hblind : LineBlind other)
    (hother : ∀ g, Within rule (other g) false 1 0) :
    Within rule (.look 0 fun g => (item? g).elim (other g) fun r => .call r (.goto rule)) false
      0 0 := by
  constructor
  · intro g line
    show (item? g).elim (other { g with endsLine := line }) _ = _
    rw [hblind g line]
  · intro g
    refine within_elim.2 ⟨fun _ => hother g, ?_⟩
    intro r hr
    rcases item?_bounds hr with ⟨h₁, h₂⟩
    refine ⟨h₁, ?_, ?_, ?_⟩
    all_goals simp only [hleast, hreach]
    all_goals omega

/-- Every rule keeps to its bounds. -/
theorem within_body (rule : Rule) : Within rule rule.body rule.readsLine 0 0 := by
  -- Items are called by a table, so their bounds come from `item?_bounds` and not from `simp`.
  cases rule with
  | unitItems =>
    rw [Rule.body, unitItems_eq]
    exact within_items rfl rfl (fun _ _ => rfl) fun g => by simp [within_ite]
  | namespaceItems =>
    rw [Rule.body, namespaceItems_eq]
    exact within_items rfl rfl (fun _ _ => rfl) fun g => by simp [within_ite]
  | _ =>
    simp [within_ite, within_elim] <;>
      grind [LineBlind, Glimpse.word?_line, Glimpse.is_line, argumentValue_line]

/-! ## Streams that agree -/

/-- The first `n` terminals of two streams are the same tokens, except that in the second stream the
blanks behind the last of them are `b`. -/
def Agree (b : Trivia) (n : Nat) (s t : Stream) : Prop :=
  ∀ i < n, ∃ x y, s.ahead i = .ok x ∧ t.ahead i = .ok y ∧
    y.token = if i + 1 = n then { x.token with trailing := b } else x.token

/-- What agrees still agrees when the same number of terminals has been taken from both. -/
theorem Agree.drop {b : Trivia} {k n : Nat} {s t : Stream} (h : Agree b (k + n) s t) :
    Agree b n (s.drop k) (t.drop k) := by
  intro i hi
  rcases h (k + i) (by omega) with ⟨x, y, hx, hy, hxy⟩
  refine ⟨x, y, ?_, ?_, ?_⟩
  · rw [Stream.ahead_drop, hx]
  · rw [Stream.ahead_drop, hy]
  · rw [hxy]
    simp only [Nat.add_assoc, Nat.add_right_inj]

/-- Streams agree up to a terminal in which they differ by the blanks behind it. -/
theorem Agree.append {b : Trivia} {x y : Terminal} (h : y.token = { x.token with trailing := b })
    (us rest rest' : List Terminal) (ending ending' : Ending) :
    Agree b (us.length + 1) ⟨us ++ x :: rest, ending⟩ ⟨us ++ y :: rest', ending'⟩ := by
  intro i hi
  by_cases hlast : i = us.length
  · refine ⟨x, y, ?_, ?_, ?_⟩
    · simp [Stream.ahead, hlast]
    · simp [Stream.ahead, hlast]
    · rw [h, if_pos (by omega)]
  · have hlt : i < us.length := by omega
    refine ⟨us[i], us[i], ?_, ?_, ?_⟩
    · simp [Stream.ahead, List.getElem?_append_left hlt, List.getElem?_eq_getElem hlt]
    · simp [Stream.ahead, List.getElem?_append_left hlt, List.getElem?_eq_getElem hlt]
    · rw [if_neg (by omega)]

/-- Whatever is seen of a terminal is the same in both streams, except for the end of the line
behind the last one. -/
theorem Agree.look {b : Trivia} {n : Nat} {s t : Stream} (h : Agree b n s t) {i : Nat} (hi : i < n)
    {x : Terminal} (hx : s.ahead i = .ok x) :
    ∃ y, t.ahead i = .ok y ∧
      Glimpse.ofTerminal y = { Glimpse.ofTerminal x with endsLine := y.token.endsLine } ∧
      (i + 1 < n → Glimpse.ofTerminal y = Glimpse.ofTerminal x) := by
  rcases h i hi with ⟨x', y, hx', hy, hxy⟩
  rw [hx] at hx'
  cases hx'
  refine ⟨y, hy, ?_, ?_⟩
  · simp only [Glimpse.ofTerminal, hxy]
    split <;> rfl
  · intro hlt
    rw [if_neg (by omega)] at hxy
    simp only [Glimpse.ofTerminal, hxy]

/-- The second list of nodes is the first, the newest first in both. If no terminal is left, the
blanks behind the last token are `b` in the second list. -/
def Renewed (b : Trivia) (n : Nat) (ns ms : List Node) : Prop :=
  if n = 0 then
    Node.modifyLastTokenIn? (fun t => { t with trailing := b }) ns.reverse = some ms.reverse
  else ms = ns

/-- A list that ends with a tree with a token is changed there. -/
theorem modifyLastTokenIn?_concat {f : Token → Token} {n m : Node}
    (h : n.modifyLastToken? f = some m) (ns : List Node) :
    Node.modifyLastTokenIn? f (ns ++ [n]) = some (ns ++ [m]) := by
  induction ns with
  | nil => simp [Node.modifyLastTokenIn?, h]
  | cons k ns ih => simp [Node.modifyLastTokenIn?, ih]

namespace Renewed

variable {b : Trivia} {n : Nat}

theorem eq_of_pos {ns ms : List Node} (h : Renewed b n ns ms) (hn : 0 < n) : ms = ns := by
  unfold Renewed at h
  rwa [if_neg (by omega)] at h

theorem modify {node m : Node} (h : Renewed b 0 [node] [m]) :
    node.modifyLastToken? (fun t => { t with trailing := b }) = some m := by
  simpa [Renewed, Node.modifyLastTokenIn?] using h

/-- A new node is added behind nodes that do not change. -/
theorem cons {node m : Node} (h : Renewed b n [node] [m]) (ns : List Node) :
    Renewed b n (node :: ns) (m :: ns) := by
  unfold Renewed at h ⊢
  split at h
  · rename_i hn
    rw [if_pos hn, List.reverse_cons, List.reverse_cons]
    exact modifyLastTokenIn?_concat (by simpa [Node.modifyLastTokenIn?] using h) ns.reverse
  · rename_i hn
    cases h
    rw [if_neg hn]

/-- A terminal is the last one, and then has the new blanks, or it is the same in both. -/
theorem leaf {x y : Terminal} {tag : Option Kind}
    (h : y.token = if n = 0 then { x.token with trailing := b } else x.token) :
    Renewed b n [Grammar.leaf tag x] [Grammar.leaf tag y] := by
  unfold Renewed
  split
  · rename_i hn
    rw [if_pos hn] at h
    simp [Node.modifyLastTokenIn?, Node.modifyLastToken?, Grammar.leaf, h]
  · rename_i hn
    rw [if_neg hn] at h
    simp [Grammar.leaf, h]

/-- The change goes through to a node over all nodes. -/
theorem tree {ns ms : List Node} (h : Renewed b n ns ms) (kind : Kind) :
    Renewed b n [.tree kind ns.reverse] [.tree kind ms.reverse] := by
  unfold Renewed at h ⊢
  split at h
  · rename_i hn
    rw [if_pos hn]
    simp [Node.modifyLastTokenIn?, Node.modifyLastToken?, h]
  · rename_i hn
    rw [if_neg hn, h]

end Renewed

/-! ## Parses on streams that agree -/

/-- A step that takes the next `k` terminals for its node comes to the same end on every stream that
agrees as far as `reach` terminals behind these. -/
structure Carries (reach k : Nat) (step : Step) (nodes : List Node) (s : Stream) (node : Node) :
    Prop where
  renew : ∀ {b : Trivia} {n : Nat} {t : Stream} {ms : List Node} (log : List Event),
    reach ≤ n → Agree b (k + n) s t → Renewed b (k + n) nodes ms →
    ∃ m log', Parses step ms ⟨t, log⟩ m ⟨t.drop k, log'⟩ ∧ Renewed b n [node] [m]

namespace Carries

variable {reach k : Nat} {nodes : List Node} {s : Stream} {node : Node} {next : Step}

theorem weaken {reach' : Nat} {step : Step} (h : Carries reach k step nodes s node)
    (hle : reach ≤ reach') : Carries reach' k step nodes s node := by
  refine ⟨?_⟩
  intro b n t ms log hn hagree hnodes
  exact h.renew log (Nat.le_trans hle hn) hagree hnodes

/-- The terminal that is looked at may be the last that agrees, if its line end is not seen. -/
theorem look {i : Fin 3} {next : Glimpse → Step} {x : Terminal} (seen : s.ahead i = .ok x)
    (blind : LineBlind next) (near : i.val < k + reach)
    (h : Carries reach k (next (.ofTerminal x)) nodes s node) :
    Carries reach k (.look i next) nodes s node := by
  refine ⟨?_⟩
  intro b n t ms log hn hagree hnodes
  rcases hagree.look (by omega) seen with ⟨y, hy, hglimpse, -⟩
  rcases h.renew log hn hagree hnodes with ⟨m, log', hm, hnode⟩
  refine ⟨m, log', .look hy ?_, hnode⟩
  rw [hglimpse, blind]
  exact hm

/-- If the next terminal counts as seen, this one is not the last and its line end is the same. -/
theorem look_line {i : Fin 3} {next : Glimpse → Step} {x : Terminal} (seen : s.ahead i = .ok x)
    (near : i.val + 1 < k + reach) (h : Carries reach k (next (.ofTerminal x)) nodes s node) :
    Carries reach k (.look i next) nodes s node := by
  refine ⟨?_⟩
  intro b n t ms log hn hagree hnodes
  rcases hagree.look (by omega) seen with ⟨y, hy, -, hglimpse⟩
  rcases h.renew log hn hagree hnodes with ⟨m, log', hm, hnode⟩
  refine ⟨m, log', .look hy ?_, hnode⟩
  rw [hglimpse (by omega)]
  exact hm

/-- The terminal that is taken is the last that agrees, or the same as before; both are a new node
of their kind. -/
theorem take {tag : Option Kind} {x : Terminal} (seen : s.ahead 0 = .ok x)
    (h : Carries reach k next (leaf tag x :: nodes) s.tail node) :
    Carries reach (1 + k) (.take tag next) nodes s node := by
  refine ⟨?_⟩
  intro b n t ms log hn hagree hnodes
  rw [Nat.add_assoc] at hagree hnodes
  rcases hagree 0 (by omega) with ⟨x', y, hx', hy, hxy⟩
  rw [seen] at hx'
  cases hx'
  -- A terminal is still to be taken, so the nodes collected before it are the same.
  have hms := hnodes.eq_of_pos (by omega)
  subst hms
  have hleaf : Renewed b (k + n) [Grammar.leaf tag x] [Grammar.leaf tag y] := by
    apply Renewed.leaf
    rw [hxy]
    simp only [Nat.zero_add, Nat.left_eq_add]
  have hbehind := hagree.drop
  rw [← Stream.tail_eq_drop, ← Stream.tail_eq_drop] at hbehind
  rcases h.renew log hn hbehind (hleaf.cons ms) with ⟨m, log', hm, hnode⟩
  refine ⟨m, log', .take hy ?_, hnode⟩
  rw [Stream.tail_eq_drop, Stream.drop_drop, ← Stream.tail_eq_drop] at hm
  exact hm

/-- A rule that is called takes at least one terminal, so the nodes so far are not changed any more,
and its own node may be. -/
theorem call {rule : Rule} {reach₁ k₁ : Nat} {inner : Node}
    (hc : Carries reach₁ k₁ rule.body [] s inner) (hone : 1 ≤ k₁) (near : reach₁ ≤ k + reach)
    (h : Carries reach k next (inner :: nodes) (s.drop k₁) node) :
    Carries reach (k₁ + k) (.call rule next) nodes s node := by
  refine ⟨?_⟩
  intro b n t ms log hn hagree hnodes
  have hms := hnodes.eq_of_pos (by omega)
  subst hms
  rw [Nat.add_assoc] at hagree
  -- The rule that is called starts without nodes; it takes a terminal, so none is missing.
  have hnone : Renewed b (k₁ + (k + n)) [] [] := by
    unfold Renewed
    rw [if_neg (by omega)]
  rcases hc.renew log (by omega) hagree hnone with ⟨m₁, log₁, hm₁, hinner⟩
  rcases h.renew log₁ hn hagree.drop (hinner.cons ms) with ⟨m, log', hm, hnode⟩
  refine ⟨m, log', .call hm₁ ?_, hnode⟩
  rw [Stream.drop_drop] at hm
  exact hm

theorem goto {rule : Rule} (h : Carries reach k rule.body nodes s node) :
    Carries reach k (.goto rule) nodes s node := by
  refine ⟨?_⟩
  intro b n t ms log hn hagree hnodes
  rcases h.renew log hn hagree hnodes with ⟨m, log', hm, hnode⟩
  exact ⟨m, log', .goto hm, hnode⟩

theorem gather {kind : Kind} (h : Carries reach k next [.tree kind nodes.reverse] s node) :
    Carries reach k (.gather kind next) nodes s node := by
  refine ⟨?_⟩
  intro b n t ms log hn hagree hnodes
  rcases h.renew log hn hagree (hnodes.tree kind) with ⟨m, log', hm, hnode⟩
  exact ⟨m, log', .gather hm, hnode⟩

theorem note {event : Nat → Event} (h : Carries reach k next nodes s node) :
    Carries reach k (.note event next) nodes s node := by
  refine ⟨?_⟩
  intro b n t ms log hn hagree hnodes
  rcases h.renew (event ms.length :: log) hn hagree hnodes with ⟨m, log', hm, hnode⟩
  exact ⟨m, log', .note hm, hnode⟩

theorem close (kind : Kind) (nodes : List Node) (s : Stream) :
    Carries reach 0 (.close kind) nodes s (.tree kind nodes.reverse) := by
  refine ⟨?_⟩
  intro b n t ms log hn hagree hnodes
  rw [Nat.zero_add] at hnodes
  exact ⟨.tree kind ms.reverse, log, .close, hnodes.tree kind⟩

/-- Joined terminals lose their own blanks, so the last one must not be among them. -/
theorem join (hone : 1 ≤ reach) (kind : Kind) (nodes : List Node) (s : Stream) :
    Carries reach 0 (.join kind) nodes s (joined kind nodes.reverse) := by
  refine ⟨?_⟩
  intro b n t ms log hn hagree hnodes
  have hms := hnodes.eq_of_pos (by omega)
  subst hms
  refine ⟨joined kind ms.reverse, log, .join, ?_⟩
  unfold Renewed
  rw [if_neg (by omega)]

end Carries

/-- A parse sees no more terminals than it takes and `rule.reach` more, and it comes out the same on
every stream that agrees as far as that. -/
theorem Parses.transfer {rule : Rule} {step : Step} {nodes : List Node} {s s' : State} {node : Node}
    (h : Parses step nodes s node s') :
    ∀ {line : Bool} {seen taken : Nat}, Within rule step line seen taken →
      ∃ k, s.stream.Passed k s'.stream ∧ seen ≤ k + rule.reach ∧ rule.least ≤ taken + k ∧
        Carries rule.reach k step nodes s.stream node := by
  -- The number of terminals taken and the simulation are proved together: how far the streams have
  -- to agree is counted from what the rest of the parse takes.
  induction h generalizing rule with
  | @look i next nodes s s' x node seen rest ih =>
    intro line before taken hw
    cases line with
    | false =>
      rcases hw with ⟨hblind, hw⟩
      rcases ih (hw (.ofTerminal x)) with ⟨k, hs', hseen, hleast, hsim⟩
      exact ⟨k, hs', by omega, hleast, .look seen hblind (by omega) hsim⟩
    | true =>
      rcases ih (hw (.ofTerminal x)) with ⟨k, hs', hseen, hleast, hsim⟩
      exact ⟨k, hs', by omega, hleast, .look_line seen (by omega) hsim⟩
  | @take tag next nodes s s' x node seen rest ih =>
    intro line before taken hw
    rcases ih hw with ⟨k, hs', hseen, hleast, hsim⟩
    exact ⟨1 + k, (Stream.Passed.one seen).trans hs', by omega, by omega, .take seen hsim⟩
  | @call r next nodes s s₁ s' inner node called rest ihc ih =>
    intro line before taken hw
    rcases hw with ⟨hone, hw⟩
    rcases ihc (within_body r) with ⟨k₁, hs₁, -, hleast₁, hsim₁⟩
    rcases ih hw with ⟨k₂, hs', hseen, hleast, hsim⟩
    rw [hs₁.1] at hsim
    exact ⟨k₁ + k₂, hs₁.trans hs', by omega, by omega, .call hsim₁ (by omega) (by omega) hsim⟩
  | @goto r nodes s s' node rest ih =>
    intro line before taken hw
    rcases hw with ⟨hseen, hreach, hleast⟩
    rcases ih (within_body r) with ⟨k, hs', -, hleast', hsim⟩
    exact ⟨k, hs', by omega, by omega, .goto (hsim.weaken hreach)⟩
  | gather rest ih =>
    intro line before taken hw
    rcases ih hw with ⟨k, hs', hseen, hleast, hsim⟩
    exact ⟨k, hs', hseen, hleast, .gather hsim⟩
  | note rest ih =>
    intro line before taken hw
    rcases ih hw with ⟨k, hs', hseen, hleast, hsim⟩
    exact ⟨k, hs', hseen, hleast, .note hsim⟩
  | @close kind nodes s =>
    intro line before taken hw
    exact ⟨0, .zero _, by simpa using hw.1, by simpa using hw.2, .close kind nodes s.stream⟩
  | @join kind nodes s =>
    intro line before taken hw
    exact ⟨0, .zero _, by simpa using hw.1, by simpa using hw.2.1, .join hw.2.2 kind nodes s.stream⟩

/-! ## Parses on streams that break off -/

/-- The second stream has the first `n` tokens of the first one and then an error. -/
def BreaksOff (f : Fault) (n : Nat) (s t : Stream) : Prop :=
  (∀ i < n, ∃ x y, s.ahead i = .ok x ∧ t.ahead i = .ok y ∧ y.token = x.token) ∧
    ∀ i, n ≤ i → t.ahead i = .error f

/-- A stream that breaks off does so as well when the same number of terminals has been taken from
both. -/
theorem BreaksOff.drop {f : Fault} {k n : Nat} {s t : Stream} (h : BreaksOff f (k + n) s t) :
    BreaksOff f n (s.drop k) (t.drop k) := by
  rcases h with ⟨hsame, hfault⟩
  constructor
  · intro i hi
    rcases hsame (k + i) (by omega) with ⟨x, y, hx, hy, hxy⟩
    refine ⟨x, y, ?_, ?_, hxy⟩
    · rw [Stream.ahead_drop, hx]
    · rw [Stream.ahead_drop, hy]
  · intro i hi
    rw [Stream.ahead_drop]
    exact hfault (k + i) (by omega)

/-- A stream breaks off where its terminals end and an error follows. -/
theorem BreaksOff.append {f : Fault} (us rest : List Terminal) (ending : Ending) :
    BreaksOff f us.length ⟨us ++ rest, ending⟩ ⟨us, .fault f⟩ := by
  constructor
  · intro i hi
    refine ⟨us[i], us[i], ?_, ?_, rfl⟩
    · simp [Stream.ahead, List.getElem?_append_left hi, List.getElem?_eq_getElem hi]
    · simp [Stream.ahead, List.getElem?_eq_getElem hi]
  · intro i hi
    simp [Stream.ahead, List.getElem?_eq_none hi]

/-- Where a stream breaks off, a parse either has ended before or fails with the error. -/
theorem Parses.cut_short {f : Fault} {step : Step} {nodes : List Node} {s s' : State} {node : Node}
    (h : Parses step nodes s node s') :
    ∀ {n : Nat} {t : Stream} (log : List Event), BreaksOff f n s.stream t →
      (∃ k log', k ≤ n ∧ s'.stream = s.stream.drop k ∧
        Parses step nodes ⟨t, log⟩ node ⟨t.drop k, log'⟩) ∨
      ∃ log', Fails step nodes ⟨t, log⟩ (.lexical f) log' := by
  induction h with
  | @look i next nodes s s' x node seen rest ih =>
    intro n t log hb
    -- Whether the terminal is there decides between the two outcomes.
    by_cases hi : i.val < n
    · rcases hb.1 i hi with ⟨x', y, hx', hy, hxy⟩
      rw [seen] at hx'
      cases hx'
      have hglimpse : Glimpse.ofTerminal y = Glimpse.ofTerminal x := by
        simp only [Glimpse.ofTerminal, hxy]
      rcases ih log hb with ⟨k, log', hk, hs', hm⟩ | ⟨log', hf⟩
      · rw [← hglimpse] at hm
        exact Or.inl ⟨k, log', hk, hs', .look hy hm⟩
      · rw [← hglimpse] at hf
        exact Or.inr ⟨log', .look hy hf⟩
    · exact Or.inr ⟨log, .lookFault (hb.2 i (by omega))⟩
  | @take tag next nodes s s' x node seen rest ih =>
    intro n t log hb
    cases n with
    | zero => exact Or.inr ⟨log, .takeFault (hb.2 0 (Nat.le_refl 0))⟩
    | succ n =>
      rcases hb.1 0 (by omega) with ⟨x', y, hx', hy, hxy⟩
      rw [seen] at hx'
      cases hx'
      have hleaf : leaf tag y = leaf tag x := by
        simp only [leaf, hxy]
      rw [Nat.add_comm] at hb
      have hbehind := hb.drop
      rw [← Stream.tail_eq_drop, ← Stream.tail_eq_drop] at hbehind
      rcases ih log hbehind with ⟨k, log', hk, hs', hm⟩ | ⟨log', hf⟩
      · rw [← hleaf] at hm
        refine Or.inl ⟨1 + k, log', by omega, ?_, .take hy ?_⟩
        · rw [hs', Stream.tail_eq_drop, Stream.drop_drop]
        · rw [Stream.tail_eq_drop, Stream.drop_drop, ← Stream.tail_eq_drop] at hm
          exact hm
      · rw [← hleaf] at hf
        exact Or.inr ⟨log', .take hy hf⟩
  | @call r next nodes s s₁ s' inner node called rest ihc ih =>
    intro n t log hb
    rcases ihc log hb with ⟨k₁, log₁, hk₁, hs₁, hm₁⟩ | ⟨log', hf⟩
    · rcases Nat.exists_eq_add_of_le hk₁ with ⟨n₂, rfl⟩
      have hbehind := hb.drop
      rw [← hs₁] at hbehind
      rcases ih log₁ hbehind with ⟨k₂, log', hk₂, hs', hm⟩ | ⟨log', hf⟩
      · refine Or.inl ⟨k₁ + k₂, log', by omega, ?_, .call hm₁ ?_⟩
        · rw [hs', hs₁, Stream.drop_drop]
        · rw [Stream.drop_drop] at hm
          exact hm
      · exact Or.inr ⟨log', .call hm₁ hf⟩
    · exact Or.inr ⟨log', .called hf⟩
  | goto rest ih =>
    intro n t log hb
    rcases ih log hb with ⟨k, log', hk, hs', hm⟩ | ⟨log', hf⟩
    · exact Or.inl ⟨k, log', hk, hs', .goto hm⟩
    · exact Or.inr ⟨log', .goto hf⟩
  | gather rest ih =>
    intro n t log hb
    rcases ih log hb with ⟨k, log', hk, hs', hm⟩ | ⟨log', hf⟩
    · exact Or.inl ⟨k, log', hk, hs', .gather hm⟩
    · exact Or.inr ⟨log', .gather hf⟩
  | @note event next nodes s s' node rest ih =>
    intro n t log hb
    rcases ih (event nodes.length :: log) hb with ⟨k, log', hk, hs', hm⟩ | ⟨log', hf⟩
    · exact Or.inl ⟨k, log', hk, hs', .note hm⟩
    · exact Or.inr ⟨log', .note hf⟩
  | close =>
    intro n t log hb
    exact Or.inl ⟨0, log, Nat.zero_le n, rfl, .close⟩
  | join =>
    intro n t log hb
    exact Or.inl ⟨0, log, Nat.zero_le n, rfl, .join⟩

end Lossless.Grammar
