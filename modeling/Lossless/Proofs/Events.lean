import Lossless.Proofs.Members
import Lossless.View.Declaration

/-!
# Events are read off the tree

A parse reports each class when its block is complete, and each terminal of a namespace that it
passes over. All of this can be found again in the tree: `Node.events` goes through it from left to
right, and reports what is inside a node before the node itself.

The events of a rule come in the order in which it collects its nodes. `Begun` says what has been
reported when a rule is entered with some nodes, `Rule.tells` what it has reported when it is done,
and `Tells` follows the reports through the steps of a rule. `Parses.told` concludes that a parse
reports the events of the node that it makes.
-/

namespace Lossless

/-! ## The events of a tree -/

namespace Node

/-- What is reported of a terminal that is passed over. -/
def passed (n : Node) : List Event :=
  (n.token?.map fun t => Event.passedThrough t.kind t.text).toList

/-- What is reported of a class: its name and the number of children of its block. -/
def completed (n : Node) : List Event :=
  ((n.view? .classDecl).bind fun c =>
    (ClassView.name? c).map (.parsedClass · (ClassView.items c).length)).toList

mutual

/-- The events of a tree, from left to right and children first. A class is reported behind all that
is inside it. Of the children of a namespace, the terminals strictly between its own braces, which
are its second and its last child, are reported as passed over. -/
def events : Node → List Event
  | .token _ => []
  | .tree k cs =>
    eventsIn (fun i => k == .namespaceDecl && decide (1 < i ∧ i + 1 < cs.length)) 0 cs ++
      completed (.tree k cs)

/-- The events of the children of a node from number `i` on, where `inside` tells at which numbers a
terminal is reported. -/
def eventsIn (inside : Nat → Bool) (i : Nat) : List Node → List Event
  | [] => []
  | n :: ns => (if inside i then n.passed else []) ++ (n.events ++ eventsIn inside (i + 1) ns)

end

/-- The events of nodes in a row that stand directly in a namespace. -/
def keptEvents (ns : List Node) : List Event := ns.flatMap fun n => n.passed ++ n.events

@[simp] theorem events_token (t : Token) : (token t).events = [] := by
  rw [events]

@[simp] theorem passed_token (t : Token) : (token t).passed = [.passedThrough t.kind t.text] := rfl

@[simp] theorem passed_tree (k : Kind) (cs : List Node) : (tree k cs).passed = [] := rfl

@[simp] theorem keptEvents_nil : keptEvents [] = [] := rfl

@[simp] theorem keptEvents_append (as bs : List Node) :
    keptEvents (as ++ bs) = keptEvents as ++ keptEvents bs := by
  simp [keptEvents]

@[simp] theorem keptEvents_singleton (n : Node) : keptEvents [n] = n.passed ++ n.events := by
  simp [keptEvents]

/-- The events of children are told part by part, if the numbers of the children are counted on. -/
theorem eventsIn_append (inside : Nat → Bool) (i : Nat) (as bs : List Node) :
    eventsIn inside i (as ++ bs) = eventsIn inside i as ++ eventsIn inside (i + as.length) bs := by
  induction as generalizing i with
  | nil => simp [eventsIn]
  | cons a as ih =>
    rw [List.cons_append, eventsIn, eventsIn, ih, List.length_cons, Nat.add_right_comm i 1,
      Nat.add_assoc i]
    simp

/-- Where no terminal is reported, the events are those of the nodes. -/
theorem eventsIn_outside {inside : Nat → Bool} (ns : List Node) :
    ∀ {i : Nat}, (∀ j, i ≤ j → j < i + ns.length → inside j = false) →
      eventsIn inside i ns = ns.flatMap events := by
  induction ns with
  | nil =>
    intro i _
    rw [eventsIn, List.flatMap_nil]
  | cons n ns ih =>
    intro i h
    rw [List.length_cons] at h
    rw [eventsIn, h i (Nat.le_refl i) (by omega), List.flatMap_cons,
      ih fun j hij hj => h j (by omega) (by omega)]
    rfl

/-- Where all terminals are reported, the events are those of nodes in a namespace. -/
theorem eventsIn_inside {inside : Nat → Bool} (ns : List Node) :
    ∀ {i : Nat}, (∀ j, i ≤ j → j < i + ns.length → inside j = true) →
      eventsIn inside i ns = keptEvents ns := by
  induction ns with
  | nil =>
    intro i _
    rw [eventsIn, keptEvents_nil]
  | cons n ns ih =>
    intro i h
    rw [List.length_cons] at h
    rw [eventsIn, h i (Nat.le_refl i) (by omega), if_pos rfl, keptEvents, List.flatMap_cons,
      ih fun j hij hj => h j (by omega) (by omega), List.append_assoc, keptEvents]

/-- Only classes are reported as completed. -/
theorem completed_of_ne {k : Kind} (h : k ≠ .classDecl) (cs : List Node) :
    completed (tree k cs) = [] := by
  have hview : (tree k cs).view? .classDecl = none := dif_neg h
  rw [completed, hview]
  rfl

/-- Of most nodes nothing is reported but what is inside them. -/
theorem events_tree {k : Kind} (hn : k ≠ .namespaceDecl) (hc : k ≠ .classDecl) (cs : List Node) :
    (tree k cs).events = cs.flatMap events := by
  rw [events, completed_of_ne hc, List.append_nil]
  refine eventsIn_outside cs fun j _ _ => ?_
  rw [beq_false_of_ne hn, Bool.false_and]

/-- A class is reported behind what is inside it. -/
theorem events_class (cs : List Node) :
    (tree .classDecl cs).events = cs.flatMap events ++ completed (tree .classDecl cs) := by
  rw [events]
  congr 1
  exact eventsIn_outside cs fun j _ _ => rfl

/-- In a namespace the terminals between the braces are reported. -/
theorem events_namespace (statement : Node) (opening closing : Token) (body : List Node) :
    (tree .namespaceDecl (statement :: .token opening :: (body ++ [.token closing]))).events =
      statement.events ++ keptEvents body := by
  rw [events, completed_of_ne (by decide), List.append_nil, eventsIn, eventsIn, eventsIn_append,
    eventsIn_inside body, eventsIn, eventsIn]
  · have hlast : decide (1 < 0 + 1 + 1 + body.length ∧ 0 + 1 + 1 + body.length + 1 <
        (statement :: .token opening :: (body ++ [.token closing])).length) = false := by
      simp only [List.length_cons, List.length_append, List.length_nil, decide_eq_false_iff_not]
      omega
    rw [hlast]
    simp
  · intro j hj hlt
    rw [beq_self_eq_true, Bool.true_and, decide_eq_true_eq]
    simp only [List.length_cons, List.length_append, List.length_nil]
    omega

end Node

namespace Grammar

open Node

/-! ## What rules report -/

/-- The events of the nodes that a rule has collected, the newest first. -/
def collected (nodes : List Node) : List Event := nodes.reverse.flatMap events

@[simp] theorem collected_nil : collected [] = [] := rfl

/-- A new node is told behind those before it. -/
@[simp] theorem collected_cons (n : Node) (nodes : List Node) :
    collected (n :: nodes) = collected nodes ++ n.events := by
  simp [collected]

/-- What a rule has reported when it has made a node. The block of a class reports the class as
well. -/
@[simp] def Rule.tells : Rule → Node → List Event
  | .classBlock name, n | .classItems name, n => n.events ++ [.parsedClass name n.children.length]
  | _, n => n.events

/-- What has been reported, and what is known of the nodes, when a rule is entered. -/
@[simp] def Begun : Rule → List Node → List Event → Prop
  | .namespaceItems, nodes, told | .passing _, nodes, told =>
    ∃ statement opening body, nodes.reverse = statement :: .token opening :: body ∧
      told = statement.events ++ keptEvents body
  | .classDecl, nodes, told => told = collected nodes ∧ ∀ n ∈ nodes, n.kind ≠ .ident
  | .classTail name, nodes, told => told = collected nodes ∧ secondWord? nodes.reverse = some name
  | .commentText, _, told | .ctorMark, _, told => told = []
  | _, nodes, told => told = collected nodes

/-- The steps of `rule` report what they should: `told` is what has been reported since the rule was
called. -/
@[simp] def Tells (rule : Rule) : Step → List Node → List Event → Stream → Prop
  | .look n next, nodes, told, s =>
    ∀ t, s.ahead n = .ok t → Tells rule (next (.ofTerminal t)) nodes told s
  | .take tag next, nodes, told, s =>
    ∀ t, s.ahead 0 = .ok t → Tells rule next (leaf tag t :: nodes) told s.tail
  | .call r next, nodes, told, _ =>
    Begun r [] [] ∧ ∀ inner s', [inner.symbol] ∈ r.makes.matches' →
      Tells rule next (inner :: nodes) (told ++ r.tells inner) s'
  | .goto r, nodes, told, _ => Begun r nodes told ∧ r.tells = rule.tells
  | .gather kind next, nodes, told, s => Tells rule next [.tree kind nodes.reverse] told s
  | .note event next, nodes, told, s => Tells rule next nodes (told ++ [event nodes.length]) s
  | .close kind, nodes, told, _ => told = rule.tells (.tree kind nodes.reverse)
  | .join kind, nodes, told, _ => told = rule.tells (joined kind nodes.reverse)
  | .fail _, _, _, _ => True

section Steps

variable {rule : Rule} {nodes : List Node} {told : List Event} {s : Stream}

/-- A choice tells what it should iff each branch does, under the condition that leads there. -/
theorem tells_ite {c : Prop} [Decidable c] {a b : Step} :
    Tells rule (if c then a else b) nodes told s ↔
      (c → Tells rule a nodes told s) ∧ (¬c → Tells rule b nodes told s) := by
  split <;> simp_all

theorem tells_elim {α : Type} {o : Option α} {a : Step} {f : α → Step} :
    Tells rule (o.elim a f) nodes told s ↔
      (o = none → Tells rule a nodes told s) ∧
        ∀ x, o = some x → Tells rule (f x) nodes told s := by
  cases o <;> simp

/-- A terminal that has been seen is taken as it is. -/
theorem Tells.bump {next : Step} {t : Terminal} (ht : s.ahead 0 = .ok t)
    (h : Tells rule next (.token t.token :: nodes) told s.tail) :
    Tells rule (bump next) nodes told s := by
  intro u hu
  rw [ht] at hu
  cases hu
  exact h

end Steps

/-! ## Rules that report nothing themselves -/

/-- The rules that report what the rules that they call report, and nothing else. -/
@[simp] def Rule.silent : Rule → Bool
  | .namespaceDecl | .namespaceItems | .passing _ | .classDecl | .classTail _ | .classBlock _
  | .classItems _ | .commentText | .ctorMark => false
  | _ => true

/-- The rules that go on with what another rule has begun to report, or that report more than the
events of the node they make. -/
@[simp] def Rule.resumes : Rule → Bool
  | .namespaceItems | .passing _ | .classTail _ | .classBlock _ | .classItems _ => true
  | _ => false

/-- The steps report nothing themselves, and leave namespaces and classes to other rules. -/
@[simp] def Silent : Step → Prop
  | .look _ next => ∀ g, Silent (next g)
  | .take _ next => Silent next
  | .call r next => r.resumes = false ∧ Silent next
  | .goto r => r.silent = true
  | .gather _ _ | .note _ _ | .join _ => False
  | .close kind => kind ≠ .namespaceDecl ∧ kind ≠ .classDecl
  | .fail _ => True

theorem silent_ite {c : Prop} [Decidable c] {a b : Step} :
    Silent (if c then a else b) ↔ (c → Silent a) ∧ (¬c → Silent b) := by
  split <;> simp_all

theorem silent_elim {α : Type} {o : Option α} {a : Step} {f : α → Step} :
    Silent (o.elim a f) ↔ (o = none → Silent a) ∧ ∀ x, o = some x → Silent (f x) := by
  cases o <;> simp

/-- The rules that items start begin with no nodes of others. -/
theorem item?_resumes {g : Glimpse} {r : Rule} (h : item? g = some r) : r.resumes = false := by
  have hmem := item?_mem h
  simp only [List.mem_cons, List.not_mem_nil, or_false] at hmem
  rcases hmem with rfl | rfl | rfl | rfl | rfl | rfl <;> rfl

/-- Most rules report nothing of their own, which is checked rule by rule. -/
theorem silent_body {rule : Rule} (h : rule.silent = true) : Silent rule.body := by
  cases rule with
  | unitItems =>
    rw [Rule.body, unitItems_eq]
    intro g
    refine silent_elim.2 ⟨fun _ => by simp [silent_ite], fun r hr => ?_⟩
    exact ⟨item?_resumes hr, rfl⟩
  | upToClose what => cases what <;> simp [silent_ite, Verbatim.kind]
  | typeItems list => cases list <;> simp [silent_ite, TypeList.kind]
  | memberTail isCtor => cases isCtor <;> simp [silent_ite]
  | namespaceDecl | namespaceItems | passing _ | classDecl | classTail _ | classBlock _
  | classItems _ | commentText | ctorMark => cases h
  | _ => simp [silent_ite, silent_elim]

/-- A silent rule begins with the events of its nodes told, and no more. -/
theorem begun_of_silent {r : Rule} (h : r.silent = true) (nodes : List Node) (told : List Event) :
    Begun r nodes told ↔ told = collected nodes := by
  cases r <;> first | exact Iff.rfl | cases h

/-- A rule that does not go on with another one can be called for, and then reports the events of
the node that it makes. -/
theorem begun_call {r : Rule} (h : r.resumes = false) : Begun r [] [] ∧ r.tells = Node.events := by
  cases r with
  | namespaceItems | passing _ | classTail _ | classBlock _ | classItems _ => cases h
  | _ => exact ⟨by simp, rfl⟩

theorem tells_of_silent {r : Rule} (h : r.silent = true) : r.tells = Node.events := by
  refine (begun_call ?_).2
  cases r <;> first | rfl | cases h

/-- Behind a call, what has been reported is again what the nodes have collected. -/
theorem tells_call {rule r : Rule} {next : Step} {nodes : List Node} {s : Stream}
    (hr : r.resumes = false) (h : ∀ inner s', [inner.symbol] ∈ r.makes.matches' →
      Tells rule next (inner :: nodes) (collected (inner :: nodes)) s') :
    Tells rule (.call r next) nodes (collected nodes) s := by
  rcases begun_call hr with ⟨hbegun, htells⟩
  refine ⟨hbegun, ?_⟩
  intro inner s' hinner
  rw [htells, ← collected_cons]
  exact h inner s' hinner

/-- Silent steps report the events of the nodes that they collect. -/
theorem Silent.tells {rule : Rule} (hrule : rule.tells = Node.events) {step : Step}
    (h : Silent step) : ∀ (nodes : List Node) (s : Stream),
      Tells rule step nodes (collected nodes) s := by
  -- By induction on the step: what has been told so far is what the collected nodes tell.
  induction step with
  | look n next ih =>
    intro nodes s t _
    exact ih _ (h _) nodes s
  | take tag next ih =>
    intro nodes s t _
    have hnext := ih h (leaf tag t :: nodes) s.tail
    rw [collected_cons, leaf, events_token, List.append_nil] at hnext
    exact hnext
  | call r next ih =>
    intro nodes s
    exact tells_call h.1 fun inner s' _ => ih h.2 (inner :: nodes) s'
  | goto r =>
    intro nodes s
    exact ⟨(begun_of_silent h nodes _).2 rfl, (tells_of_silent h).trans hrule.symm⟩
  -- A step that gathers, notes or joins is not silent.
  | gather kind next ih => exact absurd h id
  | note event next ih => exact absurd h id
  | close kind =>
    intro nodes s
    show collected nodes = rule.tells (.tree kind nodes.reverse)
    rw [hrule, events_tree h.1 h.2]
    rfl
  | join kind => exact absurd h id
  | fail cause =>
    intro nodes s
    trivial

theorem events_joined (kind : Kind) (ns : List Node) : (joined kind ns).events = [] := by
  rcases exists_token_joined kind ns with ⟨t, ht, -⟩
  rw [ht, events_token]

/-! ## Namespaces -/

/-- A terminal is reported and then taken. -/
theorem tells_passOver {rule : Rule} (hrule : rule.tells = Node.events) {depth : Nat}
    {nodes : List Node} {told : List Event} {s : Stream} {t : Terminal}
    (hbegun : Begun .namespaceItems nodes told) (ht : s.ahead 0 = .ok t) :
    Tells rule (passOver depth (.ofTerminal t)) nodes told s := by
  rcases hbegun with ⟨statement, opening, body, hnodes, rfl⟩
  rw [passOver_eq]
  -- Whatever rule goes on, what has been reported is the same.
  have hmore : ∃ statement' opening' body', (Node.token t.token :: nodes).reverse =
      statement' :: .token opening' :: body' ∧
        statement.events ++ keptEvents body ++ [.passedThrough t.token.kind t.token.text] =
          statement'.events ++ keptEvents body' := by
    refine ⟨statement, opening, body ++ [.token t.token], ?_, ?_⟩
    · rw [List.reverse_cons, hnodes]
      rfl
    · simp
  have hitems : ∀ s', Tells rule (.goto .namespaceItems) (.token t.token :: nodes)
      (statement.events ++ keptEvents body ++ [.passedThrough t.token.kind t.token.text]) s' :=
    fun _ => ⟨hmore, hrule.symm⟩
  have hpassing : ∀ n s', Tells rule (.goto (.passing n)) (.token t.token :: nodes)
      (statement.events ++ keptEvents body ++ [.passedThrough t.token.kind t.token.text]) s' :=
    fun _ _ => ⟨hmore, hrule.symm⟩
  refine Tells.bump ht (tells_ite.2 ⟨fun _ => hpassing _ _, fun _ => tells_ite.2 ⟨fun _ => ?_,
    fun _ => tells_ite.2 ⟨fun _ => ?_, fun _ => hpassing _ _⟩⟩⟩)
  · exact tells_ite.2 ⟨fun _ => hitems _, fun _ => hpassing _ _⟩
  · exact tells_ite.2 ⟨fun _ => hitems _, fun _ => hpassing _ _⟩

/-- Behind the opening brace nothing of the namespace has been told but its statement. -/
theorem tells_namespaceDecl {nodes : List Node} {told : List Event} {s : Stream}
    (h : Begun .namespaceDecl nodes told) :
    Tells .namespaceDecl Rule.namespaceDecl.body nodes told s := by
  cases (show told = collected nodes from h)
  intro t ht
  refine ⟨rfl, ?_⟩
  intro inner s' _ u hu
  refine tells_ite.2 ⟨fun _ => .bump hu ⟨⟨_, u.token, [], rfl, ?_⟩, rfl⟩, fun _ => trivial⟩
  rw [events_tree (by decide) (by decide)]
  simp [collected, leaf]

/-- Items are trees, so they are not reported as passed over. -/
theorem isTree_of_makes_item {g : Glimpse} {r : Rule} {n : Node} (hr : item? g = some r)
    (hn : [n.symbol] ∈ r.makes.matches') : n.passed = [] := by
  have hmem := item?_mem hr
  simp only [List.mem_cons, List.not_mem_nil, or_false] at hmem
  rcases hmem with rfl | rfl | rfl | rfl | rfl | rfl <;>
    · rcases Node.eq_tree_of_symbol (List.singleton_inj.1 hn) with ⟨cs, rfl⟩
      rfl

/-- An item is told like any child; the closing brace ends the namespace and is not reported. -/
theorem tells_namespaceItems {nodes : List Node} {told : List Event} {s : Stream}
    (h : Begun .namespaceItems nodes told) :
    Tells .namespaceItems Rule.namespaceItems.body nodes told s := by
  rw [Rule.body, namespaceItems_eq]
  intro t ht
  refine tells_elim.2 ⟨fun _ => ?_, fun r hr => ?_⟩
  · refine tells_ite.2 ⟨fun _ => ?_, fun _ => tells_ite.2 ⟨fun _ => trivial, fun _ =>
      tells_passOver rfl h ht⟩⟩
    -- The brace closes the namespace; what was told of the items is what the tree tells of its
    -- body.
    rcases h with ⟨statement, opening, body, hnodes, rfl⟩
    refine Tells.bump ht ?_
    show _ = Node.events (.tree .namespaceDecl (Node.token t.token :: nodes).reverse)
    rw [List.reverse_cons, hnodes, List.cons_append, List.cons_append, events_namespace]
  · -- An item joins the body with its own events behind those of the others.
    rcases h with ⟨statement, opening, body, hnodes, rfl⟩
    rcases begun_call (item?_resumes hr) with ⟨hbegun, htells⟩
    refine ⟨hbegun, ?_⟩
    intro inner s' hinner
    refine ⟨⟨statement, opening, body ++ [inner], ?_, ?_⟩, rfl⟩
    · rw [List.reverse_cons, hnodes]
      rfl
    · rw [htells, keptEvents_append, keptEvents_singleton, isTree_of_makes_item hr hinner,
        List.nil_append, List.append_assoc]

/-- What is passed over goes on or goes back to the items, with the same events told. -/
theorem tells_passing {depth : Nat} {nodes : List Node} {told : List Event} {s : Stream}
    (h : Begun (.passing depth) nodes told) :
    Tells (.passing depth) (Rule.passing depth).body nodes told s := by
  intro t ht
  refine tells_ite.2 ⟨fun _ => tells_ite.2 ⟨fun _ => ⟨h, rfl⟩, fun _ => trivial⟩, fun _ =>
    tells_ite.2 ⟨fun _ => ⟨h, rfl⟩, fun _ => tells_passOver rfl h ht⟩⟩

/-! ## Classes -/

/-- In front of the name a class has only modifiers, which have no events. -/
theorem tells_classDecl {nodes : List Node} {told : List Event} {s : Stream}
    (h : Begun .classDecl nodes told) : Tells .classDecl Rule.classDecl.body nodes told s := by
  rcases h with ⟨rfl, hkinds⟩
  rw [Rule.body, classDecl_eq]
  intro t ht
  refine tells_elim.2 ⟨fun _ => tells_ite.2 ⟨fun hword => ?_, fun _ => trivial⟩, fun tag htag => ?_⟩
  · refine .bump ht ?_
    intro u hu
    refine tells_ite.2 ⟨fun hident => .bump hu ⟨⟨by simp, ?_⟩, rfl⟩, fun _ => trivial⟩
    exact secondWord?_words hkinds (Glimpse.is_iff.1 hword).1 hident
  · intro u _
    refine ⟨⟨by simp [leaf], ?_⟩, rfl⟩
    refine List.forall_mem_cons.2 ⟨?_, hkinds⟩
    have hmem := classModifier?_mem (word?_bind htag).2
    intro hident
    have htagged : tag = .ident := hident
    rw [htagged] at hmem
    exact absurd hmem (by decide)

/-- What is reported of a class can be found in it. -/
theorem completed_class {name : String} {statement comments block : List Node}
    (hname : secondWord? statement = some name) (hcomments : ∀ n ∈ comments, n.kind = .comment) :
    Node.completed (.tree .classDecl
        (.tree .classStatement statement :: (comments ++ [.tree .classBlock block]))) =
      [.parsedClass name block.length] := by
  have hblock : (.tree .classStatement statement :: (comments ++ [.tree .classBlock block])).find?
      (·.kind == .classBlock) = some (Node.tree .classBlock block) := by
    -- The comments between the statement and the block hide no other block.
    have hnone : comments.find? (·.kind == .classBlock) = none := by
      rw [List.find?_eq_none]
      intro n hn
      rw [hcomments n hn]
      decide
    rw [List.find?_cons_of_neg (by simp [Node.kind]), List.find?_append, hnone]
    rfl
  -- The name and the items are what the views of the class show.
  have hitems : ∀ c : ClassView, c.node = .tree .classDecl
      (.tree .classStatement statement :: (comments ++ [.tree .classBlock block])) →
        ClassView.name? c = some name ∧ ClassView.items c = block := by
    intro c hc
    constructor
    · rw [ClassView.name?, ClassView.statement?, hc]
      exact hname
    · rw [ClassView.items, ClassView.block?, hc, Node.firstOfKind?, Node.children, hblock]
      rfl
  have hview : Node.view? .classDecl (.tree .classDecl
      (.tree .classStatement statement :: (comments ++ [.tree .classBlock block]))) =
        some ⟨_, rfl⟩ := dif_pos rfl
  rw [Node.completed, hview, Option.bind_some, (hitems _ rfl).1, (hitems _ rfl).2]
  rfl

/-- The block of a class is read behind its statement, with a comment between them or not. -/
theorem tells_classEnd {name : String} {nodes statement : List Node} (comments : List Node)
    (hname : secondWord? statement = some name) (hcomments : ∀ n ∈ comments, n.kind = .comment)
    (hnodes : nodes.reverse = .tree .classStatement statement :: comments) (s : Stream) :
    Tells (.classTail name) (classEnd name) nodes (collected nodes) s := by
  intro t _
  refine tells_ite.2 ⟨fun _ => ⟨rfl, ?_⟩, fun _ => trivial⟩
  intro inner s' hinner
  rcases Node.eq_tree_of_symbol (List.singleton_inj.1 hinner) with ⟨block, rfl⟩
  show collected nodes ++ (events (.tree .classBlock block) ++ [.parsedClass name block.length]) =
    events (.tree .classDecl (Node.tree .classBlock block :: nodes).reverse)
  have hchildren : (Node.tree .classBlock block :: nodes).reverse =
      .tree .classStatement statement :: (comments ++ [.tree .classBlock block]) := by
    rw [List.reverse_cons, hnodes, List.cons_append]
  rw [events_class, hchildren, completed_class hname hcomments, ← hchildren, ← List.append_assoc,
    ← collected_cons]
  rfl

/-- The rest of a statement, from its comment on, keeps the name at its place. -/
theorem tells_classMiddle {name : String} {nodes : List Node}
    (hname : secondWord? nodes.reverse = some name) (s : Stream) :
    Tells (.classTail name) (classMiddle name) nodes (collected nodes) s := by
  have hcollected : collected nodes = collected [.tree .classStatement nodes.reverse] := by
    rw [collected_cons, events_tree (by decide) (by decide)]
    rfl
  rw [hcollected]
  intro t _
  refine tells_ite.2 ⟨fun _ => tells_call rfl ?_, fun _ => tells_classEnd [] hname (by simp) rfl s⟩
  intro inner s' hinner
  rcases Node.eq_tree_of_symbol (List.singleton_inj.1 hinner) with ⟨cs, rfl⟩
  exact tells_classEnd [.tree .comment cs] hname (by simp [Node.kind]) rfl s'

/-- Base types have no events and stand behind the name. -/
theorem tells_classBases {name : String} {nodes : List Node}
    (hname : secondWord? nodes.reverse = some name) (s : Stream) :
    Tells (.classTail name) (classBases name) nodes (collected nodes) s := by
  intro t _
  refine tells_ite.2 ⟨fun _ => tells_call rfl ?_, fun _ => tells_classMiddle hname s⟩
  intro inner s' _
  refine tells_classMiddle ?_ s'
  rw [List.reverse_cons]
  exact secondWord?_concat hname inner

/-- The name that the block reports is the second word of the statement. -/
theorem tells_classTail {name : String} {nodes : List Node} {told : List Event} {s : Stream}
    (h : Begun (.classTail name) nodes told) :
    Tells (.classTail name) (Rule.classTail name).body nodes told s := by
  rcases h with ⟨rfl, hname⟩
  intro t _
  refine tells_ite.2 ⟨fun _ => tells_call rfl ?_, fun _ => tells_classBases hname s⟩
  intro inner s' _
  refine tells_classBases ?_ s'
  rw [List.reverse_cons]
  exact secondWord?_concat hname inner

/-- A choice that is made by looks alone tells what both of its ways tell. -/
theorem tells_ifNestedClass {rule : Rule} {g : Glimpse} {yes no : Step} {nodes : List Node}
    {told : List Event} {s : Stream} (hyes : Tells rule yes nodes told s)
    (hno : Tells rule no nodes told s) : Tells rule (ifNestedClass g yes no) nodes told s := by
  refine tells_ite.2 ⟨fun _ => hyes, fun _ => tells_ite.2 ⟨fun _ => ?_, fun _ => hno⟩⟩
  intro t _
  refine tells_ite.2 ⟨fun _ => hyes, fun _ => tells_ite.2 ⟨fun _ => ?_, fun _ => hno⟩⟩
  intro u _
  exact tells_ite.2 ⟨fun _ => hyes, fun _ => hno⟩

/-- The closing brace of a block reports the class, with the number of nodes between the braces and
the braces. -/
theorem tells_classItems {name : String} {nodes : List Node} {told : List Event} {s : Stream}
    (h : Begun (.classItems name) nodes told) :
    Tells (.classItems name) (Rule.classItems name).body nodes told s := by
  cases (show told = collected nodes from h)
  have hmore : ∀ {r : Rule}, r.resumes = false →
      Tells (.classItems name) (.call r (.goto (.classItems name))) nodes (collected nodes) s := by
    intro r hr
    exact tells_call hr fun inner s' _ => ⟨rfl, rfl⟩
  rw [Rule.body, classItems_eq]
  intro t ht
  refine tells_ite.2 ⟨fun _ => .bump ht ?_, fun _ => tells_ite.2 ⟨fun _ => trivial, fun _ =>
    tells_ite.2 ⟨fun _ => hmore rfl, fun _ => tells_ite.2 ⟨fun _ => hmore rfl, fun _ =>
    tells_ite.2 ⟨fun _ => hmore rfl, fun _ => tells_ifNestedClass (hmore rfl) (hmore rfl)⟩⟩⟩⟩⟩
  show _ = Node.events _ ++ _
  rw [events_tree (by decide) (by decide)]
  simp [collected, Node.children]

/-! ## All rules -/

/-- Every rule reports what it should. -/
theorem tells_body {rule : Rule} {nodes : List Node} {told : List Event} (s : Stream)
    (h : Begun rule nodes told) : Tells rule rule.body nodes told s := by
  -- Most rules are silent and only pass on what they collect; the others have lemmas of their own.
  by_cases hsilent : rule.silent = true
  · rw [(begun_of_silent hsilent nodes told).1 h]
    exact (silent_body hsilent).tells (tells_of_silent hsilent) nodes s
  · cases rule with
    | namespaceDecl => exact tells_namespaceDecl h
    | namespaceItems => exact tells_namespaceItems h
    | passing depth => exact tells_passing h
    | classDecl => exact tells_classDecl h
    | classTail name => exact tells_classTail h
    | classBlock name =>
      intro t _
      exact ⟨by simpa [leaf] using h, rfl⟩
    | classItems name => exact tells_classItems h
    | commentText =>
      cases (show told = [] from h)
      simp [tells_ite, events_joined]
    | ctorMark =>
      cases (show told = [] from h)
      simp [tells_ite, events_joined]
    | _ => exact absurd rfl hsilent

/-! ## Runs -/

variable {c : Contract}

/-- A parse by steps that report what they should reports the events of the node that it makes. -/
theorem Parses.told {step : Step} {nodes : List Node} {s s' : State} {node : Node}
    (h : Parses step nodes s node s') :
    ∀ {rule : Rule} {p : Pattern} {told : List Event}, c.Covers s.stream →
      Builds rule step s.stream p → Tells rule step nodes told s.stream →
      ∃ new, s'.log = new.reverse ++ s.log ∧ told ++ new = rule.tells node := by
  -- The pattern is carried along only to know what the rules that are called make.
  induction h with
  | @look i next nodes s s' t node seen rest ih =>
    intro rule p told hs hb ht
    exact ih hs (hb t seen (hs.lexical i t seen)) (ht t seen)
  | @take tag next nodes s s' t node seen rest ih =>
    intro rule p told hs hb ht
    exact ih hs.tail (hb t seen (hs.lexical 0 t seen)).2 (ht t seen)
  | @call r next nodes s s₁ s' inner node called rest ihc ih =>
    intro rule p told hs hb ht
    rcases hb with ⟨hstarts, hbegun, hnext⟩
    rcases ihc hs (builds_body r hstarts) (tells_body s.stream ht.1) with ⟨new, hlog, hnew⟩
    rcases ih (hs.of_parses called) (hnext s₁.stream ⟨inner, s.log, s₁.log, called⟩)
      (ht.2 inner s₁.stream (hs.made hstarts hbegun called)) with ⟨more, hlog', hmore⟩
    refine ⟨new ++ more, ?_, ?_⟩
    · rw [hlog', hlog, List.reverse_append, List.append_assoc]
    · rw [← hmore, ← hnew, List.nil_append, List.append_assoc]
  | @goto r nodes s s' node rest ih =>
    intro rule p told hs hb ht
    rw [← ht.2]
    exact ih hs (builds_body r hb.1) (tells_body s.stream ht.1)
  | gather rest ih =>
    intro rule p told hs hb ht
    exact ih hs hb.2 ht
  | @note event next nodes s s' node rest ih =>
    intro rule p told hs hb ht
    rcases ih hs hb ht with ⟨new, hlog, hnew⟩
    refine ⟨event nodes.length :: new, ?_, ?_⟩
    · rw [hlog, List.reverse_cons, List.append_assoc]
      rfl
    · rw [← hnew, List.append_assoc]
      rfl
  | close =>
    intro rule p told hs hb ht
    exact ⟨[], rfl, (List.append_nil told).trans ht⟩
  | join =>
    intro rule p told hs hb ht
    exact ⟨[], rfl, (List.append_nil told).trans ht⟩

/-- A rule that begins a parse reports the events of the node that it makes. -/
theorem events_parse {rule : Rule} {entry : rule.needs = 0} {p : Nat} {cs : List Char} {node : Node}
    (hawaits : rule.awaits = []) (hresumes : rule.resumes = false)
    (h : (parse rule entry (Stream.ofLexer (.fresh p cs))).result = .ok node) :
    (parse rule entry (Stream.ofLexer (.fresh p cs))).events = node.events := by
  rcases parse_ok_iff.1 h with ⟨s', hparses⟩
  have hstarts := rule.starts hawaits (Stream.ofLexer (.fresh p cs))
  rcases begun_call hresumes with ⟨hbegun, htells⟩
  rcases hparses.told (membership_coversTexts.covers p cs) (builds_body rule hstarts)
    (tells_body _ hbegun) with ⟨new, hlog, hnew⟩
  rw [parse_of_done (hparses.run_depthFor entry), hlog, ← htells, ← hnew]
  simp

end Grammar

open Grammar

/-- The events of a parse that succeeds are those of the tree that comes out of it. The parse of a
declaration begins by reporting its offset. -/
theorem events_eq_of_parse (text : String) :
    (∀ tree, parseUnit text = .ok tree → (reportUnit text).events = tree.events) ∧
      ∀ offset tree, parseDeclarationAt text offset = .ok tree →
        (reportDeclarationAt text offset).events = .declaration offset :: tree.events := by
  constructor
  · intro tree h
    rw [parseUnit, reportUnit, Lexer.new_eq_fresh] at h
    rw [reportUnit, Lexer.new_eq_fresh]
    exact events_parse rfl rfl h
  · intro offset tree h
    unfold parseDeclarationAt at h
    unfold reportDeclarationAt at h ⊢
    -- The offset is reported first, and then the class is parsed as a unit is.
    cases hl : Lexer.at? text.toList offset with
    | none =>
      rw [hl] at h
      cases h
    | some l =>
      rw [hl] at h
      rcases Option.map_eq_some_iff.1 hl with ⟨cs, -, rfl⟩
      have hevents := events_parse (p := offset) rfl rfl h
      exact congrArg (Event.declaration offset :: ·) hevents

/-- Namespaces and classes in each other, with statements between them that are passed over. The
braces of such a statement are reported, those of the namespaces are not. -/
def nestedScopes : String :=
  "namespace A \x7b enum \x7b x \x7d\nnamespace B.C \x7b class D<T> //c\n" ++
    "\x7b sealed class F \x7b int x; \x7d /**/ \x7d \x7d struct \x7d"

/-- The events of the text, and those of its class when it is parsed at its offset. -/
theorem nestedScopes_events :
    (∃ tree, parseUnit nestedScopes = .ok tree ∧ (reportUnit nestedScopes).events = tree.events ∧
        tree.events = [.passedThrough .ident "enum", .passedThrough .leftBrace "\x7b",
          .passedThrough .ident "x", .passedThrough .rightBrace "\x7d", .parsedClass "F" 3,
          .parsedClass "D" 4, .passedThrough .ident "struct"]) ∧
      ∃ offset tree, declarationOffset? nestedScopes "class" = some offset ∧
        parseDeclarationAt nestedScopes offset = .ok tree ∧
        (reportDeclarationAt nestedScopes offset).events = .declaration offset :: tree.events ∧
        tree.events = [.parsedClass "F" 3, .parsedClass "D" 4] := by
  -- The events of the trees are evaluated; that the runs report them is the theorem.
  constructor
  · have hparsed : ∃ tree ∈ (parseUnit nestedScopes).toOption,
        tree.events = [.passedThrough .ident "enum", .passedThrough .leftBrace "\x7b",
          .passedThrough .ident "x", .passedThrough .rightBrace "\x7d", .parsedClass "F" 3,
          .parsedClass "D" 4, .passedThrough .ident "struct"] := by
      decide +kernel
    rcases hparsed with ⟨tree, htree, hevents⟩
    have hok := eq_ok_of_mem_toOption htree
    exact ⟨tree, hok, (events_eq_of_parse nestedScopes).1 tree hok, hevents⟩
  · have hparsed : ∃ offset ∈ declarationOffset? nestedScopes "class",
        ∃ tree ∈ (parseDeclarationAt nestedScopes offset).toOption,
          tree.events = [.parsedClass "F" 3, .parsedClass "D" 4] := by
      decide +kernel
    rcases hparsed with ⟨offset, hoffset, tree, htree, hevents⟩
    have hok := eq_ok_of_mem_toOption htree
    exact ⟨offset, tree, hoffset, hok, (events_eq_of_parse nestedScopes).2 offset tree hok, hevents⟩

end Lossless
