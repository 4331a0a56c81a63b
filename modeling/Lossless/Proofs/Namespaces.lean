import Lossless.Proofs.Contracts
import Lossless.Proofs.Shapes

/-!
# Braces in a namespace

What has no meaning in a namespace is kept terminal by terminal between the items that have one. The
braces among those terminals are counted, and the count decides where a statement that is passed
over ends, where the next item may begin, and which brace closes the namespace. The invariant is
`Braced`: no brace is closed that was not opened, and items stand outside all braces, at the
beginning of a statement. It holds of the nodes that a namespace has collected whenever one of its
rules is entered, together with the fact that the depth which the rule is told is the number of open
braces.
-/

namespace Lossless

namespace Node

/-- What a node adds to the number of open braces. -/
def brace : Node → Int
  | .token t => if t.kind = .leftBrace then 1 else if t.kind = .rightBrace then -1 else 0
  | .tree _ _ => 0

/-- The number of braces that are left open by some nodes in a row. Braces further down in the nodes
do not count. -/
def openBraces : List Node → Int
  | [] => 0
  | n :: ns => n.brace + openBraces ns

/-- A node at the end adds its brace to those that are open. -/
theorem openBraces_concat (ns : List Node) (n : Node) :
    openBraces (ns ++ [n]) = openBraces ns + n.brace := by
  induction ns with
  | nil => simp only [List.nil_append, openBraces, Int.add_zero, Int.zero_add]
  | cons m ns ih => rw [List.cons_append, openBraces, openBraces, ih, Int.add_assoc]

theorem brace_token_of_ne {t : Token} (hl : t.kind ≠ .leftBrace) (hr : t.kind ≠ .rightBrace) :
    (Node.token t).brace = 0 := by
  rw [brace, if_neg hl, if_neg hr]

theorem brace_leftBrace {t : Token} (h : t.kind = .leftBrace) : (Node.token t).brace = 1 :=
  if_pos h

theorem brace_rightBrace {t : Token} (h : t.kind = .rightBrace) : (Node.token t).brace = -1 := by
  rw [brace, h]
  rfl

end Node

open Node (openBraces)

/-! ## Braces and items in a row -/

/-- The kinds of the items of a namespace. -/
def itemKinds : List Kind :=
  [.usingDirective, .namespaceDecl, .classDecl, .attributeSection, .comment, .blockComment]

/-- Behind these nodes a statement begins: there are none, or the last one is an item, a semicolon
or a closing brace. -/
def AtStatement (front : List Node) : Prop :=
  ∀ n ∈ front.getLast?, n.kind ∈ .semicolon :: .rightBrace :: itemKinds

theorem atStatement_nil : AtStatement [] := by
  simp [AtStatement]

/-- Behind an item, a semicolon or a closing brace a statement begins. -/
theorem atStatement_concat {front : List Node} {n : Node}
    (h : n.kind ∈ .semicolon :: .rightBrace :: itemKinds) : AtStatement (front ++ [n]) := by
  simpa [AtStatement] using h

/-- From the left, no brace is closed that was not opened, and items stand outside all braces, at
the beginning of a statement. -/
structure Braced (body : List Node) : Prop where
  nonneg : ∀ front, front <+: body → 0 ≤ openBraces front
  items : ∀ front n, front ++ [n] <+: body → n.kind ∈ itemKinds →
    openBraces front = 0 ∧ AtStatement front

namespace Braced

variable {body : List Node} {n : Node}

theorem nil : Braced [] where
  nonneg front h := by
    rw [List.prefix_nil.1 h]
    rfl
  items front n h := by
    simp at h

/-- One more node. -/
theorem concat (h : Braced body) (hopen : 0 ≤ openBraces (body ++ [n]))
    (hitem : n.kind ∈ itemKinds → openBraces body = 0 ∧ AtStatement body) :
    Braced (body ++ [n]) where
  nonneg front hfront := by
    rcases List.prefix_concat_iff.1 hfront with rfl | hfront
    · exact hopen
    · exact h.nonneg front hfront
  items front m hfront hm := by
    rcases List.prefix_concat_iff.1 hfront with heq | hfront
    · obtain ⟨rfl, hmn⟩ := List.append_inj' heq rfl
      cases hmn
      exact hitem hm
    · exact h.items front m hfront hm

/-- The brace behind nodes that leave none open is the first one that closes none of theirs. -/
theorem first_unmatched {closing : Token} (h : Braced body) (hopen : openBraces body = 0)
    (hclosing : closing.kind = .rightBrace) {front : List Node}
    (hfront : front <+: body ++ [.token closing]) :
    openBraces front < 0 ↔ front = body ++ [.token closing] := by
  constructor
  · intro hneg
    rcases List.prefix_concat_iff.1 hfront with heq | hfront
    · exact heq
    · have hnonneg := h.nonneg front hfront
      omega
  · rintro rfl
    rw [Node.openBraces_concat, hopen, Node.brace_rightBrace hclosing]
    decide

end Braced

namespace Grammar

open Pattern

/-! ## What a namespace has collected -/

/-- The nodes of a namespace behind its opening brace, of all that it has collected, the newest
first. -/
def insideBraces (nodes : List Node) : List Node := nodes.reverse.drop 2

/-- A namespace has collected its statement, its opening brace, and behind them nodes that leave
this many braces open. -/
structure Inside (nodes : List Node) (depth : Nat) : Prop where
  opened : ∃ statement opening body,
    nodes.reverse = .tree .namespaceStatement statement :: .token opening :: body ∧
      opening.kind = .leftBrace
  braced : Braced (insideBraces nodes)
  count : openBraces (insideBraces nodes) = depth

namespace Inside

variable {nodes : List Node} {depth depth' : Nat} {n : Node}

/-- Behind the opening brace nothing has been collected yet. -/
theorem opening {statement : List Node} {t : Token} (h : t.kind = .leftBrace) :
    Inside [.token t, .tree .namespaceStatement statement] 0 :=
  ⟨⟨statement, t, [], rfl, h⟩, .nil, rfl⟩

/-- A new node stands behind the opening brace. -/
theorem insideBraces_cons (h : Inside nodes depth) :
    insideBraces (n :: nodes) = insideBraces nodes ++ [n] := by
  obtain ⟨statement, opening, body, hnodes, -⟩ := h.opened
  simp [insideBraces, hnodes]

/-- One more node, which moves the depth. -/
theorem cons (h : Inside nodes depth) (hdepth : (depth' : Int) = depth + n.brace)
    (hitem : n.kind ∈ itemKinds →
      openBraces (insideBraces nodes) = 0 ∧ AtStatement (insideBraces nodes)) :
    Inside (n :: nodes) depth' := by
  have hopen : openBraces (insideBraces nodes ++ [n]) = depth' := by
    rw [Node.openBraces_concat, h.count, hdepth]
  refine ⟨?_, ?_, ?_⟩
  · obtain ⟨statement, opening, body, hnodes, hopening⟩ := h.opened
    exact ⟨statement, opening, body ++ [n], by simp [hnodes], hopening⟩
  · rw [h.insideBraces_cons]
    refine h.braced.concat ?_ hitem
    rw [hopen]
    exact Int.natCast_nonneg depth'
  · rw [h.insideBraces_cons, hopen]

/-- One more terminal, which moves the depth. -/
theorem cons_terminal (h : Inside nodes depth) {t : Token} (hlexical : t.kind.isLexical = true)
    (hdepth : (depth' : Int) = depth + (Node.token t).brace) :
    Inside (.token t :: nodes) depth' := by
  refine h.cons hdepth ?_
  intro hkind
  have hkind : t.kind ∈ itemKinds := hkind
  simp only [itemKinds, List.mem_cons, List.not_mem_nil, or_false] at hkind
  rcases hkind with hk | hk | hk | hk | hk | hk <;> rw [hk] at hlexical <;> cases hlexical

theorem atStatement_cons (h : Inside nodes depth)
    (hn : n.kind ∈ .semicolon :: .rightBrace :: itemKinds) :
    AtStatement (insideBraces (n :: nodes)) := by
  rw [h.insideBraces_cons]
  exact atStatement_concat hn

end Inside

/-! ## The contract -/

/-- What a closed namespace looks like. -/
def NamespaceForm (cs : List Node) : Prop :=
  ∃ statement opening body closing,
    cs = .tree .namespaceStatement statement :: .token opening :: (body ++ [.token closing]) ∧
      opening.kind = .leftBrace ∧ closing.kind = .rightBrace ∧ Braced body ∧ openBraces body = 0

/-- In a namespace the braces that are open are known, and items are only looked for at the
beginning of a statement. -/
@[simp] def bracing : Contract where
  sees t := t.token.kind.isLexical = true
  enter
    | .namespaceItems, nodes, s => Inside nodes 0 ∧
      ∀ t r, s.ahead 0 = .ok t → item? (.ofTerminal t) = some r → AtStatement (insideBraces nodes)
    | .passing depth, nodes, _ => Inside nodes depth
    | _, _, _ => True
  make _ _ _ _ _ := True
  node kind cs := kind = .namespaceDecl → NamespaceForm cs

/-- Items are nodes of their own, so their braces do not count. -/
theorem kind_of_makes_item {g : Glimpse} {r : Rule} {n : Node} (hr : item? g = some r)
    (hn : [n.symbol] ∈ r.makes.matches') : n.brace = 0 ∧ n.kind ∈ itemKinds := by
  have hmem := item?_mem hr
  simp only [List.mem_cons, List.not_mem_nil, or_false] at hmem
  rcases hmem with rfl | rfl | rfl | rfl | rfl | rfl <;>
    · obtain ⟨cs, rfl⟩ := Node.eq_tree_of_symbol (List.singleton_inj.1 hn)
      exact ⟨rfl, by simp [Node.kind, itemKinds]⟩

theorem bracing_enter_item (s : Stream) (g : Glimpse) (r : Rule) (hr : item? g = some r) :
    bracing.enter r [] s := by
  have hmem := item?_mem hr
  simp only [List.mem_cons, List.not_mem_nil, or_false] at hmem
  rcases hmem with rfl | rfl | rfl | rfl | rfl | rfl <;> trivial

/-- A terminal is passed over with the right count, unless it is a brace that closes none. -/
theorem holds_passOver {nodes : List Node} {s : Stream} {depth : Nat} {t : Terminal}
    (h : Inside nodes depth) (ht : s.ahead 0 = .ok t) (hlexical : t.token.kind.isLexical = true)
    (hclosing : t.token.kind = .rightBrace → 0 < depth) :
    bracing.Holds (fun _ _ => True) (passOver depth (.ofTerminal t)) nodes s := by
  rw [passOver_eq]
  refine Contract.Holds.bump ht ?_
  -- The next rule is entered with one more node and with the depth that follows from its kind.
  refine Contract.holds_ite.2 ⟨fun hl => ?_, fun hl => Contract.holds_ite.2 ⟨fun hr => ?_,
    fun hr => Contract.holds_ite.2 ⟨fun hs => ?_, fun hs => ?_⟩⟩⟩
  · have hbrace := Node.brace_leftBrace hl
    exact ⟨h.cons_terminal hlexical (by omega), fun _ _ _ => trivial⟩
  · have hbrace := Node.brace_rightBrace hr
    have hpos := hclosing hr
    refine Contract.holds_ite.2 ⟨fun hlast => ?_, fun hmore => ?_⟩
    · refine ⟨⟨h.cons_terminal hlexical (by omega), fun _ _ _ _ => h.atStatement_cons ?_⟩,
        fun _ _ _ => trivial⟩
      exact List.mem_cons_of_mem _ (List.mem_cons.2 (.inl hr))
    · exact ⟨h.cons_terminal hlexical (by omega), fun _ _ _ => trivial⟩
  · have hbrace := Node.brace_token_of_ne hl hr
    refine Contract.holds_ite.2 ⟨fun hzero => ?_, fun _ => ?_⟩
    · refine ⟨⟨h.cons_terminal hlexical (by omega), fun _ _ _ _ => h.atStatement_cons ?_⟩,
        fun _ _ _ => trivial⟩
      exact List.mem_cons.2 (.inl hs)
    · exact ⟨h.cons_terminal hlexical (by omega), fun _ _ _ => trivial⟩
  · have hbrace := Node.brace_token_of_ne hl hr
    exact ⟨h.cons_terminal hlexical (by omega), fun _ _ _ => trivial⟩

/-- An item is added outside all braces at the beginning of a statement; what is passed over begins
one. -/
theorem holds_namespaceItems {nodes : List Node} {s : Stream} (h : Inside nodes 0)
    (hstart : ∀ t r, s.ahead 0 = .ok t → item? (.ofTerminal t) = some r →
      AtStatement (insideBraces nodes)) :
    bracing.Holds (fun _ _ => True) namespaceItems nodes s := by
  rw [namespaceItems_eq]
  refine Contract.Holds.items (bracing_enter_item s) (fun t ht hlexical => ?_) ?_
  · refine Contract.holds_ite.2 ⟨fun hclosing => ?_, fun hclosing => Contract.holds_ite.2
      ⟨fun _ => trivial, fun _ => holds_passOver h ht hlexical fun hk => absurd hk hclosing⟩⟩
    refine Contract.Holds.bump ht ⟨fun _ => ?_, trivial⟩
    obtain ⟨statement, opening, body, hnodes, hopening⟩ := h.opened
    have hbody : insideBraces nodes = body := by simp [insideBraces, hnodes]
    refine ⟨statement, opening, body, t.token, by simp [hnodes], hopening, hclosing, ?_⟩
    rw [← hbody]
    exact ⟨h.braced, h.count⟩
  · intro t r inner s' ht hr hinner
    obtain ⟨hbrace, hkind⟩ := kind_of_makes_item hr hinner
    refine ⟨⟨h.cons (by omega) fun _ => ⟨h.count, hstart t r ht hr⟩,
      fun _ _ _ _ => h.atStatement_cons ?_⟩, fun _ _ _ => trivial⟩
    exact List.mem_cons_of_mem _ (List.mem_cons_of_mem _ hkind)

/-- What is passed over either ends the statement or changes the depth by its brace. -/
theorem holds_passing {nodes : List Node} {s : Stream} {depth : Nat} (h : Inside nodes depth) :
    bracing.Holds (fun _ _ => True) (passing depth) nodes s := by
  -- In front of the end and of the brace that closes the namespace, no item begins.
  have hstops : ∀ {t : Terminal}, s.ahead 0 = .ok t →
      t.token.kind = .endOfInput ∨ t.token.kind = .rightBrace → depth = 0 →
      bracing.Holds (fun _ _ => True) (.goto .namespaceItems) nodes s := by
    rintro t ht hk rfl
    refine ⟨⟨h, fun u r hu hr => ?_⟩, fun _ _ _ => trivial⟩
    rw [ht] at hu
    cases hu
    rcases hk with hk | hk <;> simp [item?, Glimpse.ofTerminal, hk] at hr
  intro t ht hlexical
  refine Contract.holds_ite.2 ⟨fun hk => Contract.holds_ite.2 ⟨fun hd => ?_, fun _ => trivial⟩,
    fun _ => Contract.holds_ite.2 ⟨fun hk => ?_, fun hk => ?_⟩⟩
  · exact hstops ht (.inl hk) hd
  · exact hstops ht (.inr hk.1) hk.2
  · refine holds_passOver h ht hlexical fun hr => ?_
    exact Nat.pos_of_ne_zero fun hd => hk ⟨hr, hd⟩

/-- Every rule keeps the contract; only the rules of namespaces have something to show. -/
theorem bracing_kept : bracing.Kept := by
  intro rule nodes s h
  -- The loop of a namespace and the passing of statements have lemmas of their own.
  cases rule with
  | namespaceItems => exact holds_namespaceItems h.1 h.2
  | passing depth => exact holds_passing h
  | namespaceDecl =>
    intro t ht _
    refine ⟨trivial, fun inner s' _ _ => ⟨nofun, fun u hu _ => ?_⟩⟩
    refine Contract.holds_ite.2 ⟨fun hk => ?_, fun _ => trivial⟩
    refine Contract.Holds.bump hu ⟨⟨.opening hk, fun _ _ _ _ => ?_⟩, fun _ _ _ => trivial⟩
    exact atStatement_nil
  | unitItems =>
    simp only [Rule.body, unitItems_eq]
    refine Contract.Holds.items (bracing_enter_item s) (fun t _ _ => ?_) fun _ _ _ _ _ _ _ => ?_
    · simp [Contract.holds_ite]
    · exact ⟨trivial, fun _ _ _ => trivial⟩
  | upToClose what => cases what <;> simp [Contract.holds_ite, Verbatim.kind]
  | typeItems list => cases list <;> simp [Contract.holds_ite, TypeList.kind]
  | memberTail isCtor => cases isCtor <;> simp [Contract.holds_ite]
  | _ => simp [Contract.holds_ite, Contract.holds_elim]

theorem bracing_coversTexts : bracing.CoversTexts :=
  fun _ _ _ _ => Stream.isLexical_of_ahead

/-! ## Whole texts -/

/-- The depth that a rule of a namespace is told is the number of braces that are open. As a depth
is never less than zero, it would no longer be that number if a brace had been closed that was not
opened. -/
def countsBraces : Rule → List Node → Bool
  | .namespaceItems, nodes => openBraces (insideBraces nodes) = 0
  | .passing depth, nodes => openBraces (insideBraces nodes) = depth
  | _, _ => true

/-- Where a rule of a namespace is entered, its depth is the number of open braces. -/
theorem countsBraces_of_enter {rule : Rule} {nodes : List Node} {s : Stream}
    (h : bracing.enter rule nodes s) : countsBraces rule nodes = true := by
  cases rule with
  | namespaceItems => exact decide_eq_true h.1.count
  | passing depth => exact decide_eq_true h.count
  | _ => rfl

end Grammar

open Grammar

/-- Between the braces of a namespace, every closing brace closes one that was opened there, so that
the first one that does not is the last child; items stand outside all other braces and only where a
statement begins. While any text is parsed, with or without success, a run that would stop as soon
as the depth of a statement differs from the number of open braces does not stop. -/
theorem braces_of_namespace (text : String) :
    (∀ tree, parseUnit text = .ok tree → ∀ cs, .tree .namespaceDecl cs ∈ tree.descendants →
      ∃ statement opening body closing,
        cs = .tree .namespaceStatement statement :: .token opening :: (body ++ [.token closing]) ∧
        opening.kind = .leftBrace ∧ closing.kind = .rightBrace ∧
        Braced body ∧ openBraces body = 0 ∧
        ∀ front, front <+: body ++ [.token closing] →
          (openBraces front < 0 ↔ front = body ++ [.token closing])) ∧
      let s := Stream.ofLexer (Lexer.new text.toList)
      watch countsBraces (depthFor s) .unitItems [] ⟨s, []⟩ =
          run (depthFor s) .unitItems [] ⟨s, []⟩ ∧
        watch countsBraces (depthFor s) .unitItems [] ⟨s, []⟩ ≠ .exhausted := by
  constructor
  · intro tree h cs hcs
    -- The contract holds at every call of a parse, so it describes every namespace of the tree.
    have hall : bracing.Throughout tree :=
      bracing_kept.throughout bracing_coversTexts (fun _ => trivial) (fun _ => trivial) (.inl h)
    obtain ⟨statement, opening, body, closing, hcs, hopening, hclosing, hbraced, hopen⟩ :=
      hall .namespaceDecl cs hcs rfl
    exact ⟨statement, opening, body, closing, hcs, hopening, hclosing, hbraced, hopen,
      fun _ => hbraced.first_unmatched hopen hclosing⟩
  · intro s
    -- What the watched run checks on entering a rule is granted by the contract.
    have hwatch := bracing_kept.watch_unit bracing_coversTexts (fun _ => trivial)
      (fun _ _ _ => countsBraces_of_enter) (depthFor s) text
    refine ⟨hwatch, ?_⟩
    rw [hwatch]
    exact run_ne_exhausted rfl [] ⟨s, []⟩

/-- A namespace in which items stand between statements that are passed over, with braces inside
of braces. -/
def mixedNamespace : String :=
  "namespace N \x7b enum E \x7b a \x7b b; \x7d \x7d class C \x7b\x7d x; [T] // c\n y z \x7d"

/-- Three opening braces in the namespace, its own among them, and a class behind a statement with
two. -/
theorem mixedNamespace_braces :
    ∃ tree cs, parseUnit mixedNamespace = .ok tree ∧ .tree .namespaceDecl cs ∈ tree.descendants ∧
      (.classDecl ∈ cs.map Node.kind ∧ (cs.map Node.kind).count .leftBrace = 3) ∧
      ∃ statement opening body closing,
        cs = .tree .namespaceStatement statement :: .token opening :: (body ++ [.token closing]) ∧
        opening.kind = .leftBrace ∧ closing.kind = .rightBrace ∧
        Braced body ∧ openBraces body = 0 ∧
        ∀ front, front <+: body ++ [.token closing] →
          (openBraces front < 0 ↔ front = body ++ [.token closing]) := by
  have hparsed : ∃ tree ∈ (parseUnit mixedNamespace).toOption, ∃ n ∈ tree.descendants,
      n = .tree .namespaceDecl n.children ∧ .classDecl ∈ n.children.map Node.kind ∧
        (n.children.map Node.kind).count .leftBrace = 3 := by
    decide +kernel
  obtain ⟨tree, htree, n, hn, heq, hkinds⟩ := hparsed
  have hok := eq_ok_of_mem_toOption htree
  rw [heq] at hn
  exact ⟨tree, n.children, hok, hn, hkinds,
    (braces_of_namespace mixedNamespace).1 tree hok n.children hn⟩

end Lossless
