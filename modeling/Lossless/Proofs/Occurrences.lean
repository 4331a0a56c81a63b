import Lossless.Node.Outline
import Lossless.Proofs.RoundTrip

/-!
# Every class of a unit can be parsed on its own

A class in the tree of a unit was made by the rule for classes, at the place where its tokens begin.
The tokens in front of it give the offset of that place, and the stream of a lexer at this offset is
the stream of the unit from there on. So the parse at the offset makes the same class:

* `Parses.placed`: all classes in a node were made where their tokens begin;
* `parseDeclarationAt_of_parseUnit`: each class of a unit is what is parsed at its offset.
-/

namespace Lossless

/-! ## Occurrences -/

namespace Node

/-- The tree `c` occurs among some trees, behind the tokens `before`. -/
inductive Occurs (c : Node) : List Token → List Node → Prop where
  | here {ns : List Node} : Occurs c [] (c :: ns)
  | within {before : List Token} {k : Kind} {cs ns : List Node} (inside : Occurs c before cs) :
      Occurs c before (.tree k cs :: ns)
  | behind {before : List Token} {n : Node} {ns : List Node} (later : Occurs c before ns) :
      Occurs c (n.tokens ++ before) (n :: ns)

namespace Occurs

variable {c : Node} {before : List Token}

/-- What occurs in the first of two lists occurs in both together, at the same place. -/
theorem append_left {as : List Node} (bs : List Node) (h : Occurs c before as) :
    Occurs c before (as ++ bs) := by
  induction h with
  | here => exact .here
  | within inside _ => exact .within inside
  | behind _ ih => exact .behind ih

/-- What occurs in two lists occurs in one of them. -/
theorem of_append {as bs : List Node} (h : Occurs c before (as ++ bs)) :
    Occurs c before as ∨ ∃ after, before = tokensIn as ++ after ∧ Occurs c after bs := by
  induction as generalizing before with
  | nil => exact Or.inr ⟨before, rfl, h⟩
  | cons a as ih =>
    cases h with
    | here => exact Or.inl .here
    | within inside => exact Or.inl (.within inside)
    | behind later =>
      rcases ih later with h | ⟨after, rfl, h⟩
      · exact Or.inl (.behind h)
      · refine Or.inr ⟨after, ?_, h⟩
        rw [tokensIn, List.append_assoc]

/-- What occurs in one tree is the tree itself or occurs among its children. -/
theorem of_singleton {n : Node} (h : Occurs c before [n]) :
    (c = n ∧ before = []) ∨ Occurs c before n.children := by
  cases h with
  | here => exact Or.inl ⟨rfl, rfl⟩
  | within inside => exact Or.inr inside
  | behind later => cases later

end Occurs

/-! ### Pre-order -/

mutual

/-- The terminals in the pre-order of a tree are its tokens. -/
theorem tokens_outlineAt : (n : Node) → (depth : Nat) →
    ((n.outlineAt depth).map Prod.snd).filterMap token? = n.tokens
  | .token t, depth => by simp [outlineAt, token?, tokens]
  | .tree k cs, depth => by
    rw [outlineAt, List.map_cons, List.filterMap_cons_none rfl, tokens_outlineIn cs (depth + 1),
      tokens]

theorem tokens_outlineIn : (ns : List Node) → (depth : Nat) →
    ((outlineIn depth ns).map Prod.snd).filterMap token? = tokensIn ns
  | [], depth => by simp [outlineIn, tokensIn]
  | n :: ns, depth => by
    simp [outlineIn, tokensIn, tokens_outlineAt n depth, tokens_outlineIn ns depth]

end

mutual

/-- What stands in the pre-order of a tree occurs in it, behind the terminals that come before. -/
theorem occurs_outlineAt {c : Node} : (n : Node) → (depth : Nat) → {front back : List Node} →
    (n.outlineAt depth).map Prod.snd = front ++ c :: back →
      Occurs c (front.filterMap token?) [n]
  | .token t, depth, [], back, h => by
    simp only [outlineAt, List.map_cons, List.map_nil, List.nil_append, List.cons.injEq] at h
    rw [h.1]
    exact .here
  | .token t, depth, a :: front, back, h => by
    simp [outlineAt] at h
  | .tree k cs, depth, [], back, h => by
    simp only [outlineAt, List.map_cons, List.nil_append, List.cons.injEq] at h
    rw [h.1]
    exact .here
  | .tree k cs, depth, a :: front, back, h => by
    simp only [outlineAt, List.map_cons, List.cons_append, List.cons.injEq] at h
    rcases h with ⟨rfl, h⟩
    rw [List.filterMap_cons_none rfl]
    exact .within (occurs_outlineIn cs (depth + 1) h)

/-- In a list the tokens of the trees in front come first. -/
theorem occurs_outlineIn {c : Node} : (ns : List Node) → (depth : Nat) → {front back : List Node} →
    (outlineIn depth ns).map Prod.snd = front ++ c :: back →
      Occurs c (front.filterMap token?) ns
  | [], depth, front, back, h => by
    simp [outlineIn] at h
  | n :: ns, depth, front, back, h => by
    rw [outlineIn, List.map_append, List.append_eq_append_iff] at h
    rcases h with ⟨later, rfl, h⟩ | ⟨rest, hn, h⟩
    · -- The tree comes after the whole pre-order of `n`.
      rw [List.filterMap_append, tokens_outlineAt]
      exact .behind (occurs_outlineIn ns depth h)
    · -- The tree comes at the very end of the pre-order of `n` or inside it.
      cases rest with
      | nil =>
        have hns : (outlineIn depth ns).map Prod.snd = [] ++ c :: back := h.symm
        rw [List.append_nil] at hn
        rw [← hn, tokens_outlineAt, ← List.append_nil n.tokens]
        exact .behind (occurs_outlineIn ns depth hns)
      | cons d rest =>
        simp only [List.cons_append, List.cons.injEq] at h
        rcases h with ⟨rfl, h⟩
        exact (occurs_outlineAt n depth hn).append_left ns

end

end Node

namespace Grammar

open Node

/-! ## Where classes come from -/

/-- The rules that make a class: the one for classes and the one that it continues with. -/
@[simp] def Rule.makesClass : Rule → Bool
  | .classDecl | .classTail _ => true
  | _ => false

/-- The steps of `rule` make a class only by calling the rule for classes or, if `rule` is to make
one, as their last step. -/
@[simp] def ClassOnly (rule : Rule) : Step → Prop
  | .look _ next => ∀ g, ClassOnly rule (next g)
  | .take tag next => tag ≠ some .classDecl ∧ ClassOnly rule next
  | .call r next => (r.makesClass = true → r = .classDecl) ∧ ClassOnly rule next
  | .goto r => r.makesClass = true → rule.makesClass = true
  | .gather kind next => kind ≠ .classDecl ∧ ClassOnly rule next
  | .note _ next => ClassOnly rule next
  | .close kind => kind = .classDecl → rule.makesClass = true
  | .join kind => kind ≠ .classDecl
  | .fail _ => True

theorem classOnly_ite {rule : Rule} {c : Prop} [Decidable c] {a b : Step} :
    ClassOnly rule (if c then a else b) ↔
      (c → ClassOnly rule a) ∧ (¬c → ClassOnly rule b) := by
  split <;> simp_all

theorem classOnly_elim {rule : Rule} {α : Type} {o : Option α} {a : Step} {f : α → Step} :
    ClassOnly rule (o.elim a f) ↔
      (o = none → ClassOnly rule a) ∧ ∀ x, o = some x → ClassOnly rule (f x) := by
  cases o <;> simp

/-- Among the items only a class makes one. -/
theorem item?_classDecl {g : Glimpse} {r : Rule} (h : item? g = some r)
    (hr : r.makesClass = true) : r = .classDecl := by
  have hmem := item?_mem h
  simp only [List.mem_cons, List.not_mem_nil, or_false] at hmem
  rcases hmem with rfl | rfl | rfl | rfl | rfl | rfl
  case inr.inr.inr.inr.inr => rfl
  all_goals cases hr

/-- Items make classes by calling the rule for classes. -/
theorem classOnly_items {rule : Rule} {other : Glimpse → Step}
    (hother : ∀ g, ClassOnly rule (other g)) :
    ClassOnly rule (.look 0 fun g => (item? g).elim (other g) fun r => .call r (.goto rule)) := by
  intro g
  refine classOnly_elim.2 ⟨fun _ => hother g, ?_⟩
  intro r hr
  exact ⟨item?_classDecl hr, id⟩

/-- Words that are modifiers do not become classes. -/
theorem classOnly_tagged {rule : Rule} {g : Glimpse} {tag? : String → Option Kind}
    {other next : Step} (htag : ∀ word, tag? word ≠ some .classDecl) (hother : ClassOnly rule other)
    (hnext : ClassOnly rule next) :
    ClassOnly rule ((g.word?.bind tag?).elim other fun tag => .take (some tag) next) := by
  refine classOnly_elim.2 ⟨fun _ => hother, ?_⟩
  intro k hk
  refine ⟨?_, hnext⟩
  intro hk'
  have hword := (word?_bind hk).2
  rw [hk'] at hword
  exact htag _ hword

/-- Classes are made by the rule for classes only. -/
theorem classOnly_body (rule : Rule) : ClassOnly rule rule.body := by
  -- The kinds that come from tables are looked up there, and all others are seen in the rule.
  cases rule with
  | unitItems =>
    rw [Rule.body, unitItems_eq]
    exact classOnly_items fun g => by simp [classOnly_ite]
  | namespaceItems =>
    rw [Rule.body, namespaceItems_eq]
    exact classOnly_items fun g => by simp [classOnly_ite]
  | classDecl =>
    simp only [Rule.body, classDecl_eq, ClassOnly]
    intro g
    exact classOnly_tagged (fun _ h => absurd (classModifier?_mem h) (by decide))
      (by simp [classOnly_ite]) id
  | memberModifiers name =>
    simp only [Rule.body, memberModifiers_eq, ClassOnly]
    intro g
    exact classOnly_tagged (fun _ h => absurd (memberModifier?_mem h) (by decide))
      (by simp [classOnly_ite]) id
  | upToClose what => cases what <;> simp [classOnly_ite, Verbatim.kind]
  | typeItems list => cases list <;> simp [classOnly_ite, TypeList.kind]
  | memberTail isCtor => cases isCtor <;> simp [classOnly_ite]
  | _ => simp [classOnly_ite]

/-! ## Where classes stand -/

/-- Every class that occurs among some nodes was made at the place of the stream `all` at which its
tokens begin, counted from the beginning of `text`. -/
def Placed (all : Stream) (text : List Char) (ns : List Node) : Prop :=
  ∀ (c : Node) (before : List Token), c.kind = .classDecl → Occurs c before ns →
    ∃ n log s', Parses Rule.classDecl.body [] ⟨all.drop n, log⟩ c s' ∧
      before.flatMap Token.chars ++ (all.drop n).chars = text

namespace Placed

variable {all : Stream} {text : List Char}

theorem nil : Placed all text [] := by
  intro c before hc h
  cases h

/-- Further nodes are placed behind the text of those that are there. -/
theorem append {rest : List Char} {as bs : List Node} (ha : Placed all text as)
    (hb : Placed all rest bs) (htext : charsIn as ++ rest = text) : Placed all text (as ++ bs) := by
  intro c before hc h
  rcases h.of_append with hin | ⟨after, rfl, hin⟩
  · exact ha c before hc hin
  · rcases hb c after hc hin with ⟨n, log, s', hp, hrest⟩
    refine ⟨n, log, s', hp, ?_⟩
    rw [List.flatMap_append, List.append_assoc, hrest]
    exact htext

/-- A node that is no class is placed with its children. -/
theorem of_children {node : Node} (hk : node.kind ≠ .classDecl)
    (h : Placed all text node.children) : Placed all text [node] := by
  intro c before hc hocc
  rcases hocc.of_singleton with ⟨rfl, -⟩ | hocc
  · exact absurd hc hk
  · exact h c before hc hocc

end Placed

theorem children_joined (kind : Kind) (ns : List Node) : (joined kind ns).children = [] := by
  unfold joined merge?
  split
  · rfl
  · cases ns.mapM token? <;> rfl

theorem kind_joined (kind : Kind) (ns : List Node) : (joined kind ns).kind = kind := by
  unfold joined merge?
  split
  · rfl
  · cases ns.mapM token? <;> rfl

/-- All classes below a node were made where their tokens begin, and the node itself is a class only
if its rule makes one. -/
theorem Parses.placed {rule : Rule} {all : Stream}
    (hall : ∀ i t, all.ahead i = .ok t → t.token.kind ≠ .classDecl) {step : Step}
    {nodes : List Node} {s s' : State} {node : Node} (h : Parses step nodes s node s') :
    ∀ {n : Nat} {text : List Char}, ClassOnly rule step → Faithful step nodes s →
      s.stream = all.drop n → charsIn nodes.reverse ++ s.stream.chars = text →
      Placed all text nodes.reverse →
      (node.kind = .classDecl → rule.makesClass = true) ∧ Placed all text node.children := by
  -- The invariant is that the nodes collected so far and the rest of the stream make up `text`, so
  -- that the next node stands where the stream does.
  induction h generalizing rule with
  | @look i next nodes s s' t node seen rest ih =>
    intro n text hc hf hs htext hplaced
    exact ih (hc (.ofTerminal t)) (hf.look seen) hs htext hplaced
  | @take tag next nodes s s' t node seen rest ih =>
    intro n text hc hf hs htext hplaced
    rcases hc with ⟨htag, hc⟩
    rcases hf.take seen with ⟨hchars, hf⟩
    refine ih (n := n + 1) hc hf ?_ (hchars.trans htext) ?_
    · show s.stream.tail = all.drop (n + 1)
      rw [hs, Stream.tail_drop]
    · -- A terminal is no class, under its own kind or another.
      have hleaf : (leaf tag t).kind ≠ .classDecl := by
        cases tag with
        | none =>
          rw [hs, Stream.ahead_drop] at seen
          exact hall _ t seen
        | some k =>
          intro hk
          exact htag (congrArg some hk)
      rw [List.reverse_cons]
      exact hplaced.append (.of_children hleaf .nil) htext
  | @call r next nodes s s₁ s' inner node called rest ihc ih =>
    intro n text hc hf hs htext hplaced
    rcases hc with ⟨hr, hc⟩
    rcases called.exists_passed with ⟨m, hm, -⟩
    rcases ihc (classOnly_body r) (.body r s) hs rfl .nil with ⟨hkind, hbelow⟩
    -- If the node is a class, then this call is the one that made it.
    have hinner : Placed all s.stream.chars [inner] := by
      by_cases hclass : inner.kind = .classDecl
      · intro c before hck hocc
        rcases hocc.of_singleton with ⟨rfl, rfl⟩ | hocc
        · rw [hr (hkind hclass)] at called
          refine ⟨n, s.log, s₁, ?_, ?_⟩
          · rw [← hs]
            exact called
          · rw [← hs]
            rfl
        · exact hbelow c before hck hocc
      · exact .of_children hclass hbelow
    refine ih (n := n + m) hc (hf.call inner s₁) ?_ ?_ ?_
    · rw [hm, hs, Stream.drop_drop]
    · rw [List.reverse_cons, charsIn_append, charsIn_singleton, List.append_assoc,
        called.chars_of_call]
      exact htext
    · rw [List.reverse_cons]
      exact hplaced.append hinner htext
  | @goto r nodes s s' node rest ih =>
    intro n text hc hf hs htext hplaced
    rcases ih (classOnly_body r) hf.goto hs htext hplaced with ⟨hkind, hbelow⟩
    exact ⟨fun hk => hc (hkind hk), hbelow⟩
  | @gather kind next nodes s s' node rest ih =>
    intro n text hc hf hs htext hplaced
    rcases hc with ⟨hkind, hc⟩
    refine ih hc hf.gather hs ?_ (.of_children hkind hplaced)
    rw [List.reverse_singleton, charsIn_singleton, chars_tree]
    exact htext
  | note rest ih =>
    intro n text hc hf hs htext hplaced
    exact ih hc (hf.note _) hs htext hplaced
  | close =>
    intro n text hc hf hs htext hplaced
    exact ⟨hc, hplaced⟩
  | @join kind nodes s =>
    intro n text hc hf hs htext hplaced
    rw [kind_joined, children_joined]
    exact ⟨fun hk => absurd hk hc, .nil⟩

end Grammar

/-! ## Streams from the middle of a text -/

open Lossless.Terminal Lossless.Text Lossless.Lexer

namespace Stream

/-- No terminal of a text is a class. -/
theorem kind_ne_classDecl {p i : Nat} {cs : List Char} {t : Terminal}
    (h : (ofLexer (fresh p cs)).ahead i = .ok t) : t.token.kind ≠ .classDecl := by
  intro hk
  have hle := kind_le_of_ahead h
  rw [hk] at hle
  exact absurd hle (by decide)

/-- What is left of a stream behind some terminals is the stream of a lexer behind their text, if
another terminal comes before the end. -/
theorem drop_ofLexer {p n i : Nat} {cs : List Char} {t : Terminal}
    (h : (ofLexer (fresh p cs)).ahead (n + i) = .ok t) (hk : t.token.kind ≠ .endOfInput) :
    ∃ front rest, cs = front ++ rest ∧
      (ofLexer (fresh p cs)).drop n = ofLexer (fresh (p + width front) rest) ∧
      (ofLexer (fresh p cs)).chars = front ++ ((ofLexer (fresh p cs)).drop n).chars := by
  rcases yields_of_ahead h hk with ⟨us, m, r, hlen, hus, -⟩
  rw [← List.take_append_drop n us] at hus
  rcases hus.split with ⟨rest, hfront, -⟩
  have htake : (us.take n).length = n := by
    rw [List.length_take]
    omega
  -- The lexer goes on behind the text of the first `n` terminals.
  have hstream := hfront.stream_eq
  have hdrop : (ofLexer (fresh p cs)).drop n =
      ofLexer (fresh (p + width (charsOf (us.take n))) rest) := by
    rw [hstream]
    simp only [drop, List.drop_left' htake]
  refine ⟨charsOf (us.take n), rest, hfront.text_eq, hdrop, ?_⟩
  rw [hdrop]
  simp only [chars]
  rw [hstream, charsOf_append]

end Stream

/-! ## Classes of a unit -/

/-- Every class of a unit is what is parsed at its offset, which is the width of the terminals in
front of it. -/
theorem parseDeclarationAt_of_parseUnit {text : String} {tree c : Node} {front back : List Node}
    (h : parseUnit text = .ok tree) (hc : c.kind = .classDecl)
    (hocc : tree.descendants = front ++ c :: back) :
    parseDeclarationAt text (width ((front.filterMap Node.token?).flatMap Token.chars)) =
      .ok c := by
  rcases Grammar.parse_ok_iff.1 h with ⟨s', hparses⟩
  rw [new_eq_fresh] at hparses
  have hplaced := hparses.placed (fun i t => Stream.kind_ne_classDecl)
    (Grammar.classOnly_body .unitItems) (.body .unitItems _) (n := 0) rfl rfl .nil
  -- The class occurs in the tree, and was made at a place `n` of the stream.
  rcases (Node.occurs_outlineAt tree 0 hocc).of_singleton with ⟨rfl, -⟩ | hin
  · -- A unit is no class.
    exact absurd (hplaced.1 hc) (by decide)
  · rcases hplaced.2 c _ hc hin with ⟨n, log, s'', hclass, hchars⟩
    -- Its closing brace is still to come there, so the stream goes on as that of a lexer.
    rcases hclass.behind_mark rfl with ⟨i, t, ht, hk, -⟩
    rw [Stream.ahead_drop] at ht
    rcases Stream.drop_ofLexer ht (by rw [hk]; decide) with
      ⟨before, rest, htext, hdrop, hbefore⟩
    have hoffset : (front.filterMap Node.token?).flatMap Token.chars = before :=
      List.append_cancel_right (hchars.trans hbefore)
    rcases hclass.relog [] with ⟨log', hagain⟩
    rw [hdrop, Nat.zero_add] at hagain
    rw [hoffset, parseDeclarationAt_width htext]
    exact Grammar.parse_ok_iff.2 ⟨_, hagain⟩

/-- A class in a class in a namespace. -/
def nestedClasses : String :=
  "using U;\nnamespace N \x7b class A \x7b int x; class B \x7b\x7d \x7d \x7d"

/-- The inner class is the node with number 25 in pre-order. -/
theorem parseDeclarationAt_nestedClasses :
    ∃ tree c, parseUnit nestedClasses = .ok tree ∧ tree.descendants[25]? = some c ∧
      c.kind = .classDecl ∧
      parseDeclarationAt nestedClasses
        (width (((tree.descendants.take 25).filterMap Node.token?).flatMap Token.chars)) =
        .ok c := by
  -- That there is a class at this place is evaluated; its parse is an instance.
  have hsome : ∃ tree ∈ (parseUnit nestedClasses).toOption, ∃ c ∈ tree.descendants[25]?,
      c.kind = .classDecl := by
    decide +kernel
  obtain ⟨tree, htree, c, hget, hkind⟩ := hsome
  have h := eq_ok_of_mem_toOption htree
  rcases List.getElem?_eq_some_iff.1 hget with ⟨hlt, hc⟩
  have hsplit : tree.descendants =
      tree.descendants.take 25 ++ c :: tree.descendants.drop 26 := by
    rw [← hc, ← List.drop_eq_getElem_cons hlt, List.take_append_drop]
  exact ⟨tree, c, h, hget, hkind, parseDeclarationAt_of_parseUnit h hkind hsplit⟩

end Lossless
