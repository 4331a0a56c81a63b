import Lossless.Proofs.Contracts
import Lossless.Proofs.Shapes
import Lossless.Proofs.TypeExpressions

/-!
# Lists of types

A list of types stands between brackets: the elements of a tuple, or what a generic name is applied
to. It is meant to be joined: at least one type, and every comma between two types
(`TypeList.joined`). What is parsed as a list is more than that: any number of types with a comma
behind each of them, and then maybe one without. By `typeList_joined_iff` the lists of a parsed tree
that are not joined are those without a type and those with a comma in front of the closing bracket,
and all of them are accepted wherever a list is.
-/

namespace Lossless

open Grammar Pattern RegularExpression Computability

/-! ## The form of a list -/

namespace Grammar.TypeList

/-- One type or more between the brackets, and a comma between any two neighbours. -/
def joined (list : TypeList) : Pattern :=
  terminal list.opening * (tree .typeRef * (terminal .comma * tree .typeRef).star) *
    terminal list.mark

theorem content_kind (list : TypeList) : Schema.content list.kind =
    terminal list.opening * separated (tree .typeRef) * terminal list.mark := by
  cases list <;> rfl

/-- The parts of a list: its opening bracket, types with a comma behind each of them, maybe one more
type, and its closing bracket. -/
structure Parts (list : TypeList) (opening : Token) (items : List Node) (last : Option Node)
    (closing : Token) : Prop where
  opens : opening.kind = list.opening
  separated : items.map Node.symbol ∈ (tree .typeRef * terminal .comma).star.matches'
  isType : ∀ n ∈ last, n.symbol = .tree .typeRef
  closes : closing.kind = list.mark

/-- The children of a list with the given parts. -/
def nodes (opening : Token) (items : List Node) (last : Option Node) (closing : Token) :
    List Node :=
  .token opening :: (items ++ last.toList) ++ [.token closing]

end Grammar.TypeList

/-- A thing that starts and ends a sequence can be taken to either side of the repetition. -/
theorem kstar_mul_slide {α : Type*} [KleeneAlgebra α] (a b : α) :
    (a * b)∗ * a = a * (b * a)∗ := by
  apply le_antisymm
  · have hstep : a * b * (a * (b * a)∗) ≤ a * (b * a)∗ := by
      rw [mul_assoc a b, ← mul_assoc b a]
      exact mul_le_mul_right mul_kstar_le_kstar a
    calc (a * b)∗ * a = (a * b)∗ * (a * 1) := by rw [mul_one]
      _ ≤ (a * b)∗ * (a * (b * a)∗) := by gcongr; exact one_le_kstar
      _ ≤ a * (b * a)∗ := kstar_mul_le_self hstep
  · have hstep : (a * b)∗ * a * (b * a) ≤ (a * b)∗ * a := by
      rw [mul_assoc, ← mul_assoc a b a, ← mul_assoc]
      exact mul_le_mul_left kstar_mul_le_kstar a
    calc a * (b * a)∗ = 1 * a * (b * a)∗ := by rw [one_mul]
      _ ≤ (a * b)∗ * a * (b * a)∗ := by gcongr; exact one_le_kstar
      _ ≤ (a * b)∗ * a := mul_kstar_le_self hstep

namespace Pattern

theorem matches'_slide (p q : Pattern) :
    ((p * q).star * p).matches' = (p * (q * p).star).matches' := by
  simp only [matches'_mul, matches'_star]
  exact kstar_mul_slide _ _

/-- A token is a terminal of its kind. -/
theorem token_mem {t : Token} {k : Kind} (hk : t.kind = k) :
    [(Node.token t).symbol] ∈ (terminal k).matches' := by
  rw [← hk]
  exact fits_token t rfl

theorem tree_mem (k : Kind) : [Symbol.tree k] ∈ (tree k).matches' := rfl

/-- Things with a comma behind each of them end with a comma. -/
theorem exists_comma_of_star {p : Pattern} {ns : List Node}
    (h : ns.map Node.symbol ∈ (p * terminal .comma).star.matches') (hne : ns ≠ []) :
    ∃ front comma, ns = front ++ [.token comma] ∧ comma.kind = .comma := by
  rw [matches'_star, ← Language.one_add_kstar_mul_self_eq_kstar, ← matches'_star] at h
  rcases h with h | h
  · exact absurd (List.map_eq_nil_iff.1 h) hne
  · obtain ⟨front, rest, rfl, -, hrest⟩ := exists_parts (p := (p * terminal .comma).star) h
    obtain ⟨item, mark, rfl, -, hmark⟩ := exists_parts hrest
    obtain ⟨comma, rfl, hcomma⟩ := exists_of_terminal hmark
    exact ⟨front ++ item, comma, by rw [List.append_assoc], hcomma⟩

end Pattern

namespace Grammar.TypeList

variable {list : TypeList} {opening closing : Token} {items : List Node} {last : Option Node}

/-- The children of every list have such parts. -/
theorem exists_parts_of_content {cs : List Node}
    (h : cs.map Node.symbol ∈ (Schema.content list.kind).matches') :
    ∃ opening items last closing, cs = nodes opening items last closing ∧
      list.Parts opening items last closing := by
  rw [content_kind] at h
  obtain ⟨front, back, rfl, hfront, hback⟩ := exists_parts h
  obtain ⟨first, inner, rfl, hfirst, hinner⟩ := exists_parts hfront
  obtain ⟨items, rest, rfl, hitems, hrest⟩ := exists_parts hinner
  obtain ⟨opening, rfl, hopening⟩ := exists_of_terminal hfirst
  obtain ⟨closing, rfl, hclosing⟩ := exists_of_terminal hback
  rcases hrest with hnone | hsome
  · obtain rfl := List.map_eq_nil_iff.1 hnone
    exact ⟨opening, items, none, closing, rfl, hopening, hitems, nofun, hclosing⟩
  · obtain ⟨n, rfl, hn⟩ := exists_of_char hsome
    refine ⟨opening, items, some n, closing, rfl, hopening, hitems, ?_, hclosing⟩
    rintro m ⟨⟩
    exact hn

/-- In front of the closing bracket of a joined list stands a type. -/
theorem exists_type_of_joined {cs : List Node} (h : cs.map Node.symbol ∈ list.joined.matches') :
    ∃ front n closing, cs = front ++ [n, .token closing] ∧ n.symbol = .tree .typeRef := by
  rw [joined, matches'_mul, matches'_mul, ← matches'_slide, ← matches'_mul, ← matches'_mul] at h
  obtain ⟨front, back, rfl, hfront, hback⟩ := exists_parts h
  obtain ⟨first, inner, rfl, -, hinner⟩ := exists_parts hfront
  obtain ⟨items, rest, rfl, -, hrest⟩ := exists_parts hinner
  obtain ⟨n, rfl, hn⟩ := exists_of_char hrest
  obtain ⟨closing, rfl, -⟩ := exists_of_terminal hback
  exact ⟨first ++ items, n, closing, by simp, hn⟩

namespace Parts

/-- If no type stands in front of the closing bracket, a token does. -/
theorem exists_token (h : list.Parts opening items none closing) :
    ∃ front t, nodes opening items none closing = front ++ [.token t, .token closing] ∧
      (items ≠ [] → t.kind = .comma) := by
  by_cases hitems : items = []
  · subst hitems
    exact ⟨[], opening, rfl, fun hne => absurd rfl hne⟩
  · obtain ⟨front, comma, rfl, hcomma⟩ := exists_comma_of_star h.separated hitems
    exact ⟨.token opening :: front, comma, by simp [nodes], fun _ => hcomma⟩

/-- A list is joined iff its last type has no comma behind it. -/
theorem joined_iff (h : list.Parts opening items last closing) :
    (nodes opening items last closing).map Node.symbol ∈ list.joined.matches' ↔
      last.isSome = true := by
  cases last with
  | none =>
    simp only [Option.isSome_none, Bool.false_eq_true, iff_false]
    intro hjoined
    obtain ⟨front, n, _, hcs, hn⟩ := exists_type_of_joined hjoined
    obtain ⟨front', t, hcs', -⟩ := h.exists_token
    -- The same child would be a type and a token.
    rw [hcs'] at hcs
    obtain ⟨-, hpair⟩ := List.append_inj' hcs rfl
    obtain ⟨rfl, -⟩ := List.cons_eq_cons.1 hpair
    obtain ⟨cs, hcs⟩ := Node.eq_tree_of_symbol hn
    cases hcs
  | some n =>
    simp only [Option.isSome_some, iff_true]
    have htype : [n.symbol] ∈ (tree .typeRef).matches' := by
      rw [h.isType n rfl]
      exact tree_mem _
    have htypes : items.map Node.symbol ++ [n.symbol] ∈
        (tree .typeRef * (terminal .comma * tree .typeRef).star).matches' := by
      rw [← matches'_slide]
      exact Language.append_mem_mul h.separated htype
    have happend := Language.append_mem_mul
      (Language.append_mem_mul (token_mem h.opens) htypes) (token_mem h.closes)
    simpa [nodes, joined] using happend

/-- A list has a last type without a comma behind it iff it has a type at all and no comma stands in
front of its closing bracket. -/
theorem isSome_iff (h : list.Parts opening items last closing) :
    last.isSome = true ↔ (∃ n ∈ nodes opening items last closing, n.kind = .typeRef) ∧
      ¬∃ front comma behind, nodes opening items last closing = front ++ [.token comma, behind] ∧
        comma.kind = .comma := by
  cases last with
  | none =>
    simp only [Option.isSome_none, Bool.false_eq_true, false_iff]
    rintro ⟨⟨n, hn, hkind⟩, hcomma⟩
    obtain ⟨front, t, hcs, ht⟩ := h.exists_token
    by_cases hitems : items = []
    · -- The brackets of an empty list are no types.
      subst hitems
      have hbrackets : list.opening ≠ .typeRef ∧ list.mark ≠ .typeRef := by
        cases list <;> decide
      rcases List.mem_pair.1 hn with rfl | rfl
      · exact hbrackets.1 (h.opens.symm.trans hkind)
      · exact hbrackets.2 (h.closes.symm.trans hkind)
    · exact hcomma ⟨front, t, .token closing, hcs, ht hitems⟩
  | some n =>
    obtain ⟨cs, rfl⟩ := Node.eq_tree_of_symbol (h.isType n rfl)
    simp only [Option.isSome_some, true_iff]
    constructor
    · exact ⟨.tree .typeRef cs, by simp [nodes], rfl⟩
    · rintro ⟨front, comma, behind, hcs, -⟩
      have hsplit : nodes opening items (some (.tree .typeRef cs)) closing =
          (.token opening :: items) ++ [.tree .typeRef cs, .token closing] := by
        simp [nodes]
      rw [hsplit] at hcs
      obtain ⟨-, hpair⟩ := List.append_inj' hcs rfl
      cases hpair

end Parts

/-! ## Every form is accepted -/

/-- The texts of the brackets. -/
def brackets : TypeList → String × String
  | .tuple => ("(", ")")
  | .generic => ("<", ">")

/-- Types with a comma behind each of them. -/
def itemsSpelling (items : List TypeExpr) : List (Kind × String) :=
  items.flatMap fun t => t.spelling ++ [(.comma, ",")]

/-- The spelling of a list: types with a comma behind each of them, and maybe one more type. -/
def spelling (list : TypeList) (items : List TypeExpr) (last : Option TypeExpr) :
    List (Kind × String) :=
  (list.opening, list.brackets.1) ::
    (itemsSpelling items ++ (last.elim [] TypeExpr.spelling ++ [(list.mark, list.brackets.2)]))

/-- A list ends with its closing bracket, wherever a type could begin. -/
theorem parses_mark {u : Terminal} (hu : u.token.kind = list.mark) (ns : List Node) (rest : Stream)
    (log : List Event) :
    Parses (Rule.typeItems list).body ns ⟨rest.cons u, log⟩
      (.tree list.kind (ns.reverse ++ [.token u.token])) ⟨rest, log⟩ := by
  refine .look (t := u) rfl (.yes hu (.take rfl ?_))
  rw [← List.reverse_cons]
  exact .close

/-- Types with a comma behind each of them are taken, and then the list goes on as before. -/
theorem parses_items (list : TypeList) (items : List TypeExpr) : ∀ {s s₁ : Stream} (ns : List Node)
    (log : List Event), Spells s (itemsSpelling items) s₁ →
      ∃ cs : List Node, cs.map Node.symbol ∈ (tree .typeRef * terminal .comma).star.matches' ∧
        ∀ {result : Node} {rest : Stream},
          Parses (Rule.typeItems list).body (cs.reverse ++ ns) ⟨s₁, log⟩ result ⟨rest, log⟩ →
          Parses (Rule.typeItems list).body ns ⟨s, log⟩ result ⟨rest, log⟩ := by
  induction items with
  | nil =>
    intro s s₁ ns log h
    rw [Spells.eq_of_nil h]
    exact ⟨[], Language.nil_mem_kstar _, id⟩
  | cons t items ih =>
    intro s s₁ ns log h
    rw [itemsSpelling, List.flatMap_cons, List.append_assoc] at h
    obtain ⟨s₂, helement, h⟩ := Spells.split h
    obtain ⟨ds, hparses, -⟩ := t.isParsed s s₂ log helement (h.endsType (by decide))
    obtain ⟨u, s₃, rfl, hu, -, h⟩ := h.uncons
    obtain ⟨cs, hcs, hmore⟩ := ih (.token u.token :: .tree .typeRef ds :: ns) log h
    refine ⟨.tree .typeRef ds :: .token u.token :: cs, ?_, ?_⟩
    · -- One more type and its comma in front keep to the repeated pair.
      have hpair : [Symbol.tree .typeRef, (Node.token u.token).symbol] ∈
          (tree .typeRef * terminal .comma).matches' :=
        Language.append_mem_mul (tree_mem _) (token_mem hu)
      rw [matches'_star, ← Language.one_add_self_mul_kstar_eq_kstar, ← matches'_star]
      exact Or.inr (Language.append_mem_mul hpair hcs)
    · intro result rest hrest
      refine t.parses_typeItems helement hparses ?_
      refine .look (t := u) rfl (.yes hu (.take rfl (.goto (hmore ?_))))
      simpa using hrest

/-- A last type, or none, and then the closing bracket end a list. -/
theorem parses_last (list : TypeList) (last : Option TypeExpr) {s rest : Stream} (ns : List Node)
    (log : List Event)
    (h : Spells s (last.elim [] TypeExpr.spelling ++ [(list.mark, list.brackets.2)]) rest) :
    ∃ (node : Option Node) (closing : Token), node.isSome = last.isSome ∧
      (∀ n ∈ node, n.symbol = .tree .typeRef) ∧ closing.kind = list.mark ∧
      Parses (Rule.typeItems list).body ns ⟨s, log⟩
        (.tree list.kind (ns.reverse ++ (node.toList ++ [.token closing]))) ⟨rest, log⟩ := by
  cases last with
  -- Without a last type the mark closes the list where an element could begin.
  | none =>
    obtain ⟨u, s, rfl, hu, -, h⟩ := Spells.uncons h
    rw [h.eq_of_nil]
    exact ⟨none, u.token, rfl, nofun, hu, parses_mark hu ns rest log⟩
  | some t =>
    obtain ⟨s₁, helement, h⟩ := Spells.split h
    obtain ⟨ds, hparses, -⟩ := t.isParsed s s₁ log helement (h.endsType list.mark_ne.2.2.2)
    obtain ⟨u, s₁, rfl, hu, -, h⟩ := h.uncons
    rw [h.eq_of_nil] at helement hparses
    have hcomma : u.token.kind ≠ .comma := by
      rw [hu]
      exact list.mark_ne.1
    refine ⟨some (.tree .typeRef ds), u.token, rfl, ?_, hu, ?_⟩
    · rintro n ⟨⟩
      rfl
    · refine t.parses_typeItems helement hparses ?_
      refine .look (t := u) rfl (.no hcomma (.yes hu (.goto ?_)))
      simpa using parses_mark hu (.tree .typeRef ds :: ns) rest log

/-- A list is parsed from every spelling, and it has the parts that are spelled. -/
theorem exists_parses (list : TypeList) (items : List TypeExpr) (last : Option TypeExpr)
    {s rest : Stream} (log : List Event) (h : Spells s (list.spelling items last) rest) :
    ∃ opening ns node closing, list.Parts opening ns node closing ∧
      node.isSome = last.isSome ∧
      Parses (Rule.typeList list).body [] ⟨s, log⟩
        (.tree list.kind (nodes opening ns node closing)) ⟨rest, log⟩ := by
  obtain ⟨u, s, rfl, hu, -, h⟩ := Spells.uncons h
  obtain ⟨s₁, hitems, hlast⟩ := h.split
  obtain ⟨cs, hcs, hmore⟩ := parses_items list items [.token u.token] log hitems
  obtain ⟨node, closing, hsome, htype, hclosing, hparses⟩ :=
    parses_last list last (cs.reverse ++ [.token u.token]) log hlast
  refine ⟨u.token, cs, node, closing, ⟨hu, hcs, htype, hclosing⟩, hsome, ?_⟩
  refine .take rfl (.goto (hmore ?_))
  simpa [nodes] using hparses

end Grammar.TypeList

/-- A rule that finds the terminals it needs has the outcome that is derived for it. -/
theorem Grammar.Parses.run_of_needs {rule : Rule} {ns : List Node} {s s' : State} {node : Node}
    (h : Parses rule.body ns s node s') (hneeds : rule.needs ≤ s.stream.terminals.length) :
    run (depthFor s.stream) rule ns s = .done node s' := by
  have hrank := rule.rank_le
  have hends := run_ends (depthFor s.stream) rule ns s (by unfold depthFor; omega) hneeds
  rw [Grammar.run_depthFor] at hends ⊢
  rcases h.exec (5 * s.stream.terminals.length + 4) with he | he
  · rw [he] at hends
    exact hends.elim
  · exact he

/-- The lists of a parsed tree are types with a comma behind each of them, and maybe one more type.
They are joined iff they have a type and no comma stands in front of their closing bracket. The rule
for lists accepts all of these forms, whatever follows, and makes a joined list only of those that
end with a type. -/
theorem typeList_joined_iff (list : TypeList) :
    (∀ (text : String) (root n : Node), ParsedFrom text root → n ∈ root.descendants →
      n.kind = list.kind →
      n.children.map Node.symbol ∈
        (terminal list.opening * separated (tree .typeRef) * terminal list.mark).matches' ∧
      (n.children.map Node.symbol ∈ list.joined.matches' ↔
        (∃ c ∈ n.children, c.kind = .typeRef) ∧
          ¬∃ front comma behind, n.children = front ++ [.token comma, behind] ∧
            comma.kind = .comma)) ∧
    ∀ (items : List TypeExpr) (last : Option TypeExpr) (us : List Terminal) (rest : Stream)
      (log : List Event), us.map Terminal.sign = list.spelling items last →
      let s : Stream := ⟨us ++ rest.terminals, rest.ending⟩
      ∃ cs, run (depthFor s) (.typeList list) [] ⟨s, log⟩ = .done (.tree list.kind cs) ⟨rest, log⟩ ∧
        (cs.map Node.symbol ∈ list.joined.matches' ↔ last.isSome = true) := by
  constructor
  · intro text root n parsed hn hkind
    have hobeys := parsed.conforms n hn
    cases n with
    | token t =>
      -- No terminal of a tree has the kind of a list.
      have hterminal : t.kind.isTerminal = true := hobeys
      rw [show t.kind = list.kind from hkind] at hterminal
      cases list <;> cases hterminal
    | tree k cs =>
      obtain rfl : k = list.kind := hkind
      have hcontent : cs.map Node.symbol ∈ (Schema.content list.kind).matches' := hobeys
      obtain ⟨opening, items, last, closing, hcs, hparts⟩ :=
        TypeList.exists_parts_of_content hcontent
      rw [TypeList.content_kind] at hcontent
      refine ⟨hcontent, ?_⟩
      rw [show (Node.tree list.kind cs).children = cs from rfl, hcs, hparts.joined_iff,
        hparts.isSome_iff]
  · intro items last us rest log hus s
    obtain ⟨opening, ns, node, closing, hparts, hsome, hparses⟩ :=
      list.exists_parses items last log ⟨us, hus, rfl⟩
    have hneeds : (Rule.typeList list).needs ≤ s.terminals.length := by
      have hlength := congrArg List.length hus
      simp only [List.length_map, TypeList.spelling, List.length_cons] at hlength
      simp only [Rule.needs, s, List.length_append]
      omega
    refine ⟨_, hparses.run_of_needs hneeds, ?_⟩
    rw [hparts.joined_iff, hsome]

/-- A comma behind the last type parameter, and an empty list of arguments in a tuple. -/
def unjoinedLists : String := "class A<B,> \x7b (C<>, D) x; \x7d"

/-- A trailing comma leaves a list of arguments unjoined, and an empty list is accepted and
unjoined. -/
theorem typeList_joined_iff_unjoinedLists :
    (∃ root n, parseUnit unjoinedLists = .ok root ∧ n ∈ root.descendants ∧
      n.kind = .genericArgs ∧ (∃ c ∈ n.children, c.kind = .typeRef) ∧
      ∃ front comma behind, n.children = front ++ [.token comma, behind] ∧
        comma.kind = .comma) ∧
    let s := Stream.ofLexer (Lexer.new "<>, D)".toList)
    ∃ cs, run (depthFor s) (.typeList .generic) [] ⟨s, []⟩ =
        .done (.tree .genericArgs cs) ⟨⟨s.terminals.drop 2, s.ending⟩, []⟩ ∧
      cs.map Node.symbol ∉ TypeList.generic.joined.matches' := by
  obtain ⟨hparsed, haccepted⟩ := typeList_joined_iff .generic
  constructor
  · have hfound : ∃ root ∈ (parseUnit unjoinedLists).toOption, ∃ n ∈ root.descendants,
        n.kind = .genericArgs ∧ (∃ c ∈ n.children, c.kind = .typeRef) ∧
          n.children.map Node.symbol ∉ TypeList.generic.joined.matches' := by
      decide +kernel
    obtain ⟨root, hroot, n, hn, hkind, htype, hnot⟩ := hfound
    have hok := eq_ok_of_mem_toOption hroot
    obtain ⟨-, hjoined⟩ := hparsed unjoinedLists root n (.inl hok) hn hkind
    refine ⟨root, n, hok, hn, hkind, htype, ?_⟩
    -- Without a comma in front of the mark the list would be joined.
    by_contra hcomma
    exact hnot (hjoined.2 ⟨htype, hcomma⟩)
  · intro s
    have hus : (s.terminals.take 2).map Terminal.sign = TypeList.generic.spelling [] none := by
      decide +kernel
    have h := haccepted [] none (s.terminals.take 2) ⟨s.terminals.drop 2, s.ending⟩ [] hus
    rw [List.take_append_drop] at h
    obtain ⟨cs, hrun, hjoined⟩ := h
    exact ⟨cs, hrun, fun hmem => nomatch hjoined.1 hmem⟩

/-- A list can be empty, and a comma can stand in front of its closing bracket. -/
theorem not_typeList_joined :
    (∃ root ∈ (parseUnit "class A \x7b List<> x; \x7d").toOption, ∃ n ∈ root.descendants,
      n.kind = TypeList.generic.kind ∧
        n.children.map Node.symbol ∉ TypeList.generic.joined.matches') ∧
      ∃ root ∈ (parseUnit "class A \x7b (int,) x; \x7d").toOption, ∃ n ∈ root.descendants,
        n.kind = TypeList.tuple.kind ∧
          n.children.map Node.symbol ∉ TypeList.tuple.joined.matches' := by
  decide +kernel

end Lossless
