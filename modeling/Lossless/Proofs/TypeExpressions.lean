import Lossless.Proofs.Conformance
import Lossless.View.Type

/-!
# Type expressions

What can be written as a type is a value of `TypeExpr`, nested without bound. Its spelling is a
sequence of terminals of which only kinds and texts are fixed. By `typeExpr_of_spelling` the rule
for types takes exactly the terminals of a spelling, as long as none follows with which a type could
go on, and the views of the node that it makes give the expression back at every level.
-/

namespace Lossless

open Grammar

/-! ## Expressions -/

/-- Words joined by points, where `void` is not the first of them. -/
structure TypePath where
  first : String
  more : List String
  no_point : ∀ w ∈ first :: more, '.' ∉ w.toList
  not_void : first ≠ "void"
deriving DecidableEq, Repr

/-- A type: `void`, a name with or without type arguments, or a tuple with at least one element.
All but `void` can be arrays. -/
inductive TypeExpr where
  | void
  | named (path : TypePath) (args : List TypeExpr) (isArray : Bool)
  | tuple (first : TypeExpr) (more : List TypeExpr) (isArray : Bool)
deriving Repr

/-- What a spelling fixes of a terminal. -/
def Terminal.sign (t : Terminal) : Kind × String := (t.token.kind, t.token.text)

namespace TypePath

/-- The spelling of the words behind the first. -/
def tailSpelling (words : List String) : List (Kind × String) :=
  words.flatMap fun w => [(.dot, "."), (.ident, w)]

def spelling (p : TypePath) : List (Kind × String) := (.ident, p.first) :: tailSpelling p.more

def name (p : TypePath) : String :=
  String.ofList (p.first.toList ++ p.more.flatMap fun w => '.' :: w.toList)

def ofName? (name : String) : Option TypePath :=
  match (name.toList.splitOn '.').map String.ofList with
  | [] => none
  | first :: more =>
    if h : (∀ w ∈ first :: more, '.' ∉ w.toList) ∧ first ≠ "void" then
      some ⟨first, more, h.1, h.2⟩
    else none

end TypePath

namespace TypeExpr

/-- The spelling of the mark of an array. -/
def arraySpelling (isArray : Bool) : List (Kind × String) :=
  if isArray then [(.leftBracket, "["), (.rightBracket, "]")] else []

mutual

/-- The terminals of a type. -/
def spelling : TypeExpr → List (Kind × String)
  | .void => [(.ident, "void")]
  | .named path [] isArray => path.spelling ++ arraySpelling isArray
  | .named path (arg :: args) isArray =>
    path.spelling ++ ((.less, "<") :: (arg.spelling ++ behindCommas args ++ [(.greater, ">")]) ++
      arraySpelling isArray)
  | .tuple first more isArray =>
    (.leftParen, "(") :: (first.spelling ++ behindCommas more ++ [(.rightParen, ")")]) ++
      arraySpelling isArray

/-- The terminals of types, each behind a comma. -/
def behindCommas : List TypeExpr → List (Kind × String)
  | [] => []
  | t :: ts => (.comma, ",") :: (t.spelling ++ behindCommas ts)

end

mutual

/-- What the views of a type have to show. -/
def shape : TypeExpr → TypeShape
  | .void => .mk false false (some "void") [] []
  | .named path args isArray => .mk false isArray (some path.name) [] (shapes args)
  | .tuple first more isArray => .mk true isArray none (first.shape :: shapes more) []

def shapes : List TypeExpr → List TypeShape
  | [] => []
  | t :: ts => t.shape :: shapes ts

end

end TypeExpr

namespace TypeShape

mutual

/-- The type that the views of a node show, if they show one. -/
def expr? : TypeShape → Option TypeExpr
  | .mk true isArray none elements [] =>
    match exprs? elements with
    | some (first :: more) => some (.tuple first more isArray)
    | _ => none
  | .mk false isArray (some name) [] args =>
    match TypePath.ofName? name with
    | some path => (exprs? args).map (.named path · isArray)
    | none => if name = "void" ∧ isArray = false ∧ args.isEmpty then some .void else none
  | _ => none

def exprs? : List TypeShape → Option (List TypeExpr)
  | [] => some []
  | s :: ss => s.expr?.bind fun t => (exprs? ss).map (t :: ·)

end

end TypeShape

/-! ## Expressions are read back from what the views show -/

theorem intercalate_point (w : List Char) (ws : List (List Char)) :
    ['.'].intercalate (w :: ws) = w ++ ws.flatMap ('.' :: ·) := by
  induction ws generalizing w with
  | nil => simp [List.intercalate]
  | cons v ws ih =>
    rw [List.intercalate_cons_cons, ih]
    simp

/-- A path is read back off its dotted name. -/
theorem TypePath.ofName?_name (p : TypePath) : TypePath.ofName? p.name = some p := by
  have hsplit : (p.name.toList.splitOn '.').map String.ofList = p.first :: p.more := by
    have hchars : p.name.toList = ['.'].intercalate ((p.first :: p.more).map String.toList) := by
      rw [List.map_cons, intercalate_point, name, String.toList_ofList, List.flatMap_map]
    rw [hchars, List.splitOn_intercalate]
    · simp
    · simpa using p.no_point
    · simp
  rw [ofName?, hsplit]
  exact dif_pos ⟨p.no_point, p.not_void⟩

mutual

/-- A type expression is read back off its shape. -/
theorem TypeExpr.expr?_shape : (t : TypeExpr) → t.shape.expr? = some t
  | .void => by
    have hvoid : TypePath.ofName? "void" = none := by decide
    rw [shape, TypeShape.expr?, hvoid]
    rfl
  | .named path args isArray => by
    rw [shape, TypeShape.expr?, path.ofName?_name, TypeExpr.exprs?_shapes args]
    rfl
  | .tuple first more isArray => by
    rw [shape, TypeShape.expr?, TypeShape.exprs?, TypeExpr.expr?_shape first,
      TypeExpr.exprs?_shapes more]
    rfl

theorem TypeExpr.exprs?_shapes : (ts : List TypeExpr) → TypeShape.exprs? (shapes ts) = some ts
  | [] => rfl
  | t :: ts => by
    rw [shapes, TypeShape.exprs?, TypeExpr.expr?_shape t, TypeExpr.exprs?_shapes ts]
    rfl

end

/-! ## Spellings in front of a stream -/

/-- The next terminals of a stream are spelled like this, and the last stream is what follows
them. -/
def Spells (s : Stream) (signs : List (Kind × String)) (rest : Stream) : Prop :=
  ∃ us : List Terminal, us.map Terminal.sign = signs ∧ s = ⟨us ++ rest.terminals, rest.ending⟩

/-- The next terminal is none with which a type goes on. -/
def EndsType (s : Stream) : Prop :=
  ∃ t, s.ahead 0 = .ok t ∧ t.token.kind ∉ [.dot, .less, .leftBracket]

namespace Spells

variable {s rest : Stream} {k : Kind} {w : String} {signs more : List (Kind × String)}

theorem eq_of_nil (h : Spells s [] rest) : s = rest := by
  obtain ⟨us, hus, rfl⟩ := h
  rw [List.map_eq_nil_iff.1 hus]
  rfl

theorem uncons (h : Spells s ((k, w) :: signs) rest) :
    ∃ u s', s = s'.cons u ∧ u.token.kind = k ∧ u.token.text = w ∧ Spells s' signs rest := by
  obtain ⟨us, hus, rfl⟩ := h
  obtain ⟨u, us, rfl, hu, hus⟩ := List.map_eq_cons_iff.1 hus
  obtain ⟨hk, hw⟩ := Prod.mk.inj hu
  exact ⟨u, _, rfl, hk, hw, us, hus, rfl⟩

theorem split (h : Spells s (signs ++ more) rest) :
    ∃ s', Spells s signs s' ∧ Spells s' more rest := by
  obtain ⟨us, hus, rfl⟩ := h
  obtain ⟨us, vs, rfl, hus, hvs⟩ := List.map_eq_append_iff.1 hus
  refine ⟨⟨vs ++ rest.terminals, rest.ending⟩, ⟨us, hus, ?_⟩, ⟨vs, hvs, rfl⟩⟩
  rw [List.append_assoc]

theorem endsType (h : Spells s ((k, w) :: signs) rest) (hk : k ∉ [.dot, .less, .leftBracket]) :
    EndsType s := by
  obtain ⟨u, s', rfl, rfl, -, -⟩ := h.uncons
  exact ⟨u, rfl, hk⟩

end Spells

/-! ## Branches and names -/

section Branches

variable {p : Prop} [Decidable p] {a b : Step} {nodes : List Node} {s s' : State} {node : Node}

theorem Grammar.Parses.yes (hp : p) (h : Parses a nodes s node s') :
    Parses (if p then a else b) nodes s node s' := by
  rwa [if_pos hp]

theorem Grammar.Parses.no (hp : ¬p) (h : Parses b nodes s node s') :
    Parses (if p then a else b) nodes s node s' := by
  rwa [if_neg hp]

end Branches

/-- The words behind the first of a path are parsed up to a token that is no point, and the text of
their nodes is how they are spelled. -/
theorem parses_qualifiedTail (words : List String) : ∀ {s rest : Stream} (nodes : List Node)
    (log : List Event) {t : Terminal}, Spells s (TypePath.tailSpelling words) rest →
      rest.ahead 0 = .ok t → t.token.kind ≠ .dot →
      ∃ cs, Parses Rule.qualifiedTail.body nodes ⟨s, log⟩
          (.tree .qualifiedName (nodes.reverse ++ cs)) ⟨rest, log⟩ ∧
        (Node.tokensIn cs).flatMap Token.ownChars = words.flatMap fun w => '.' :: w.toList := by
  induction words with
  | nil =>
    intro s rest nodes log t h ht hdot
    rw [h.eq_of_nil]
    refine ⟨[], ?_, rfl⟩
    refine parses_ifAt.2 ⟨t, ht, .inr ⟨hdot, ?_⟩⟩
    rw [List.append_nil]
    exact .close
  | cons w words ih =>
    intro s rest nodes log t h ht hdot
    -- A point and a word are taken, and the rule is entered again behind them.
    obtain ⟨u, s, rfl, huk, hut, h⟩ := h.uncons
    obtain ⟨v, s, rfl, hvk, hvt, h⟩ := h.uncons
    obtain ⟨cs, hparses, hchars⟩ := ih (.token v.token :: .token u.token :: nodes) log h ht hdot
    refine ⟨.token u.token :: .token v.token :: cs, ?_, ?_⟩
    · refine parses_ifAt.2 ⟨u, rfl, .inl ⟨huk, ?_⟩⟩
      refine .look (t := v) rfl (.yes hvk (.take rfl (.take rfl (.goto ?_))))
      simpa using hparses
    · simp [Node.tokensIn, Node.tokens, Token.ownChars, huk, hut, hvk, hvt, hchars]

/-- A path is parsed as a name. -/
theorem TypePath.parses (p : TypePath) {s rest : Stream} (log : List Event) {t : Terminal}
    (h : Spells s p.spelling rest) (ht : rest.ahead 0 = .ok t) (hdot : t.token.kind ≠ .dot) :
    ∃ cs, Parses Rule.qualifiedName.body [] ⟨s, log⟩ (.tree .qualifiedName cs) ⟨rest, log⟩ ∧
      (Node.tree .qualifiedName cs).trimmedText = p.name := by
  obtain ⟨u, s, rfl, huk, hut, h⟩ := h.uncons
  obtain ⟨cs, hparses, hchars⟩ := parses_qualifiedTail p.more [.token u.token] log h ht hdot
  refine ⟨.token u.token :: cs, parses_expect.2 ⟨u, rfl, huk, .goto hparses⟩, ?_⟩
  simp [Node.trimmedText, name, Node.tokens, Node.tokensIn, Token.ownChars, huk, hut, hchars]

/-! ## What the node of a type shows -/

namespace TypeShape

theorem ofNodes_eq (ns : List Node) :
    ofNodes ns = (ns.filterMap (Node.view? .typeRef)).map TypeView.shape := by
  induction ns with
  | nil => rfl
  | cons n ns ih =>
    by_cases hn : n.kind = .typeRef
    · simp [ofNodes, Node.view?, hn, ih, TypeView.shape]
    · simp [ofNodes, Node.view?, hn, ih]

/-- The shapes under the first node of a kind are those of the types in it. -/
theorem inFirst_eq (k : Kind) (ns : List Node) :
    inFirst k ns =
      (((ns.find? (·.kind == k)).map (Node.views .typeRef)).getD []).map TypeView.shape := by
  induction ns with
  | nil => rfl
  | cons n ns ih =>
    cases n with
    | token t =>
      by_cases ht : t.kind = k
      · simp [inFirst, Node.kind, Node.views, Node.children, ht]
      · simp [inFirst, Node.kind, ht, ih]
    | tree j cs =>
      by_cases hj : j = k
      · simp [inFirst, Node.kind, Node.views, Node.children, hj, ofNodes_eq]
      · simp [inFirst, Node.kind, hj, ih]

end TypeShape

/-- The shape of a type is what its views show, level by level. -/
theorem TypeView.shape_eq (t : TypeView) :
    t.shape = .mk t.isTuple t.isArray t.name? (t.tupleElements.map TypeView.shape)
      (t.genericArgs.map TypeView.shape) := by
  obtain ⟨node, hnode⟩ := t
  cases node with
  | token u => rfl
  | tree k cs =>
    rw [TypeView.shape, TypeShape.ofNode, TypeShape.inFirst_eq, TypeShape.inFirst_eq]
    rfl

namespace TypeShape

theorem ofNodes_token {t : Token} (h : t.kind ≠ .typeRef) (ns : List Node) :
    ofNodes (.token t :: ns) = ofNodes ns :=
  if_neg h

theorem ofNodes_type (cs ns : List Node) :
    ofNodes (.tree .typeRef cs :: ns) = ofNode (.tree .typeRef cs) :: ofNodes ns :=
  if_pos rfl

/-- The nodes of a mark of an array. -/
def arrayNodes (isArray : Bool) (cs : List Node) : List Node :=
  if isArray then [.tree .arrayType cs] else []

-- What the views look for is found, or not found, by the kinds of at most three children.
attribute [local simp] ofNode inFirst arrayNodes Node.hasKind Node.name? Node.firstOfKind?
  Node.children Node.kind

theorem ofNode_named (isArray : Bool) (cs as : List Node) :
    ofNode (.tree .typeRef (.tree .qualifiedName cs :: arrayNodes isArray as)) =
      .mk false isArray (some (Node.tree .qualifiedName cs).trimmedText) [] [] := by
  cases isArray <;> simp

theorem ofNode_generic (isArray : Bool) (cs ds as : List Node) :
    ofNode (.tree .typeRef
        (.tree .qualifiedName cs :: .tree .genericArgs ds :: arrayNodes isArray as)) =
      .mk false isArray (some (Node.tree .qualifiedName cs).trimmedText) [] (ofNodes ds) := by
  cases isArray <;> simp

theorem ofNode_tuple (isArray : Bool) (ds as : List Node) :
    ofNode (.tree .typeRef (.tree .tupleType ds :: arrayNodes isArray as)) =
      .mk true isArray none (ofNodes ds) [] := by
  cases isArray <;> simp

end TypeShape

/-! ## Parts of types -/

/-- What comes behind the name or the tuple of a type. -/
def typeSuffix : Step :=
  ifAt .leftBracket
    (.look ⟨1, by decide⟩ fun h =>
      if h.kind = .rightBracket then .call .arrayMark (.close .typeRef) else .fail .arrayMark)
    (.close .typeRef)

/-- The next terminal is one of those that a step can see. -/
theorem next_inSight : 0 < 3 := Nat.succ_pos 2

/-- What comes behind an element of a list of types. -/
def typeSeparator (list : TypeList) : Step :=
  .look ⟨0, next_inSight⟩ fun h =>
    if h.kind = .comma then bump (.goto (.typeItems list))
    else if h.kind = list.mark then .goto (.typeItems list)
    else .fail list.cause

/-- The mark of an array, or none, ends a type. -/
theorem parses_typeSuffix (isArray : Bool) {s rest : Stream} (nodes : List Node) (log : List Event)
    (h : Spells s (TypeExpr.arraySpelling isArray) rest) (hends : EndsType rest) :
    ∃ cs, Parses typeSuffix nodes ⟨s, log⟩
      (.tree .typeRef (nodes.reverse ++ TypeShape.arrayNodes isArray cs)) ⟨rest, log⟩ := by
  cases isArray with
  | false =>
    rw [h.eq_of_nil]
    obtain ⟨t, ht, hk⟩ := hends
    -- What ends a type does not open the mark.
    have hbracket : t.token.kind ≠ .leftBracket := by
      rintro hbracket
      simp [hbracket] at hk
    refine ⟨[], parses_ifAt.2 ⟨t, ht, .inr ⟨hbracket, ?_⟩⟩⟩
    show Parses _ _ _ (.tree .typeRef (nodes.reverse ++ [])) _
    rw [List.append_nil]
    exact .close
  | true =>
    obtain ⟨u, s, rfl, hu, -, h⟩ := h.uncons
    obtain ⟨v, s, rfl, hv, -, h⟩ := h.uncons
    rw [h.eq_of_nil]
    have hmark : Parses Rule.arrayMark.body [] ⟨(rest.cons v).cons u, log⟩
        (.tree .arrayType [.token u.token, .token v.token]) ⟨rest, log⟩ :=
      .take rfl (.take rfl .close)
    refine ⟨[.token u.token, .token v.token], parses_ifAt.2 ⟨u, rfl, .inl ⟨hu, ?_⟩⟩⟩
    refine .look (t := v) rfl (.yes hv (.call hmark ?_))
    show Parses _ _ _ (.tree .typeRef (nodes.reverse ++ [_])) _
    rw [← List.reverse_cons]
    exact .close

/-- A path at the beginning of a type is its name. -/
theorem TypePath.parses_typeRef (p : TypePath) {s s₁ : Stream} {t : Terminal} (log : List Event)
    (h : Spells s p.spelling s₁) (ht : s₁.ahead 0 = .ok t) (hdot : t.token.kind ≠ .dot) :
    ∃ cs, (Node.tree .qualifiedName cs).trimmedText = p.name ∧
      ∀ {result : Node} {rest : Stream},
        Parses (ifAt .less (.call (.typeList .generic) typeSuffix) typeSuffix)
          [.tree .qualifiedName cs] ⟨s₁, log⟩ result ⟨rest, log⟩ →
        Parses Rule.typeRef.body [] ⟨s, log⟩ result ⟨rest, log⟩ := by
  obtain ⟨cs, hname, htext⟩ := p.parses log h ht hdot
  refine ⟨cs, htext, fun hrest => ?_⟩
  obtain ⟨u, s', rfl, hk, hw, -⟩ := h.uncons
  have hparen : u.token.kind ≠ .leftParen := by
    rw [hk]
    decide
  have hvoid : ¬(Glimpse.ofTerminal u).is "void" = true := by
    rw [Glimpse.is_iff]
    rintro ⟨-, htext⟩
    exact p.not_void (hw.symm.trans htext)
  exact .look (t := u) rfl (.no hparen (.no hvoid (.call hname hrest)))

theorem Grammar.TypeList.mark_ne (list : TypeList) :
    list.mark ≠ .comma ∧ list.mark ≠ .typeRef ∧ list.mark ∉ [Kind.ident, .leftParen] ∧
      list.mark ∉ [Kind.dot, .less, .leftBracket] := by
  cases list <;> decide

/-- The first terminal of a type is a word or opens a tuple. -/
theorem TypeExpr.exists_first (t : TypeExpr) :
    ∃ k w signs, t.spelling = (k, w) :: signs ∧ k ∈ [Kind.ident, .leftParen] := by
  cases t with
  | void => exact ⟨_, _, _, rfl, by decide⟩
  | named path args isArray => cases args <;> exact ⟨_, _, _, rfl, by decide⟩
  | tuple first more isArray => exact ⟨_, _, _, rfl, by decide⟩

/-- What follows an element of a list is not part of it. -/
theorem endsType_of_list {s rest : Stream} {list : TypeList} {ts : List TypeExpr} {w : String}
    (h : Spells s (TypeExpr.behindCommas ts ++ [(list.mark, w)]) rest) : EndsType s := by
  cases ts with
  | nil => exact Spells.endsType h list.mark_ne.2.2.2
  | cons t ts => exact Spells.endsType h (by decide)

/-- In front of a type, a list is not at its end. -/
theorem TypeExpr.parses_typeItems (t : TypeExpr) {list : TypeList} {s s₁ rest : Stream}
    {nodes : List Node} {node result : Node} {log : List Event} (h : Spells s t.spelling s₁)
    (helement : Parses Rule.typeRef.body [] ⟨s, log⟩ node ⟨s₁, log⟩)
    (hmore : Parses (typeSeparator list) (node :: nodes) ⟨s₁, log⟩ result ⟨rest, log⟩) :
    Parses (Rule.typeItems list).body nodes ⟨s, log⟩ result ⟨rest, log⟩ := by
  obtain ⟨k, w, signs, hspelling, hk⟩ := t.exists_first
  rw [hspelling] at h
  obtain ⟨u, s', rfl, rfl, -, -⟩ := h.uncons
  have hmark : u.token.kind ≠ list.mark := by
    intro heq
    exact list.mark_ne.2.2.1 (heq ▸ hk)
  exact .look (t := u) rfl (.no hmark (.call helement hmore))

/-! ## Types

That a type is parsed from its spelling is shown for each form from the same for its parts. -/

namespace TypeExpr

/-- Wherever the type is spelled, it is parsed, and its node shows what it is. -/
def IsParsed (t : TypeExpr) : Prop :=
  ∀ (s rest : Stream) (log : List Event), Spells s t.spelling rest → EndsType rest →
    ∃ cs, Parses Rule.typeRef.body [] ⟨s, log⟩ (.tree .typeRef cs) ⟨rest, log⟩ ∧
      TypeShape.ofNode (.tree .typeRef cs) = t.shape

/-- Wherever the types are spelled behind commas and in front of the end of a list, they are
parsed, and their nodes show what they are. -/
def AreParsed (ts : List TypeExpr) : Prop :=
  ∀ (list : TypeList) (s rest : Stream) (w : String) (nodes : List Node) (log : List Event),
    Spells s (behindCommas ts ++ [(list.mark, w)]) rest →
    ∃ cs, Parses (typeSeparator list) nodes ⟨s, log⟩ (.tree list.kind (nodes.reverse ++ cs))
        ⟨rest, log⟩ ∧ TypeShape.ofNodes cs = shapes ts

/-- The word `void` is parsed as the type. -/
theorem isParsed_void : IsParsed .void := by
  intro s rest log h _
  obtain ⟨u, s, rfl, hk, hw, h⟩ := h.uncons
  rw [h.eq_of_nil]
  have hparen : u.token.kind ≠ .leftParen := by
    rw [hk]
    decide
  have hname : Parses Rule.plainName.body [] ⟨rest.cons u, log⟩
      (.tree .qualifiedName [.token u.token]) ⟨rest, log⟩ := .take rfl .close
  refine ⟨[.tree .qualifiedName [.token u.token]], ?_, ?_⟩
  · refine .look (t := u) rfl (.no hparen (.yes (Glimpse.is_iff.2 ⟨hk, hw⟩) ?_))
    exact .call hname .close
  · refine (TypeShape.ofNode_named false _ []).trans ?_
    simp [shape, Node.trimmedText, Node.tokens, Node.tokensIn, Token.ownChars, hk, hw]

/-- A path without arguments is parsed as the type it names. -/
theorem isParsed_plain (path : TypePath) (isArray : Bool) : IsParsed (.named path [] isArray) := by
  intro s rest log h hends
  obtain ⟨s₁, hpath, harray⟩ := Spells.split h
  -- The next terminal is the bracket of the array or the one behind the type.
  have hnext : ∃ t, s₁.ahead 0 = .ok t ∧ t.token.kind ≠ .dot ∧ t.token.kind ≠ .less := by
    cases isArray with
    | false =>
      rw [harray.eq_of_nil]
      obtain ⟨t, ht, hk⟩ := hends
      simp only [List.mem_cons, not_or] at hk
      exact ⟨t, ht, hk.1, hk.2.1⟩
    | true =>
      obtain ⟨u, s', rfl, hu, -⟩ := harray.uncons
      refine ⟨u, rfl, ?_⟩
      rw [hu]
      decide
  obtain ⟨t, ht, hk⟩ := hnext
  obtain ⟨cs, hname, hparses⟩ := path.parses_typeRef log hpath ht hk.1
  obtain ⟨as, hsuffix⟩ := parses_typeSuffix isArray [.tree .qualifiedName cs] log harray hends
  refine ⟨_, hparses (parses_ifAt.2 ⟨t, ht, .inr ⟨hk.2, hsuffix⟩⟩), ?_⟩
  refine (TypeShape.ofNode_named isArray cs as).trans ?_
  rw [hname, shape, shapes]

/-- A list of types with at least one element. -/
theorem parses_typeList (list : TypeList) {first : TypeExpr} {more : List TypeExpr}
    (hfirst : first.IsParsed) (hmore : AreParsed more) {v w : String} {s rest : Stream}
    (log : List Event)
    (h : Spells s ((list.opening, v) ::
      (first.spelling ++ behindCommas more ++ [(list.mark, w)])) rest) :
    ∃ cs, Parses (Rule.typeList list).body [] ⟨s, log⟩ (.tree list.kind cs) ⟨rest, log⟩ ∧
      TypeShape.ofNodes cs = first.shape :: shapes more := by
  rw [List.append_assoc] at h
  obtain ⟨u, s, rfl, hu, -, h⟩ := h.uncons
  obtain ⟨s₁, helement, h⟩ := h.split
  obtain ⟨ds, hparses, hshape⟩ := hfirst s s₁ log helement (endsType_of_list h)
  obtain ⟨cs, hrest, hshapes⟩ := hmore list s₁ rest w [.tree .typeRef ds, .token u.token] log h
  have hkind : u.token.kind ≠ .typeRef := by
    rw [hu]
    cases list <;> decide
  refine ⟨.token u.token :: .tree .typeRef ds :: cs, ?_, ?_⟩
  · exact .take rfl (.goto (first.parses_typeItems helement hparses hrest))
  · rw [TypeShape.ofNodes_token hkind, TypeShape.ofNodes_type, hshape, hshapes]

/-- A path with arguments is parsed when each argument is. -/
theorem isParsed_generic (path : TypePath) (isArray : Bool) {arg : TypeExpr} {args : List TypeExpr}
    (harg : arg.IsParsed) (hargs : AreParsed args) :
    IsParsed (.named path (arg :: args) isArray) := by
  intro s rest log h hends
  obtain ⟨s₁, hpath, h⟩ := Spells.split h
  obtain ⟨s₂, hlist, harray⟩ := Spells.split h
  obtain ⟨u, s', rfl, hu, -, -⟩ := Spells.uncons hlist
  obtain ⟨ds, hargs, hshapes⟩ := parses_typeList .generic harg hargs log hlist
  have hdot : u.token.kind ≠ .dot := by
    rw [hu]
    decide
  obtain ⟨cs, hname, hparses⟩ := path.parses_typeRef log hpath (t := u) rfl hdot
  obtain ⟨as, hsuffix⟩ := parses_typeSuffix isArray
    [.tree .genericArgs ds, .tree .qualifiedName cs] log harray hends
  refine ⟨_, hparses (parses_ifAt.2 ⟨u, rfl, .inl ⟨hu, .call hargs hsuffix⟩⟩), ?_⟩
  refine (TypeShape.ofNode_generic isArray cs ds as).trans ?_
  rw [hname, hshapes, shape, shapes]

/-- A tuple is parsed when each of its types is. -/
theorem isParsed_tuple (isArray : Bool) {first : TypeExpr} {more : List TypeExpr}
    (hfirst : first.IsParsed) (hmore : AreParsed more) :
    IsParsed (.tuple first more isArray) := by
  intro s rest log h hends
  obtain ⟨s₁, hlist, harray⟩ := Spells.split h
  obtain ⟨u, s', rfl, hu, -, -⟩ := Spells.uncons hlist
  obtain ⟨ds, hparses, hshapes⟩ := parses_typeList .tuple hfirst hmore log hlist
  obtain ⟨as, hsuffix⟩ := parses_typeSuffix isArray [.tree .tupleType ds] log harray hends
  refine ⟨_, .look (t := u) rfl (.yes hu (.call hparses hsuffix)), ?_⟩
  refine (TypeShape.ofNode_tuple isArray ds as).trans ?_
  rw [hshapes, shape]

/-- Behind the last type the mark that closes the list is parsed. -/
theorem areParsed_nil : AreParsed [] := by
  intro list s rest w nodes log h
  obtain ⟨u, s, rfl, hu, -, h⟩ := Spells.uncons h
  rw [h.eq_of_nil]
  have hkind : u.token.kind ≠ .comma ∧ u.token.kind ≠ .typeRef := by
    rw [hu]
    exact ⟨list.mark_ne.1, list.mark_ne.2.1⟩
  refine ⟨[.token u.token], ?_, TypeShape.ofNodes_token hkind.2 []⟩
  -- The closing mark is seen once behind the last element and once where an element could begin.
  refine .look (t := u) rfl (.no hkind.1 (.yes hu (.goto ?_)))
  refine .look (t := u) rfl (.yes hu (.take rfl ?_))
  rw [← List.reverse_cons]
  exact .close

/-- One more type behind a comma is parsed in front of a list that is. -/
theorem areParsed_cons {t : TypeExpr} {ts : List TypeExpr} (ht : t.IsParsed) (hts : AreParsed ts) :
    AreParsed (t :: ts) := by
  intro list s rest w nodes log h
  rw [behindCommas, List.cons_append, List.append_assoc] at h
  obtain ⟨u, s, rfl, hu, -, h⟩ := h.uncons
  obtain ⟨s₁, helement, hmore⟩ := h.split
  obtain ⟨ds, hparses, hshape⟩ := ht s s₁ log helement (endsType_of_list hmore)
  obtain ⟨cs, hrest, hshapes⟩ :=
    hts list s₁ rest w (.tree .typeRef ds :: .token u.token :: nodes) log hmore
  have hkind : u.token.kind ≠ .typeRef := by
    rw [hu]
    decide
  refine ⟨.token u.token :: .tree .typeRef ds :: cs, ?_, ?_⟩
  · refine .look (t := u) rfl (.yes hu (.take rfl (.goto ?_)))
    exact t.parses_typeItems helement hparses (by simpa using hrest)
  · rw [TypeShape.ofNodes_token hkind, TypeShape.ofNodes_type, hshape, hshapes, shapes]

mutual

/-- Every type is parsed from its spelling. -/
theorem isParsed : (t : TypeExpr) → t.IsParsed
  | .void => isParsed_void
  | .named path [] isArray => isParsed_plain path isArray
  | .named path (arg :: args) isArray =>
    isParsed_generic path isArray arg.isParsed (areParsed args)
  | .tuple first more isArray => isParsed_tuple isArray first.isParsed (areParsed more)

theorem areParsed : (ts : List TypeExpr) → AreParsed ts
  | [] => areParsed_nil
  | t :: ts => areParsed_cons t.isParsed (areParsed ts)

end

end TypeExpr

end Lossless
