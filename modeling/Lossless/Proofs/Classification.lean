import Lossless.Proofs.Members

/-!
# Telling members apart

What the views of a member show follows from the way in which it was made. A member with parameters
is a constructor if it has no type, and then it has the name of its class, or if its name is a mark
(`member_classified`). The words in front of the type of a member are accessors and modifiers, and
its type does not begin with a word that could have been one more of them (`heading_of_member`).
-/

namespace Lossless

open Grammar Schema

/-! ## Views of the nodes behind a heading -/

namespace Heading

variable {h : Heading} {j k : Kind} {rest : List Node}

theorem kind_ne {n : Node} (hn : n ∈ h.nodes) (hj : j ∉ kinds) : n.kind ≠ j := by
  rintro rfl
  exact hj (kind_of_mem hn)

/-- A kind that headings do not have is looked for behind the heading. -/
theorem firstOfKind?_eq (hj : j ∉ kinds) :
    (Node.tree k (h.nodes ++ rest)).firstOfKind? j = rest.find? (·.kind == j) := by
  have hnone : h.nodes.find? (·.kind == j) = none := by
    rw [List.find?_eq_none]
    intro n hn
    simpa using kind_ne hn hj
  rw [Node.firstOfKind?, Node.children, List.find?_append, hnone, Option.none_or]

theorem hasKind_eq (hj : j ∉ kinds) :
    (Node.tree k (h.nodes ++ rest)).hasKind j = rest.any (·.kind == j) := by
  have hnone : h.nodes.any (·.kind == j) = false := by
    rw [List.any_eq_false]
    intro n hn
    simpa using kind_ne hn hj
  rw [Node.hasKind, Node.children, List.any_append, hnone, Bool.false_or]

theorem views_eq (hj : j ∉ kinds) :
    (Node.tree k (h.nodes ++ rest)).views j = rest.filterMap (Node.view? j) := by
  have hnone : h.nodes.filterMap (Node.view? j) = [] := by
    rw [List.filterMap_eq_nil_iff]
    intro n hn
    exact dif_neg (kind_ne hn hj)
  rw [Node.views, Node.children, List.filterMap_append, hnone, List.nil_append]

end Heading

/-! ## Constructors and methods -/

/-- The parts of a name are a mark for a constructor: a point, blanks and one of two words, as one
word. -/
def IsCtorMark (parts : List Node) : Prop :=
  ∃ (t : Token) (blanks : Trivia), parts = [.token t] ∧ t.kind = .ident ∧
    ∃ word ∈ ["ctor", "cctor"], t.text.toList = '.' :: (blanks.chars ++ word.toList)

/-- The parts of a name are words and angle brackets, none of which begins with a point. -/
def IsPlainName (parts : List Node) : Prop :=
  ∀ n ∈ parts, ∃ t, n = .token t ∧ t.IsNamePart

/-- How a member of a class with the given name is told from its parts. -/
structure Classified (name : String) (m : Member) (parts : List Node) : Prop where
  name_eq : m.node.firstOfKind? .memberName = some (.tree .memberName parts)
  ctor_iff : m.node.hasKind .methodBody = true →
    (m.shape = .ctor ↔ m.type? = none ∨ IsCtorMark parts)
  untyped : m.node.hasKind .methodBody = true → m.type? = none →
    ∃ word : Token, parts = [.token word] ∧ word.kind = .ident ∧ word.text = name
  method : m.node.hasKind .methodBody = true → m.shape ≠ .ctor →
    m.shape = .method ∧ m.type?.isSome ∧ IsPlainName parts
  typed : m.shape = .field ∨ m.shape = .property → m.type?.isSome

/-- A plain name is a single word, or has more than one terminal; the mark of a constructor is a
point and a word in one. -/
theorem not_isCtorMark_of_isPlainName {parts : List Node} (h : IsPlainName parts) :
    ¬IsCtorMark parts := by
  rintro ⟨t, blanks, rfl, -, word, -, htext⟩
  obtain ⟨u, hu, -, hpoint⟩ := h (.token t) List.mem_cons_self
  cases hu
  rw [htext] at hpoint
  exact hpoint rfl

/-- A point and a marked word that are fused are the mark of a constructor. -/
theorem isCtorMark_fuse {dot mark : Token} (hdot : dot.kind = .dot ∧ dot.text = ".")
    (hmark : mark.kind = .ident ∧ (mark.text = "ctor" ∨ mark.text = "cctor")) :
    IsCtorMark [.token (.fuse .ident [dot, mark])] := by
  refine ⟨_, dot.trailing ++ mark.leading, rfl, rfl, mark.text, ?_, ?_⟩
  · simpa using hmark.2
  · simp [Token.fuse, Token.innerChars, Token.ownChars, hdot, hmark.1]

theorem MemberShape.eq_of_kind {a b : MemberShape} (h : a.kind = b.kind) : a = b := by
  cases a <;> cases b <;> first | rfl | cases h

/-- Among the ends of members, parameters tell constructors and methods. -/
theorem MemberEnd.kind_of_body {isCtor : Bool} {kind : Kind} {rest : List Node}
    (h : MemberEnd isCtor kind rest) (hbody : rest.any (·.kind == .methodBody) = true) :
    kind = if isCtor then .ctor else .method := by
  cases h with
  | method => rfl
  | field hk => simp [Node.kind, hk] at hbody
  | initialized hk => simp [Node.kind, hk] at hbody
  | property => simp [Node.kind] at hbody

/-- What the views show of a member that has a type: its name, its type and, if it has parameters,
whether it was begun as a constructor. -/
theorem Member.views_of_typed {m : Member} {h : Heading} {k : Kind} {type : Node}
    {parts rest : List Node} {isCtor : Bool}
    (hm : m.node = .tree k (h.nodes ++ type :: .tree .memberName parts :: rest))
    (htyped : h.Typed type) (hend : MemberEnd isCtor k rest) :
    m.node.firstOfKind? .memberName = some (.tree .memberName parts) ∧ m.type?.isSome = true ∧
      (m.node.hasKind .methodBody = true → m.shape = if isCtor then .ctor else .method) := by
  obtain ⟨cs, rfl, -⟩ := htyped
  refine ⟨?_, ?_, fun hbody => ?_⟩
  · rw [hm, Heading.firstOfKind?_eq (by decide)]
    rfl
  · rw [Member.type?, hm, Heading.views_eq (by decide), List.filterMap_cons_some (dif_pos rfl)]
    rfl
  · rw [hm, Heading.hasKind_eq (by decide)] at hbody
    have hk := hend.kind_of_body (by simpa [Node.kind] using hbody)
    have hshape : k = m.shape.kind := by rw [← m.kind_eq, hm, Node.kind]
    apply MemberShape.eq_of_kind
    rw [← hshape, hk]
    cases isCtor <;> rfl

/-- What the views show of a constructor without a type. -/
theorem Member.views_of_untyped {m : Member} {h : Heading} {parts cs : List Node}
    (hm : m.node = .tree .ctor (h.nodes ++ .tree .memberName parts :: [.tree .methodBody cs])) :
    m.node.firstOfKind? .memberName = some (.tree .memberName parts) ∧ m.type? = none ∧
      m.shape = .ctor := by
  refine ⟨?_, ?_, ?_⟩
  · rw [hm, Heading.firstOfKind?_eq (by decide)]
    rfl
  · rw [Member.type?, hm, Heading.views_eq (by decide)]
    rfl
  · apply MemberShape.eq_of_kind
    rw [← m.kind_eq, hm]
    rfl

/-- The way in which a member was made tells what it is. -/
theorem MemberForm.classified {name : String} {m : Member} (h : MemberForm name m.node) :
    ∃ parts, parts ≠ [] ∧ Classified name m parts := by
  generalize hm : m.node = node at h
  -- The three forms are a mark behind a type, a word without a type, and a name behind a type.
  cases h with
  | marked typed point word ends =>
    obtain ⟨hname, htype, hshape⟩ := Member.views_of_typed hm typed ends
    have hnone : m.type? ≠ none := Option.isSome_iff_ne_none.1 htype
    exact ⟨_, List.cons_ne_nil _ _, hname,
      fun hbody => iff_of_true (hshape hbody) (.inr (isCtorMark_fuse point word)),
      fun _ hno => absurd hno hnone, fun hbody hne => absurd (hshape hbody) hne, fun _ => htype⟩
  | @untyped _ word _ kind text =>
    obtain ⟨hname, htype, hshape⟩ := Member.views_of_untyped hm
    refine ⟨_, List.cons_ne_nil _ _, hname, fun _ => iff_of_true hshape (.inl htype),
      fun _ _ => ⟨word, rfl, kind, text⟩, fun _ hne => absurd hshape hne, ?_⟩
    rintro (hfield | hproperty)
    · exact nomatch hshape.symm.trans hfield
    · exact nomatch hshape.symm.trans hproperty
  | @plain _ _ part parts _ _ typed names ends =>
    obtain ⟨hname, htype, hshape⟩ := Member.views_of_typed hm typed ends
    have hnone : m.type? ≠ none := Option.isSome_iff_ne_none.1 htype
    have hplain : IsPlainName ((part :: parts).map .token) := by
      intro n hn
      obtain ⟨p, hp, rfl⟩ := List.mem_map.1 hn
      exact ⟨p, rfl, names p hp⟩
    refine ⟨_, by simp, hname, fun hbody => ?_, fun _ hno => absurd hno hnone,
      fun hbody _ => ⟨hshape hbody, htype, hplain⟩, fun _ => htype⟩
    -- A plain name is no mark, so a member with a body is a method here.
    have hmethod : m.shape ≠ .ctor := by
      rw [hshape hbody]
      nofun
    refine iff_of_false hmethod ?_
    rintro (hno | hmark)
    · exact hnone hno
    · exact not_isCtorMark_of_isPlainName hplain hmark

/-- In every tree that comes out of a text, the members of every class are told from their parts: a
member with parameters is a constructor exactly if it has no type, and then its name is the single
word that is the name of the class, or if its name is a mark; any other is a method with a type and
a plain name. Fields and properties have types. -/
theorem member_classified {text : String} {tree : Node} (parsed : ParsedFrom text tree)
    (c : ClassView) (shown : c.node ∈ tree.descendants) :
    ∃ name, c.name? = some name ∧
      ∀ m ∈ c.members, ∃ parts, parts ≠ [] ∧ Classified name m parts := by
  obtain ⟨name, hname, hmembers⟩ := parsed.memberForm shown
  exact ⟨name, hname, fun m hm => (hmembers m hm).classified⟩

/-- A class with members of all kinds, and a class in it with another name. -/
def assortedMembers : String :=
  "class A \x7b A(); public A m(); void . ctor(); static A.cctor() \x7b\x7d A f; A p \x7b\x7d " ++
    "class B \x7b B(); A A(); \x7d \x7d"

/-- Members of all four shapes in one class, with three ways to write a constructor. -/
theorem assortedMembers_classified :
    ∃ tree, parseUnit assortedMembers = .ok tree ∧
      ∃ c : ClassView, c.node ∈ tree.descendants ∧
        c.members.map Member.shape = [.ctor, .method, .ctor, .ctor, .field, .property] ∧
        ∃ name, c.name? = some name ∧
          ∀ m ∈ c.members, ∃ parts, parts ≠ [] ∧ Classified name m parts := by
  have hparsed : ∃ tree ∈ (parseUnit assortedMembers).toOption, ∃ n ∈ tree.descendants,
      ∃ hn : n.kind = .classDecl, (ClassView.members ⟨n, hn⟩).map Member.shape =
        [.ctor, .method, .ctor, .ctor, .field, .property] := by
    decide +kernel
  obtain ⟨tree, htree, n, hn, hkind, hshapes⟩ := hparsed
  have hok := eq_ok_of_mem_toOption htree
  exact ⟨tree, hok, ⟨n, hkind⟩, hn, hshapes, member_classified (.inl hok) ⟨n, hkind⟩ hn⟩

/-! ## Headings -/

/-- Behind a heading no word is tagged as one of its own, and a type begins with a word at which the
heading ends. -/
structure BehindHeading (h : Heading) (rest : List Node) : Prop where
  untagged : ∀ n ∈ rest, n.kind ∉ Heading.kinds
  typed : ∀ n ∈ rest, n.kind = .typeRef → h.Typed n

namespace BehindHeading

variable {h : Heading} {rest : List Node}

/-- Behind a heading with a type the type follows. -/
theorem cons_type {type : Node} (htyped : h.Typed type) (hrest : BehindHeading h rest) :
    BehindHeading h (type :: rest) := by
  refine ⟨List.forall_mem_cons.2 ⟨?_, hrest.untagged⟩,
    List.forall_mem_cons.2 ⟨fun _ => htyped, hrest.typed⟩⟩
  obtain ⟨cs, rfl, -⟩ := htyped
  rw [Node.kind]
  decide

/-- A name behind a heading is neither a type nor a modifier. -/
theorem cons_name (parts : List Node) (hrest : BehindHeading h rest) :
    BehindHeading h (.tree .memberName parts :: rest) := by
  refine ⟨List.forall_mem_cons.2 ⟨?_, hrest.untagged⟩,
    List.forall_mem_cons.2 ⟨nofun, hrest.typed⟩⟩
  rw [Node.kind]
  decide

/-- The ends of members have neither types nor words of a heading. -/
theorem of_end {isCtor : Bool} {kind : Kind} (hend : MemberEnd isCtor kind rest) :
    BehindHeading h rest := by
  have hkinds : ∀ n ∈ rest,
      n.kind ∈ [Kind.semicolon, .fieldInitializer, .propertyBody, .methodBody] := by
    cases hend with
    | field hk => simp [Node.kind, hk]
    | initialized hk => simp [Node.kind, hk]
    | property => simp [Node.kind]
    | method => simp [Node.kind]
  have hother : ∀ k ∈ [Kind.semicolon, .fieldInitializer, .propertyBody, .methodBody],
      k ∉ Heading.kinds ∧ k ≠ .typeRef := by
    decide
  exact ⟨fun n hn => (hother _ (hkinds n hn)).1,
    fun n hn htype => absurd htype (hother _ (hkinds n hn)).2⟩

end BehindHeading

/-- A member begins with a heading, whichever way it was made. -/
theorem MemberForm.exists_heading {name : String} {n : Node} (h : MemberForm name n) :
    ∃ heading rest, n.children = heading.nodes ++ rest ∧ BehindHeading heading rest := by
  cases h with
  | marked typed _ _ ends => exact ⟨_, _, rfl, .cons_type typed (.cons_name _ (.of_end ends))⟩
  | untyped _ _ =>
    exact ⟨_, _, rfl, .cons_name _ (.of_end (MemberEnd.method : MemberEnd true .ctor _))⟩
  | plain typed _ ends => exact ⟨_, _, rfl, .cons_type typed (.cons_name _ (.of_end ends))⟩

/-- Every member in a tree that comes out of a text begins with accessors, tagged as such, and then
modifiers, tagged with their kinds; no other child has such a tag. The name in its type begins with
a word that is no modifier and, unless there are modifiers in front of it, no accessor. -/
theorem heading_of_member {text : String} {tree n : Node} (parsed : ParsedFrom text tree)
    (shown : n ∈ tree.descendants) (member : n.kind ∈ memberKinds) :
    ∃ (heading : Heading) (rest : List Node), n.children = heading.nodes ++ rest ∧
      (∀ c ∈ rest, c.kind ∉ Heading.kinds) ∧
      ∀ type ∈ n.children, type.kind = .typeRef → ∀ q ∈ type.children, q.kind = .qualifiedName →
        ∃ word more, q.children = .token word :: more ∧ word.kind = .ident ∧
          memberModifier? word.text = none ∧
          (heading.modifiers = [] → isAccessor word.text = false) := by
  obtain ⟨name, hform⟩ := parsed.exists_memberForm shown (List.contains_iff_mem.2 member)
  obtain ⟨heading, rest, hchildren, hbehind⟩ := hform.exists_heading
  refine ⟨heading, rest, hchildren, hbehind.untagged, fun type htype hkind q hq hname => ?_⟩
  rw [hchildren] at htype
  rcases List.mem_append.1 htype with htype | htype
  · exact absurd hkind (Heading.kind_ne htype (by decide))
  · obtain ⟨cs, rfl, hparts⟩ := hbehind.typed type htype hkind
    obtain ⟨word, more, rfl, hword, hends⟩ := hparts q hq hname
    exact ⟨word, more, rfl, hword, hends⟩

/-- A field with an accessor, a modifier and a type of two words. The first word of the type is no
modifier, which the heading makes sure of. -/
theorem heading_of_tagged :
    ∃ tree n, parseUnit "class A \x7b public static B.C x; \x7d" = .ok tree ∧ n ∈ tree.descendants ∧
      n.children.map Node.kind = [.accessor, .staticMod, .typeRef, .memberName, .semicolon] ∧
      ∃ (heading : Heading) (rest : List Node), n.children = heading.nodes ++ rest ∧
        (∀ c ∈ rest, c.kind ∉ Heading.kinds) ∧
        ∀ type ∈ n.children, type.kind = .typeRef → ∀ q ∈ type.children, q.kind = .qualifiedName →
          ∃ word more, q.children = .token word :: more ∧ word.kind = .ident ∧
            memberModifier? word.text = none ∧
            (heading.modifiers = [] → isAccessor word.text = false) := by
  have hparsed : ∃ tree ∈ (parseUnit "class A \x7b public static B.C x; \x7d").toOption,
      ∃ n ∈ tree.descendants, n.kind ∈ memberKinds ∧
        n.children.map Node.kind = [.accessor, .staticMod, .typeRef, .memberName, .semicolon] := by
    decide +kernel
  obtain ⟨tree, htree, n, hn, hmember, hkinds⟩ := hparsed
  have hok := eq_ok_of_mem_toOption htree
  exact ⟨tree, n, hok, hn, hkinds, heading_of_member (.inl hok) hn hmember⟩

/-- The words of the name in the type of a member. -/
def Node.typeWords (n : Node) : List String :=
  ((n.allOfKind .typeRef).flatMap (·.allOfKind .qualifiedName)).flatMap fun q =>
    (q.allOfKind .ident).filterMap Node.text?

/-- Behind a point a type can hold the word of a modifier, and behind a modifier it can begin with
the word of an accessor. -/
theorem not_typeWords_unreserved :
    (∃ tree ∈ (parseUnit "class A \x7b B.static x; \x7d").toOption, ∃ n ∈ tree.descendants,
      n.kind ∈ memberKinds ∧ ∃ word ∈ n.typeWords, (memberModifier? word).isSome = true) ∧
      ∃ tree ∈ (parseUnit "class A \x7b static public int x; \x7d").toOption,
        ∃ n ∈ tree.descendants, n.kind ∈ memberKinds ∧
          ∃ word ∈ n.typeWords, isAccessor word = true := by
  decide +kernel

end Lossless
