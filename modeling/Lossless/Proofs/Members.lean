import Lossless.Proofs.Contracts
import Lossless.Proofs.Counting
import Lossless.Proofs.Layout
import Lossless.Proofs.TypeExpressions

/-!
# How members are made

There are three ways to a member, told apart before its type is parsed: a type and a mark for a
constructor, the name of the class in front of a parenthesis, and a type with any other name. In
front of all three stand accessors and then modifiers. `MemberForm` says what comes out of each. A
contract carries it from the rules for members to the blocks and from there to the classes, whose
names the rules are told.
-/

namespace Lossless

open Grammar Schema

/-! ## Terminals -/

namespace Lexeme

/-- A lexeme that begins with a point is a point. -/
theorem scan_point {cs : List Char} {kind : Kind} {value : Option Number}
    (h : evaluate (scan '.' cs).shape (scan '.' cs).taken = .ok (kind, value)) : kind = .dot := by
  have hscan : scan '.' cs = ⟨.plain .dot, ['.'], cs⟩ := by
    have hpair : cs.head?.bind (pair? '.') = none := by
      cases cs <;> rfl
    simp only [scan, startsNumber, cutOther, hpair]
    rfl
  rw [hscan] at h
  cases h
  rfl

end Lexeme

/-- No lexeme but a point begins with one. -/
theorem Reads.kind_of_point {p : Nat} {cs r : List Char} {xs : List Lexeme} (h : Reads p cs xs r) :
    ∀ x ∈ xs, x.text.head? = some '.' → x.kind = .dot := by
  induction h with
  | nil => simp
  | @cons p c cs r kind value xs read _ ih =>
    intro x hx hpoint
    rcases List.mem_cons.1 hx with rfl | hx
    · rw [Lexeme.scan_taken_eq] at hpoint
      cases hpoint
      exact Lexeme.scan_point read
    · exact ih x hx hpoint

/-- What a decision on names relies on: points are spelled as such, and no part of a name begins
with one. -/
def Terminal.Pointed (t : Terminal) : Prop :=
  (t.token.kind = .dot → t.token.text = ".") ∧
    (nameParts.contains t.token.kind = true → t.token.text.toList.head? ≠ some '.')

theorem Stream.ahead_tail (s : Stream) (i : Nat) : s.tail.ahead i = s.ahead (i + 1) := by
  rw [tail_eq_drop, ahead_drop, Nat.add_comm]

/-- A terminal of a text keeps the spelling that its kind has: the lexer gives the kind of a point
to nothing else. -/
theorem Stream.pointed {p : Nat} {cs : List Char} {i : Nat} {t : Terminal}
    (h : (ofLexer (.fresh p cs)).ahead i = .ok t) : t.Pointed := by
  refine ⟨text_dot h, fun hpart hpoint => ?_⟩
  rw [nameParts_contains] at hpart
  -- A part of a name is neither the end nor a string, and no other lexeme but a point is spelled as
  -- one.
  have hend : t.token.kind ≠ .endOfInput := by
    intro hk
    rw [hk] at hpart
    cases hpart
  obtain ⟨us, m, r, -, -, hy⟩ := yields_of_ahead h hend
  rcases hy with ⟨reads, -, -, -, -⟩
  rename_i before after x
  have hstring : x.kind ≠ .stringLit := by
    intro hk
    rw [show (Terminal.ofLexeme x _ _).token.kind = x.kind from rfl, hk] at hpart
    cases hpart
  have hdot : x.kind = .dot := by
    refine reads.kind_of_point x (List.mem_append_right _ List.mem_cons_self) ?_
    simpa [Terminal.ofLexeme, Lexeme.ownText, hstring] using hpoint
  rw [show (Terminal.ofLexeme x _ _).token.kind = x.kind from rfl, hdot] at hpart
  cases hpart

/-! ## Headings -/

/-- The accessors of a member and then its modifiers, each under the kind that belongs to it. -/
structure Heading where
  accessors : List Token
  modifiers : List Token
  accessors_ok : ∀ t ∈ accessors, t.kind = .accessor ∧ isAccessor t.text = true
  modifiers_ok : ∀ t ∈ modifiers, memberModifier? t.text = some t.kind

namespace Heading

def nodes (h : Heading) : List Node := (h.accessors ++ h.modifiers).map .token

/-- The heading ends in front of this word: it is no modifier and, unless there have been modifiers,
no accessor. -/
def EndsAt (h : Heading) (word : String) : Prop :=
  memberModifier? word = none ∧ (h.modifiers = [] → isAccessor word = false)

/-- The heading has no further accessor in front of this stream. -/
def Settled (h : Heading) (s : Stream) : Prop :=
  h.modifiers = [] →
    ∀ t, s.ahead 0 = .ok t → t.token.kind = .ident → isAccessor t.token.text = false

def empty : Heading := ⟨[], [], by simp, by simp⟩

/-- One more accessor, in front of the modifiers. -/
def access (h : Heading) (t : Token) (ht : isAccessor t.text = true) : Heading where
  accessors := h.accessors ++ [{ t with kind := .accessor }]
  modifiers := h.modifiers
  accessors_ok := by
    intro u hu
    rcases List.mem_append.1 hu with hu | hu
    · exact h.accessors_ok u hu
    · cases List.mem_singleton.1 hu
      exact ⟨rfl, ht⟩
  modifiers_ok := h.modifiers_ok

/-- One more modifier. -/
def modify (h : Heading) (t : Token) {tag : Kind} (ht : memberModifier? t.text = some tag) :
    Heading where
  accessors := h.accessors
  modifiers := h.modifiers ++ [{ t with kind := tag }]
  accessors_ok := h.accessors_ok
  modifiers_ok := by
    intro u hu
    rcases List.mem_append.1 hu with hu | hu
    · exact h.modifiers_ok u hu
    · cases List.mem_singleton.1 hu
      exact ht

/-- An accessor goes to the end of the heading as long as there is no modifier. -/
theorem nodes_access {h : Heading} {t : Token} (ht : isAccessor t.text = true)
    (hm : h.modifiers = []) :
    (h.access t ht).nodes = h.nodes ++ [.token { t with kind := .accessor }] := by
  simp [nodes, access, hm]

theorem nodes_modify {h : Heading} {t : Token} {tag : Kind}
    (ht : memberModifier? t.text = some tag) :
    (h.modify t ht).nodes = h.nodes ++ [.token { t with kind := tag }] := by
  simp [nodes, modify]

/-- The kinds of the words of a heading. -/
def kinds : List Kind := .accessor :: modifierWords.map Prod.snd

/-- A heading has words of its own kinds and nothing else. -/
theorem kind_of_mem {h : Heading} {n : Node} (hn : n ∈ h.nodes) : n.kind ∈ kinds := by
  obtain ⟨t, ht, rfl⟩ := List.mem_map.1 hn
  rcases List.mem_append.1 ht with ht | ht
  · rw [show (Node.token t).kind = t.kind from rfl, (h.accessors_ok t ht).1]
    exact List.mem_cons_self
  · exact List.mem_cons_of_mem _ (memberModifier?_mem (h.modifiers_ok t ht))

end Heading

/-! ## Members -/

/-- A type, whose name begins with a word at which the heading ends. -/
def Heading.Typed (h : Heading) (type : Node) : Prop :=
  ∃ cs, type = .tree .typeRef cs ∧ ∀ q ∈ cs, q.kind = .qualifiedName →
    ∃ word more, q = .tree .qualifiedName (.token word :: more) ∧ word.kind = .ident ∧
      h.EndsAt word.text

/-- A part of a name that is no mark for a constructor. -/
def Token.IsNamePart (t : Token) : Prop :=
  t.kind ∈ [Kind.ident, .less, .greater] ∧ t.text.toList.head? ≠ some '.'

/-- What follows the name of a member, by the kind of the member. -/
inductive MemberEnd (isCtor : Bool) : Kind → List Node → Prop where
  | field {mark : Token} (kind : mark.kind = .semicolon) : MemberEnd isCtor .field [.token mark]
  | initialized {cs : List Node} {mark : Token} (kind : mark.kind = .semicolon) :
      MemberEnd isCtor .field [.tree .fieldInitializer cs, .token mark]
  | property {cs : List Node} : MemberEnd isCtor .property [.tree .propertyBody cs]
  | method {cs : List Node} :
      MemberEnd isCtor (if isCtor then .ctor else .method) [.tree .methodBody cs]

/-- The three ways to a member of a class with the given name. -/
inductive MemberForm (name : String) : Node → Prop where
  /-- A type and a mark for a constructor. -/
  | marked {h : Heading} {type : Node} {dot mark : Token} {kind : Kind} {rest : List Node}
      (typed : h.Typed type) (point : dot.kind = .dot ∧ dot.text = ".")
      (word : mark.kind = .ident ∧ (mark.text = "ctor" ∨ mark.text = "cctor"))
      (ends : MemberEnd true kind rest) :
      MemberForm name (.tree kind
        (h.nodes ++ type :: .tree .memberName [.token (.fuse .ident [dot, mark])] :: rest))
  /-- The name of the class in front of a parenthesis. -/
  | untyped {h : Heading} {word : Token} {cs : List Node} (kind : word.kind = .ident)
      (text : word.text = name) :
      MemberForm name (.tree .ctor
        (h.nodes ++ .tree .memberName [.token word] :: [.tree .methodBody cs]))
  /-- A type and a name. -/
  | plain {h : Heading} {type : Node} {part : Token} {parts : List Token} {kind : Kind}
      {rest : List Node} (typed : h.Typed type) (names : ∀ p ∈ part :: parts, p.IsNamePart)
      (ends : MemberEnd false kind rest) :
      MemberForm name (.tree kind
        (h.nodes ++ type :: .tree .memberName ((part :: parts).map .token) :: rest))

/-! ## Classes -/

/-- The second word of some nodes, which is the name in the statement of a class. -/
def secondWord? (ss : List Node) : Option String :=
  ((ss.filter (·.kind == .ident))[1]?).bind Node.text?

/-- The members among the items of a block are members of a class with this name. -/
def MembersOf (name : String) (items : List Node) : Prop :=
  ∀ n ∈ items, n.isMember = true → MemberForm name n

/-- The parts of a class: its statement, perhaps a comment, and its block. -/
def ClassForm (cs : List Node) : Prop :=
  ∃ name ss comments items,
    cs = .tree .classStatement ss :: (comments ++ [.tree .classBlock items]) ∧
      (∀ c ∈ comments, c.kind = .comment) ∧ secondWord? ss = some name ∧ MembersOf name items

/-! ## The contract -/

namespace Grammar

/-- A name begins with the next terminal. -/
def NameFrom (s : Stream) (node : Node) : Prop :=
  ∃ t more, s.ahead 0 = .ok t ∧ t.token.kind = .ident ∧
    node = .tree .qualifiedName (.token t.token :: more)

/-- The next terminal alone is a name. -/
def PlainNameFrom (s : Stream) (node : Node) (s' : Stream) : Prop :=
  ∃ t, s.ahead 0 = .ok t ∧ node = .tree .qualifiedName [.token t.token] ∧ s' = s.tail

/-- A name among the parts of a type begins with the next terminal. -/
def TypeParts (s : Stream) (nodes : List Node) : Prop :=
  ∀ n ∈ nodes, n.kind = .qualifiedName → NameFrom s n

def TypeFrom (s : Stream) (node : Node) : Prop := ∃ cs, node = .tree .typeRef cs ∧ TypeParts s cs

/-- A name is made of parts. In front of a parenthesis it has no further ones. -/
def PartsFrom (parts : List Token) (s : Stream) (node : Node) (s' : Stream) : Prop :=
  ∃ more, node = .tree .memberName ((parts ++ more).map .token) ∧
    (∀ p ∈ parts ++ more, p.IsNamePart) ∧ (s.next? = some .leftParen → more = [] ∧ s' = s)

/-- A point and the word behind it are made one. -/
def MarkFrom (s : Stream) (node : Node) : Prop :=
  ∃ dot mark, s.ahead 0 = .ok dot ∧ dot.token.kind = .dot ∧ s.ahead 1 = .ok mark ∧
    mark.token.kind = .ident ∧ node = .token (.fuse .ident [dot.token, mark.token])

/-- What the rules inside a class are entered with and what they make. -/
@[simp] def membership : Contract where
  sees := Terminal.Pointed
  enter
    | .qualifiedName, nodes, _ | .plainName, nodes, _ | .typeRef, nodes, _ | .plainType, nodes, _
    | .memberName, nodes, _ | .ctorMark, nodes, _ | .ctorName, nodes, _ => nodes = []
    | .classDecl, nodes, _ => ∀ n ∈ nodes, n.kind ≠ .ident
    | .classTail name, nodes, _ => secondWord? nodes.reverse = some name
    | .classBlock _, nodes, s => nodes = [] ∧ s.next? = some .leftBrace
    | .classItems name, nodes, _ => MembersOf name nodes
    | .member _, nodes, _ => ∃ h : Heading, h.modifiers = [] ∧ nodes.reverse = h.nodes
    | .memberModifiers _, nodes, s => ∃ h : Heading, h.Settled s ∧ nodes.reverse = h.nodes
    | .memberNameTail, nodes, _ =>
      ∃ parts : List Token, nodes.reverse = parts.map .token ∧ ∀ p ∈ parts, p.IsNamePart
    | _, _, _ => True
  make
    | .qualifiedName, _, s, node, _ => NameFrom s node
    | .qualifiedTail, nodes, _, node, _ =>
      ∃ more, node = .tree .qualifiedName (nodes.reverse ++ more)
    | .plainName, _, s, node, s' => PlainNameFrom s node s'
    | .typeRef, _, s, node, _ => TypeFrom s node
    | .plainType, _, s, node, s' => TypeFrom s node ∧ s' = s.tail
    | .memberName, _, s, node, s' => ∃ t, s.ahead 0 = .ok t ∧ PartsFrom [t.token] s.tail node s'
    | .memberNameTail, nodes, s, node, s' =>
      ∀ parts : List Token, nodes.reverse = parts.map .token → PartsFrom parts s node s'
    | .ctorMark, _, s, node, _ => MarkFrom s node
    | .ctorName, _, s, node, _ => ∃ mark, MarkFrom s mark ∧ node = .tree .memberName [mark]
    | .memberTail isCtor, nodes, s, node, _ =>
      ∃ kind rest, node = .tree kind (nodes.reverse ++ rest) ∧ MemberEnd isCtor kind rest ∧
        (s.next? = some .leftParen → ∃ cs, rest = [.tree .methodBody cs])
    | .member name, _, _, node, _ | .memberModifiers name, _, _, node, _ => MemberForm name node
    | .classItems name, _, _, node, _ | .classBlock name, _, _, node, _ =>
      ∃ items, node = .tree .classBlock items ∧ MembersOf name items
    | _, _, _, _, _ => True
  node
    | .classDecl, cs => ClassForm cs
    | _, _ => True

/-! ### Names and types -/

section Rules

variable {nodes : List Node} {s : Stream}

/-- A name begins with the terminal that is looked at. -/
theorem holds_qualifiedName :
    membership.Holds (membership.make .qualifiedName [] s) Rule.qualifiedName.body [] s := by
  intro t ht _
  refine Contract.holds_ite.2 ⟨fun hk => ?_, fun _ => trivial⟩
  refine Contract.Holds.bump ht ⟨trivial, ?_⟩
  rintro node s' ⟨more, rfl⟩
  exact ⟨t, more, ht, hk, rfl⟩

/-- More parts of a name leave its first word where it is. -/
theorem holds_qualifiedTail :
    membership.Holds (membership.make .qualifiedTail nodes s) Rule.qualifiedTail.body nodes s := by
  have hclose : membership.Holds (membership.make .qualifiedTail nodes s) (.close .qualifiedName)
      nodes s := ⟨trivial, [], by simp⟩
  intro t ht _
  refine Contract.holds_ite.2 ⟨fun _ u _ _ => ?_, fun _ => hclose⟩
  refine Contract.holds_ite.2 ⟨fun _ => ?_, fun _ => hclose⟩
  refine Contract.Holds.bump ht fun v _ _ => ⟨trivial, ?_⟩
  rintro node s' ⟨more, rfl⟩
  exact ⟨.token t.token :: .token v.token :: more, by simp⟩

theorem holds_plainName :
    membership.Holds (membership.make .plainName [] s) Rule.plainName.body [] s := by
  intro t ht _
  exact ⟨trivial, t, ht, rfl, rfl⟩

/-- What is no name may stand among the parts of a type. -/
theorem TypeParts.cons {n : Node} (h : TypeParts s nodes) (hn : n.kind ≠ .qualifiedName) :
    TypeParts s (n :: nodes) :=
  List.forall_mem_cons.2 ⟨fun hk => absurd hk hn, h⟩

theorem TypeParts.single {n : Node} (h : NameFrom s n) : TypeParts s [n] :=
  List.forall_mem_singleton.2 fun _ => h

theorem typeFrom_of_parts (h : TypeParts s nodes) : TypeFrom s (.tree .typeRef nodes.reverse) :=
  ⟨nodes.reverse, rfl, fun n hn => h n (List.mem_reverse.1 hn)⟩

/-- The mark of an array changes nothing in the name of a type. -/
theorem holds_typeSuffix {s' : Stream} (h : TypeParts s nodes) :
    membership.Holds (membership.make .typeRef [] s) typeSuffix nodes s' := by
  intro t _ _
  refine Contract.holds_ite.2 ⟨fun _ u _ _ => ?_, fun _ => ⟨trivial, typeFrom_of_parts h⟩⟩
  refine Contract.holds_ite.2 ⟨fun _ => ⟨trivial, fun inner s₁ hinner _ => ?_⟩, fun _ => trivial⟩
  obtain ⟨cs, rfl⟩ := Node.eq_tree_of_symbol (List.singleton_inj.1 hinner)
  exact ⟨trivial, typeFrom_of_parts (h.cons nofun)⟩

/-- A type has at most one name among its parts, and it begins where the type begins. -/
theorem holds_typeRef :
    membership.Holds (membership.make .typeRef [] s) Rule.typeRef.body [] s := by
  intro t ht _
  refine Contract.holds_ite.2 ⟨fun _ => ?_, fun _ => Contract.holds_ite.2 ⟨fun hvoid => ?_,
    fun _ => ?_⟩⟩
  · -- A tuple has types inside, but no name of its own.
    refine ⟨trivial, fun inner s' hinner _ => ?_⟩
    obtain ⟨cs, rfl⟩ := Node.eq_tree_of_symbol (List.singleton_inj.1 hinner)
    exact holds_typeSuffix (TypeParts.cons (by simp [TypeParts]) nofun)
  · -- The word `void` is the name.
    refine ⟨rfl, ?_⟩
    rintro inner s' - ⟨u, hu, rfl, rfl⟩
    cases hu.symm.trans ht
    have hname : NameFrom s (.tree .qualifiedName [.token t.token]) :=
      ⟨t, [], ht, (Glimpse.is_iff.1 hvoid).1, rfl⟩
    exact ⟨trivial, typeFrom_of_parts (TypeParts.single hname)⟩
  · -- A name is kept, and its arguments bring no second one.
    refine ⟨rfl, fun name s' _ hname u _ _ => ?_⟩
    have hparts := TypeParts.single hname
    refine Contract.holds_ite.2 ⟨fun _ => ?_, fun _ => holds_typeSuffix hparts⟩
    refine ⟨trivial, fun inner s₁ hinner _ => ?_⟩
    obtain ⟨cs, rfl⟩ := Node.eq_tree_of_symbol (List.singleton_inj.1 hinner)
    exact holds_typeSuffix (hparts.cons nofun)

theorem holds_plainType :
    membership.Holds (membership.make .plainType [] s) Rule.plainType.body [] s := by
  intro t ht _
  refine Contract.holds_ite.2 ⟨fun hk => ⟨rfl, ?_⟩, fun _ => trivial⟩
  rintro inner s' - ⟨u, hu, rfl, rfl⟩
  cases hu.symm.trans ht
  have hname : NameFrom s (.tree .qualifiedName [.token t.token]) := ⟨t, [], ht, hk, rfl⟩
  exact ⟨trivial, typeFrom_of_parts (TypeParts.single hname), rfl⟩

/-! ### Names of members -/

/-- A terminal that can be part of a name. -/
theorem isNamePart_of_seen {t : Terminal} (h : t.Pointed)
    (hk : nameParts.contains t.token.kind = true) : t.token.IsNamePart := by
  refine ⟨?_, h.2 hk⟩
  rw [nameParts_contains] at hk
  exact List.contains_iff_mem.1 hk

/-- Only words and angle brackets are taken into a name, none of which begins with a point. -/
theorem holds_memberNameTail {parts : List Token} (hnodes : nodes.reverse = parts.map .token)
    (hparts : ∀ p ∈ parts, p.IsNamePart) :
    membership.Holds (membership.make .memberNameTail nodes s) Rule.memberNameTail.body
      nodes s := by
  intro t ht hseen
  refine Contract.holds_ite.2 ⟨fun hk => ?_, fun hk => ?_⟩
  · have hpart : t.token.IsNamePart := isNamePart_of_seen hseen hk
    -- A part of a name is no parenthesis, so the name does not end in front of it.
    have hnext : s.next? ≠ some .leftParen := by
      intro hparen
      rw [show (Glimpse.ofTerminal t).kind = _ from Stream.kind_of_next? ht hparen,
        nameParts_contains] at hk
      cases hk
    refine Contract.Holds.bump ht ⟨⟨parts ++ [t.token], by simp [hnodes], ?_⟩, ?_⟩
    · simpa [or_imp, forall_and] using ⟨hparts, hpart⟩
    · intro node s' hmake parts' hnodes'
      obtain ⟨more, rfl, hall, -⟩ := hmake (parts' ++ [t.token]) (by simp [hnodes'])
      refine ⟨t.token :: more, by simp, ?_, fun h => absurd h hnext⟩
      simpa using hall
  · refine ⟨trivial, fun parts' hnodes' => ⟨[], ?_, ?_, fun _ => ⟨rfl, rfl⟩⟩⟩
    · rw [List.append_nil, hnodes']
    · -- Tokens are known by their nodes, so the parts are those that were collected.
      have heq : parts' = parts := by
        have hmap := hnodes'.symm.trans hnodes
        exact List.map_injective_iff.2 (fun a b h => Node.token.inj h) hmap
      rw [List.append_nil, heq]
      exact hparts

theorem holds_memberName :
    membership.Holds (membership.make .memberName [] s) Rule.memberName.body [] s := by
  intro t ht hseen
  refine Contract.holds_ite.2 ⟨fun hk => ?_, fun _ => trivial⟩
  have hpart : t.token.IsNamePart := isNamePart_of_seen hseen hk
  refine Contract.Holds.bump ht ⟨⟨[t.token], rfl, by simpa using hpart⟩, fun node s' hmake => ?_⟩
  exact ⟨t, ht, hmake [t.token] rfl⟩

/-- The mark of a constructor is a point and a word. -/
theorem holds_ctorMark :
    membership.Holds (membership.make .ctorMark [] s) Rule.ctorMark.body [] s := by
  intro t ht _
  refine Contract.holds_ite.2 ⟨fun hdot => ?_, fun _ => trivial⟩
  refine Contract.Holds.bump ht fun u hu _ => ?_
  refine Contract.holds_ite.2 ⟨fun hident => Contract.Holds.bump hu ?_, fun _ => trivial⟩
  rw [Stream.ahead_tail] at hu
  exact ⟨t, u, ht, hdot, hu, hident, joined_flat (by simp) (by simp [Node.isToken, Node.token?])⟩

theorem holds_ctorName :
    membership.Holds (membership.make .ctorName [] s) Rule.ctorName.body [] s :=
  ⟨rfl, fun inner _ _ hinner => ⟨trivial, inner, hinner, rfl⟩⟩

/-! ### Members -/

/-- What follows the name decides the kind of the member. -/
theorem holds_memberTail (isCtor : Bool) :
    membership.Holds (membership.make (.memberTail isCtor) nodes s) (Rule.memberTail isCtor).body
      nodes s := by
  -- A field or a property is not made in front of a parenthesis.
  have hother : ∀ {t : Terminal} {k : Kind} {rest : List Node}, s.ahead 0 = .ok t →
      t.token.kind = k → k ≠ .leftParen →
      s.next? = some .leftParen → ∃ cs, rest = [.tree .methodBody cs] := by
    intro t k rest ht hk hne hnext
    exact absurd (hk.symm.trans (Stream.kind_of_next? ht hnext)) hne
  simp only [Rule.body, memberTail_eq]
  intro t ht _
  refine Contract.holds_ite.2 ⟨fun hk => ?_, fun _ => Contract.holds_ite.2 ⟨fun hk => ?_,
    fun _ => Contract.holds_ite.2 ⟨fun hk => ?_, fun _ => Contract.holds_ite.2 ⟨fun hk => ?_,
    fun _ => trivial⟩⟩⟩⟩
  · refine Contract.Holds.bump ht ⟨trivial, .field, [.token t.token], by simp, .field hk, ?_⟩
    exact hother ht hk nofun
  · refine ⟨trivial, fun inner s' hinner _ u hu _ => ?_⟩
    obtain ⟨cs, rfl⟩ := Node.eq_tree_of_symbol (List.singleton_inj.1 hinner)
    refine Contract.holds_ite.2 ⟨fun hu' => Contract.Holds.bump hu ?_, fun _ => trivial⟩
    exact ⟨trivial, .field, [.tree .fieldInitializer cs, .token u.token], by simp,
      .initialized hu', hother ht hk nofun⟩
  · refine ⟨trivial, fun inner s' hinner _ => ?_⟩
    obtain ⟨cs, rfl⟩ := Node.eq_tree_of_symbol (List.singleton_inj.1 hinner)
    exact ⟨trivial, .property, [.tree .propertyBody cs], by simp [Verbatim.kind], .property,
      hother ht hk nofun⟩
  · refine ⟨trivial, fun inner s' hinner _ => ?_⟩
    obtain ⟨cs, rfl⟩ := Node.eq_tree_of_symbol (List.singleton_inj.1 hinner)
    exact ⟨by cases isCtor <;> trivial, _, [.tree .methodBody cs], by simp, .method,
      fun _ => ⟨cs, rfl⟩⟩

/-- What a type is named by is the word at which the heading ends. -/
theorem Heading.typed_of_typeFrom {h : Heading} {t : Terminal} {type : Node}
    (ht : s.ahead 0 = .ok t) (hends : t.token.kind = .ident → h.EndsAt t.token.text)
    (htype : TypeFrom s type) : h.Typed type := by
  obtain ⟨cs, rfl, hparts⟩ := htype
  refine ⟨cs, rfl, fun q hq hkind => ?_⟩
  obtain ⟨u, more, hu, hk, rfl⟩ := hparts q hq hkind
  cases hu.symm.trans ht
  exact ⟨t.token, more, rfl, hk, hends hk⟩

/-- A type and a mark for a constructor. -/
theorem holds_marked (name : String) {h : Heading} {t dot mark : Terminal}
    (hnodes : nodes.reverse = h.nodes) (ht : s.ahead 0 = .ok t)
    (hends : t.token.kind = .ident → h.EndsAt t.token.text) (hdot : s.ahead 1 = .ok dot)
    (hpoint : dot.Pointed) (hmark : s.ahead 2 = .ok mark)
    (hword : mark.token.text = "ctor" ∨ mark.token.text = "cctor") :
    membership.Holds (fun node _ => MemberForm name node)
      (.call .plainType (.call .ctorName (.goto (.memberTail true)))) nodes s := by
  refine ⟨rfl, ?_⟩
  rintro type s' - ⟨htype, rfl⟩
  refine ⟨rfl, ?_⟩
  rintro node s' - ⟨inner, ⟨d, m, hd, hdk, hm, hmk, rfl⟩, rfl⟩
  rw [Stream.ahead_tail] at hd hm
  cases hd.symm.trans hdot
  cases hm.symm.trans hmark
  refine ⟨trivial, ?_⟩
  rintro node s' ⟨kind, rest, rfl, hend, -⟩
  rw [List.reverse_cons, List.reverse_cons, hnodes, List.append_assoc, List.append_assoc]
  exact .marked (Heading.typed_of_typeFrom ht hends htype) ⟨hdk, hpoint.1 hdk⟩ ⟨hmk, hword⟩ hend

/-- The name of the class in front of a parenthesis. -/
theorem holds_untyped {name : String} {h : Heading} {t u : Terminal}
    (hnodes : nodes.reverse = h.nodes) (ht : s.ahead 0 = .ok t) (hk : t.token.kind = .ident)
    (htext : t.token.text = name) (hu : s.ahead 1 = .ok u) (hparen : u.token.kind = .leftParen) :
    membership.Holds (fun node _ => MemberForm name node)
      (.call .memberName (.goto (.memberTail true))) nodes s := by
  have hnext : s.tail.next? = some .leftParen := Stream.next?_tail_of_ahead hu hparen
  refine ⟨rfl, ?_⟩
  rintro inner s' - ⟨v, hv, more, rfl, -, hmore⟩
  cases hv.symm.trans ht
  obtain ⟨rfl, rfl⟩ := hmore hnext
  refine ⟨trivial, ?_⟩
  rintro node s' ⟨kind, rest, rfl, hend, hbody⟩
  obtain ⟨cs, rfl⟩ := hbody hnext
  cases hend
  rw [List.reverse_cons, hnodes, List.append_assoc]
  exact .untyped hk htext

/-- A type and a name. -/
theorem holds_plain (name : String) {h : Heading} {t : Terminal} (hnodes : nodes.reverse = h.nodes)
    (ht : s.ahead 0 = .ok t) (hends : t.token.kind = .ident → h.EndsAt t.token.text) :
    membership.Holds (fun node _ => MemberForm name node)
      (.call .typeRef (.call .memberName (.goto (.memberTail false)))) nodes s := by
  refine ⟨rfl, fun type s₁ _ htype => ⟨rfl, ?_⟩⟩
  rintro inner s₂ - ⟨part, -, more, rfl, hparts, -⟩
  refine ⟨trivial, ?_⟩
  rintro node s' ⟨kind, rest, rfl, hend, -⟩
  rw [List.reverse_cons, List.reverse_cons, hnodes, List.append_assoc, List.append_assoc]
  exact .plain (Heading.typed_of_typeFrom ht hends htype) hparts hend

/-- A modifier goes into the heading. Otherwise the heading ends here, and the terminals that are
seen tell in which of the three ways the member goes on. -/
theorem holds_memberModifiers (name : String) {h : Heading} (hsettled : h.Settled s)
    (hnodes : nodes.reverse = h.nodes) :
    membership.Holds (fun node _ => MemberForm name node) (Rule.memberModifiers name).body
      nodes s := by
  simp only [Rule.body, memberModifiers_eq]
  intro t ht _
  refine Contract.holds_elim.2 ⟨fun hnone => ?_, fun tag htag => ?_⟩
  · have hends : t.token.kind = .ident → h.EndsAt t.token.text := by
      intro hk
      refine ⟨?_, fun hnil => hsettled hnil t ht hk⟩
      simpa [Glimpse.word?, Glimpse.ofTerminal, hk] using hnone
    refine Contract.holds_ite.2 ⟨fun _ => trivial, fun _ u hu hpoint => ?_⟩
    -- What is tried if there is no mark for a constructor.
    have hplain : membership.Holds (fun node _ => MemberForm name node)
        (if (Glimpse.ofTerminal t).is name = true ∧ (Glimpse.ofTerminal u).kind = .leftParen then
          .call .memberName (.goto (.memberTail true))
        else .call .typeRef (.call .memberName (.goto (.memberTail false)))) nodes s := by
      refine Contract.holds_ite.2 ⟨fun hname => ?_, fun _ => holds_plain name hnodes ht hends⟩
      obtain ⟨hk, htext⟩ := Glimpse.is_iff.1 hname.1
      exact holds_untyped hnodes ht hk htext hu hname.2
    refine Contract.holds_ite.2 ⟨fun _ v hv _ => ?_, fun _ => hplain⟩
    refine Contract.holds_ite.2 ⟨fun hmark => ?_, fun _ => hplain⟩
    refine holds_marked name hnodes ht hends hu hpoint hv ?_
    rcases hmark with hmark | hmark
    · exact .inl (Glimpse.is_iff.1 hmark).2
    · exact .inr (Glimpse.is_iff.1 hmark).2
  · obtain ⟨-, hmodifier⟩ := word?_bind htag
    refine Contract.Holds.take ht ⟨⟨h.modify t.token hmodifier, ?_, ?_⟩, fun _ _ hmake => hmake⟩
    · exact fun hnil => absurd hnil (by simp [Heading.modify])
    · rw [List.reverse_cons, hnodes]
      exact (Heading.nodes_modify hmodifier).symm

/-- Accessors go into the heading as long as there is no modifier. -/
theorem holds_member (name : String) {h : Heading} (hmodifiers : h.modifiers = [])
    (hnodes : nodes.reverse = h.nodes) :
    membership.Holds (membership.make (.member name) nodes s) (Rule.member name).body nodes s := by
  intro t ht _
  refine Contract.holds_ite.2 ⟨fun hword => ?_, fun hword => ?_⟩
  · obtain ⟨-, haccessor⟩ := word?_any_iff.1 hword
    refine Contract.Holds.take ht ⟨⟨h.access t.token haccessor, hmodifiers, ?_⟩, fun _ _ hm => hm⟩
    rw [List.reverse_cons, hnodes]
    exact (Heading.nodes_access haccessor hmodifiers).symm
  · refine ⟨⟨h, fun _ u hu hk => ?_, hnodes⟩, fun _ _ hmake => hmake⟩
    cases hu.symm.trans ht
    exact Bool.eq_false_iff.2 fun haccessor => hword (word?_any_iff.2 ⟨hk, haccessor⟩)

/-! ### Classes -/

theorem membersOf_cons {name : String} {n : Node} (hn : n.isMember = true → MemberForm name n)
    (h : MembersOf name nodes) : MembersOf name (n :: nodes) :=
  List.forall_mem_cons.2 ⟨hn, h⟩

/-- A block goes on behind an item that is no member. -/
theorem holds_item {name : String} {r : Rule} {k : Kind} (h : MembersOf name nodes)
    (henter : membership.enter r [] s) (hmakes : r.makes = Pattern.tree k)
    (hk : memberKinds.contains k = false) :
    membership.Holds (membership.make (.classItems name) nodes s)
      (.call r (.goto (.classItems name))) nodes s := by
  refine ⟨henter, fun inner s' hinner _ => ⟨?_, fun _ _ hmake => hmake⟩⟩
  rw [hmakes] at hinner
  obtain ⟨cs, rfl⟩ := Node.eq_tree_of_symbol (List.singleton_inj.1 hinner)
  exact membersOf_cons (fun hmember => absurd (hk.symm.trans hmember) nofun) h

/-- A choice by looks alone takes nothing, so each way does its part from the same nodes. -/
theorem holds_ifNestedClass {post : Node → Stream → Prop} {g : Glimpse} {yes no : Step}
    (hyes : membership.Holds post yes nodes s) (hno : membership.Holds post no nodes s) :
    membership.Holds post (ifNestedClass g yes no) nodes s := by
  simp only [ifNestedClass, Contract.holds_ite, Contract.Holds]
  grind

/-- Members are added to those of the block, each in its form. -/
theorem holds_classItems (name : String) (h : MembersOf name nodes) :
    membership.Holds (membership.make (.classItems name) nodes s) (Rule.classItems name).body
      nodes s := by
  simp only [Rule.body, classItems_eq]
  intro t ht _
  refine Contract.holds_ite.2 ⟨fun hk => ?_, fun _ => Contract.holds_ite.2 ⟨fun _ => trivial,
    fun _ => Contract.holds_ite.2 ⟨fun _ => holds_item h trivial rfl rfl,
    fun _ => Contract.holds_ite.2 ⟨fun _ => holds_item h trivial rfl rfl,
    fun _ => Contract.holds_ite.2 ⟨fun _ => holds_item h trivial rfl rfl, fun _ => ?_⟩⟩⟩⟩⟩
  · have hitems : MembersOf name (.token t.token :: nodes).reverse := by
      intro n hn
      refine membersOf_cons (fun hmember => ?_) h n (List.mem_reverse.1 hn)
      rw [Node.isMember, show (Node.token t.token).kind = .rightBrace from hk] at hmember
      cases hmember
    exact Contract.Holds.bump ht ⟨trivial, _, rfl, hitems⟩
  · refine holds_ifNestedClass (holds_item h (by simp) rfl rfl) ?_
    refine ⟨⟨.empty, rfl, rfl⟩, fun inner s' _ hinner => ⟨?_, fun _ _ hmake => hmake⟩⟩
    exact membersOf_cons (fun _ => hinner) h

theorem secondWord?_concat {ss : List Node} {name : String} (h : secondWord? ss = some name)
    (n : Node) : secondWord? (ss ++ [n]) = some name := by
  obtain ⟨word, hword, htext⟩ := Option.bind_eq_some_iff.1 h
  have hlt := (List.getElem?_eq_some_iff.1 hword).1
  rw [secondWord?, List.filter_append, List.getElem?_append_left hlt, hword]
  exact htext

/-- Behind nodes that are no words, `class` and the name are the first two words. -/
theorem secondWord?_words {nodes : List Node} (h : ∀ n ∈ nodes, n.kind ≠ .ident) {t u : Token}
    (ht : t.kind = .ident) (hu : u.kind = .ident) :
    secondWord? (.token u :: .token t :: nodes).reverse = some u.text := by
  have hnone : nodes.reverse.filter (·.kind == .ident) = [] := by
    rw [List.filter_eq_nil_iff]
    intro n hn
    simpa using h n (List.mem_reverse.1 hn)
  have hwords : ((.token u :: .token t :: nodes).reverse).filter
      (fun n : Node => n.kind == .ident) = [.token t, .token u] := by
    rw [List.reverse_cons, List.reverse_cons, List.filter_append, List.filter_append, hnone]
    simp [Node.kind, ht, hu]
  rw [secondWord?, hwords]
  rfl

/-- The block of a class. -/
def classEnd (name : String) : Step :=
  ifAt .leftBrace (.call (.classBlock name) (.close .classDecl)) (.fail .classWithoutBlock)

/-- The statement of a class is complete. -/
def classMiddle (name : String) : Step :=
  .gather .classStatement (ifAt .doubleSlash (.call .lineComment (classEnd name)) (classEnd name))

/-- The base types of a class. -/
def classBases (name : String) : Step :=
  ifAt .colon (.call .inheritance (classMiddle name)) (classMiddle name)

/-- A class ends with its block, behind at most a comment. -/
theorem holds_classEnd {name : String} {ss : List Node} (comments : List Node)
    (hname : secondWord? ss = some name) (hcomments : ∀ c ∈ comments, c.kind = .comment)
    (hnodes : nodes.reverse = .tree .classStatement ss :: comments) :
    membership.Holds (fun _ _ => True) (classEnd name) nodes s := by
  intro t ht _
  refine Contract.holds_ite.2 ⟨fun hk => ⟨⟨rfl, Stream.next?_of_ahead ht hk⟩, ?_⟩, fun _ => trivial⟩
  rintro inner s' - ⟨items, rfl, hitems⟩
  refine ⟨⟨name, ss, comments, items, ?_, hcomments, hname, hitems⟩, trivial⟩
  rw [List.reverse_cons, hnodes, List.cons_append]

/-- The statement is put together, with the name in its place. -/
theorem holds_classMiddle {name : String} (h : secondWord? nodes.reverse = some name) :
    membership.Holds (fun _ _ => True) (classMiddle name) nodes s := by
  refine ⟨trivial, fun t _ _ => Contract.holds_ite.2 ⟨fun _ => ⟨trivial, ?_⟩, fun _ => ?_⟩⟩
  · intro inner s' hinner _
    obtain ⟨cs, rfl⟩ := Node.eq_tree_of_symbol (List.singleton_inj.1 hinner)
    exact holds_classEnd [.tree .comment cs] h (by simp [Node.kind]) rfl
  · exact holds_classEnd [] h (by simp) rfl

/-- Base types stand behind the name. -/
theorem holds_classBases {name : String} (h : secondWord? nodes.reverse = some name) :
    membership.Holds (fun _ _ => True) (classBases name) nodes s := by
  intro t _ _
  refine Contract.holds_ite.2 ⟨fun _ => ⟨trivial, fun inner s' _ _ => holds_classMiddle ?_⟩,
    fun _ => holds_classMiddle h⟩
  rw [List.reverse_cons]
  exact secondWord?_concat h inner

/-- Type parameters stand behind the name too. -/
theorem holds_classTail (name : String) (h : secondWord? nodes.reverse = some name) :
    membership.Holds (fun _ _ => True) (Rule.classTail name).body nodes s := by
  intro t _ _
  refine Contract.holds_ite.2 ⟨fun _ => ⟨trivial, fun inner s' _ _ => holds_classBases ?_⟩,
    fun _ => holds_classBases h⟩
  rw [List.reverse_cons]
  exact secondWord?_concat h inner

/-- In front of `class` only modifiers are collected, so the name is the second word. -/
theorem holds_classDecl (h : ∀ n ∈ nodes, n.kind ≠ .ident) :
    membership.Holds (fun _ _ => True) Rule.classDecl.body nodes s := by
  simp only [Rule.body, classDecl_eq]
  intro t ht _
  refine Contract.holds_elim.2 ⟨fun _ => ?_, fun tag htag => ?_⟩
  · refine Contract.holds_ite.2 ⟨fun hclass => ?_, fun _ => trivial⟩
    refine Contract.Holds.bump ht fun u hu _ => ?_
    refine Contract.holds_ite.2 ⟨fun hname => ?_, fun _ => trivial⟩
    refine Contract.Holds.bump hu ⟨?_, fun _ _ _ => trivial⟩
    exact secondWord?_words h (Glimpse.is_iff.1 hclass).1 hname
  · refine Contract.Holds.take ht ⟨List.forall_mem_cons.2 ⟨?_, h⟩, fun _ _ _ => trivial⟩
    have hmem := classModifier?_mem (word?_bind htag).2
    intro hk
    have hk : tag = .ident := hk
    rw [hk] at hmem
    exact absurd hmem (by decide)

end Rules

theorem membership_enter_item (s : Stream) (g : Glimpse) (r : Rule) (hr : item? g = some r) :
    membership.enter r [] s := by
  have hmem := item?_mem hr
  simp only [List.mem_cons, List.not_mem_nil, or_false] at hmem
  rcases hmem with rfl | rfl | rfl | rfl | rfl | rfl <;> simp

/-- Every rule keeps the contract. Most rules make neither members nor classes, and for these there
is nothing to show. -/
theorem membership_kept : membership.Kept := by
  intro rule nodes s h
  -- The rules that make parts of members have lemmas of their own. The loops of items carry the
  -- contract through a general one.
  cases rule with
  | qualifiedName =>
    cases h
    exact holds_qualifiedName
  | qualifiedTail => exact holds_qualifiedTail
  | plainName =>
    cases h
    exact holds_plainName
  | typeRef =>
    cases h
    exact holds_typeRef
  | plainType =>
    cases h
    exact holds_plainType
  | memberName =>
    cases h
    exact holds_memberName
  | memberNameTail =>
    obtain ⟨parts, hnodes, hparts⟩ := h
    exact holds_memberNameTail hnodes hparts
  | ctorMark =>
    cases h
    exact holds_ctorMark
  | ctorName =>
    cases h
    exact holds_ctorName
  | memberTail isCtor => exact holds_memberTail isCtor
  | memberModifiers name =>
    obtain ⟨heading, hsettled, hnodes⟩ := h
    exact holds_memberModifiers name hsettled hnodes
  | member name =>
    obtain ⟨heading, hmodifiers, hnodes⟩ := h
    exact holds_member name hmodifiers hnodes
  | classItems name => exact holds_classItems name h
  | classBlock name =>
    obtain ⟨rfl, hnext⟩ := h
    intro t ht _
    refine ⟨List.forall_mem_singleton.2 fun hmember => ?_, fun _ _ hmake => hmake⟩
    rw [Node.isMember, leaf_none, Node.kind, Stream.kind_of_next? ht hnext] at hmember
    cases hmember
  | classTail name => exact holds_classTail name h
  | classDecl => exact holds_classDecl h
  | unitItems =>
    simp only [Rule.body, unitItems_eq]
    refine Contract.Holds.items (membership_enter_item s) (fun t _ _ => ?_) fun _ _ _ _ _ _ _ => ?_
    · simp [Contract.holds_ite]
    · exact ⟨trivial, fun _ _ _ => trivial⟩
  | namespaceItems =>
    simp only [Rule.body, namespaceItems_eq]
    refine Contract.Holds.items (membership_enter_item s) (fun t _ _ => ?_) fun _ _ _ _ _ _ _ => ?_
    · simp [Contract.holds_ite]
    · exact ⟨trivial, fun _ _ _ => trivial⟩
  | upToClose what => cases what <;> simp [Contract.holds_ite, Verbatim.kind]
  | typeItems list => cases list <;> simp [Contract.holds_ite, TypeList.kind]
  | _ => simp [Contract.holds_ite]

theorem membership_coversTexts : membership.CoversTexts := fun _ _ _ _ => Stream.pointed

end Grammar

/-! ## Whole texts -/

theorem ParsedFrom.membership {text : String} {tree : Node} (h : ParsedFrom text tree) :
    membership.Throughout tree :=
  membership_kept.throughout membership_coversTexts (fun _ => trivial) (by simp) h

/-- The members that a view lists are children of the block of its class. -/
theorem ClassView.node_mem_ownMembers {c : ClassView} {m : Member} (hm : m ∈ c.members) :
    m.node ∈ c.node.ownMembers := by
  have hview : c.node.view? .classDecl = some c := dif_pos c.kind_eq
  rw [Node.ownMembers, hview]
  exact List.mem_map_of_mem (by simpa using hm)

/-- The members of every class are made in one of the three ways, under the name of the class. -/
theorem ParsedFrom.memberForm {text : String} {tree : Node} (h : ParsedFrom text tree)
    {c : ClassView} (hc : c.node ∈ tree.descendants) :
    ∃ name, c.name? = some name ∧ ∀ m ∈ c.members, MemberForm name m.node := by
  have hconforms := Node.conforms_of_mem tree h.conforms c.node hc
  obtain ⟨node, hkind⟩ := c
  cases node with
  | token t =>
    have hterminal := Node.conforms_token.1 hconforms
    rw [show t.kind = .classDecl from hkind] at hterminal
    cases hterminal
  | tree k cs =>
    cases hkind
    obtain ⟨name, ss, comments, items, rfl, hcomments, hname, hitems⟩ :=
      h.membership .classDecl cs hc
    refine ⟨name, hname, fun m hm => ?_⟩
    have hmem := ClassView.node_mem_ownMembers hm
    rw [Node.ownMembers_classDecl hcomments] at hmem
    exact hitems m.node (List.mem_filter.1 hmem).1 (List.mem_filter.1 hmem).2

/-- A tree that comes out of a text is itself neither a member nor a block. -/
theorem ParsedFrom.root {text : String} {tree : Node} (h : ParsedFrom text tree) :
    tree.isMember = false ∧ tree.kind ≠ .classBlock := by
  rcases h with h | ⟨offset, h⟩
  · obtain ⟨cs, rfl⟩ := Node.eq_tree_of_symbol ((conforms_of_parse_ok text).1 tree h).1
    exact ⟨rfl, nofun⟩
  · obtain ⟨cs, rfl⟩ := Node.eq_tree_of_symbol ((conforms_of_parse_ok text).2 offset tree h).1
    exact ⟨rfl, nofun⟩

/-- Every member in a tree is the member of some class. -/
theorem ParsedFrom.exists_memberForm {text : String} {tree n : Node} (h : ParsedFrom text tree)
    (hn : n ∈ tree.descendants) (hmember : n.isMember = true) : ∃ name, MemberForm name n := by
  have hmem : n ∈ tree.classMembers := by
    obtain ⟨hroot, hblock⟩ := h.root
    have hperm := (Node.perm_members tree h.conforms).mem_iff.1 (List.mem_filter.2 ⟨hn, hmember⟩)
    simpa [Node.blockMembers, hroot, hblock] using hperm
  obtain ⟨m, hm, rfl⟩ := List.mem_map.1 hmem
  obtain ⟨c, hc, hm⟩ := List.mem_flatMap.1 hm
  obtain ⟨node, hnode, hview⟩ := List.mem_filterMap.1 hc
  have hcnode : c.node = node := by
    have hmap := congrArg (Option.map View.node) hview
    rw [Node.node_view?] at hmap
    split at hmap
    · exact (Option.some.inj hmap).symm
    · cases hmap
  obtain ⟨name, -, hforms⟩ := h.memberForm (c := c) (hcnode ▸ hnode)
  exact ⟨name, hforms m hm⟩

end Lossless
