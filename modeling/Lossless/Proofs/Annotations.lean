import Lossless.Proofs.Decisions
import Lossless.Proofs.Derivation
import Lossless.Proofs.Spelling
import Lossless.View.Declaration

/-!
# Annotated members

A class can be written with one member to a line and the offset of the member in a comment behind
it. What such a `Listing` says is found again in its text: by `annotatedMembers_listing` the text is
parsed, and the members come out in order, each with its shape, name, type and offset. The way there
follows the stages of a parse:

* the text has the tokens that are expected (`Listing.written`);
* the grammar makes the expected nodes of them, line by line (`Entry.parses_member`,
  `Offset.parses_comment`), and by induction over the lines the block (`parses_classItems`);
* the views find the entries in these nodes (`annotate_flatMap_nodes`).

The words of a listing may be any words, also those that mean something elsewhere in the grammar.
Only the type of a member must not be taken for a modifier or for the beginning of a class.
-/

namespace Lossless

open Lexeme Grammar

/-! ## Listings -/

/-- The members that a listing can have: fields without a value, and properties that are read and
set without code. -/
inductive Slot where
  | field
  | property
deriving DecidableEq, Repr

/-- A word that is the type of a member wherever a member can begin. -/
structure TypeWord extends Word where
  not_accessor : isAccessor text = false
  not_modifier : memberModifier? text = none
  not_class : text ≠ "class"

/-- A member with the offset it is annotated with. -/
structure Entry where
  slot : Slot
  type : TypeWord
  name : Word
  offset : Option Offset

/-- A class with its members. -/
structure Listing where
  name : Word
  entries : List Entry

def Slot.shape : Slot → MemberShape
  | .field => .field
  | .property => .property

/-- What is written behind the name of a member. -/
def Slot.text : Slot → String
  | .field => ";"
  | .property => " \x7b get; set; \x7d"

/-- The comment with an offset. -/
def Offset.text (o : Offset) : String := " // 0x" ++ String.ofList o.digits

def Entry.text (e : Entry) : String :=
  "public " ++ e.type.text ++ " " ++ e.name.text ++ e.slot.text ++
    (e.offset.map Offset.text).getD "" ++ "\n"

def Listing.text (l : Listing) : String :=
  "class " ++ l.name.text ++ " \x7b\n" ++ String.join (l.entries.map Entry.text) ++ "\x7d"

/-! ## Tokens of a listing -/

def wordToken (w : String) (s : Spacing) : Token := .spelled .ident w.toList s none

theorem wordToken_kind {t : Token} {w : String} {s : Spacing} (h : t = wordToken w s) :
    t.kind = .ident := by
  rw [h]
  rfl

theorem wordToken_text {t : Token} {w : String} {s : Spacing} (h : t = wordToken w s) :
    t.text = w := by
  rw [h, wordToken, Token.spelled, String.ofList_toList]

/-- The blank between the name of a member and what follows it. -/
def Slot.spacing : Slot → Spacing
  | .field => .nothing
  | .property => .space

/-- The tokens behind the name of a member. -/
def Slot.tokens (s : Spacing) : Slot → List Token
  | .field => [.spelled .semicolon [';'] s none]
  | .property =>
    [.spelled .leftBrace ['{'] .space none, wordToken "get" .nothing,
      .spelled .semicolon [';'] .space none, wordToken "set" .nothing,
      .spelled .semicolon [';'] .space none, .spelled .rightBrace ['}'] s none]

/-- The blank behind a member. -/
def Entry.spacing (e : Entry) : Spacing := if e.offset.isSome then .space else .line

def Entry.memberTokens (e : Entry) : List Token :=
  wordToken "public" .space :: wordToken e.type.text .space ::
    wordToken e.name.text e.slot.spacing :: e.slot.tokens e.spacing

def Offset.commentTokens (o : Offset) : List Token :=
  .spelled .doubleSlash ['/', '/'] .space none :: o.tokens

def Entry.tokens (e : Entry) : List Token :=
  e.memberTokens ++ (e.offset.map Offset.commentTokens).getD []

/-- The brace that opens the block. -/
def Listing.opening : Token := .spelled .leftBrace ['{'] .line none

/-- The brace that closes it. -/
def Listing.closing : Token := .spelled .rightBrace ['}'] .nothing none

def Listing.tokens (l : Listing) : List Token :=
  wordToken "class" .space :: wordToken l.name.text .space ::
    opening :: (l.entries.flatMap Entry.tokens ++ [closing])

/-- A name and what is written behind it. -/
theorem Slot.written (slot : Slot) {w : String} (hw : isWord w.toList = true) (s : Spacing)
    {cs : List Char} {ts : List Token} (more : Written cs ts) :
    Written (w.toList ++ (slot.text.toList ++ (s.chars ++ cs)))
      (wordToken w slot.spacing :: (slot.tokens s ++ ts)) := by
  cases slot with
  | field =>
    have hname := Written.word hw .nothing (by simp [isBoundary]) (more.semicolon s)
    simpa [text, tokens, spacing, wordToken] using hname
  | property =>
    have hset := Written.word (w := "set".toList) (by decide) .nothing
      (by simp [isBoundary]) ((more.rightBrace s).semicolon .space)
    have hget := Written.word (w := "get".toList) (by decide) .nothing
      (by simp [isBoundary]) (hset.semicolon .space)
    have hname := Written.word hw .space (by simp [isBoundary])
      (hget.leftBrace .space)
    simpa [text, tokens, spacing, wordToken] using hname

/-- A line has the expected tokens. -/
theorem Entry.written (e : Entry) {cs : List Char} {ts : List Token} (more : Written cs ts) :
    Written (e.text.toList ++ cs) (e.tokens ++ ts) := by
  -- The member is the same with and without a comment behind it, up to the blank between them.
  have hmember : ∀ {r : List Char} {us : List Token}, Written r us →
      Written ("public".toList ++ (' ' :: (e.type.text.toList ++ (' ' :: (e.name.text.toList ++
        (e.slot.text.toList ++ (e.spacing.chars ++ r))))))) (e.memberTokens ++ us) := by
    intro r us h
    have htype := Written.word e.type.isWord .space (by simp [isBoundary])
      (e.slot.written e.name.isWord e.spacing h)
    exact Written.word (w := "public".toList) (by decide) .space
      (by simp [isBoundary]) htype
  cases ho : e.offset with
  | none =>
    have h := hmember more
    simpa [text, tokens, spacing, ho] using h
  | some o =>
    have h := hmember ((o.written more).slashes .space)
    simpa [text, tokens, spacing, ho, Offset.text, Offset.commentTokens] using h

/-- The text of a listing has the expected tokens. -/
theorem Listing.written (l : Listing) : Written l.text.toList l.tokens := by
  have hentries : ∀ es : List Entry,
      Written ((es.flatMap fun e => e.text.toList) ++ ['}'])
        (es.flatMap Entry.tokens ++ [closing]) := by
    intro es
    induction es with
    | nil => exact .rightBrace .nothing .nil
    | cons e es ih =>
      rw [List.flatMap_cons, List.flatMap_cons, List.append_assoc, List.append_assoc]
      exact e.written ih
  have hname := Written.word l.name.isWord .space (by simp [isBoundary])
    ((hentries l.entries).leftBrace .line)
  have hclass := Written.word (w := "class".toList) (by decide) .space
    (by simp [isBoundary]) hname
  simpa [text, tokens, wordToken, opening, String.toList_join, List.flatMap_map] using hclass

/-! ## Nodes of a listing -/

/-- The nodes behind the name of a member. -/
def Slot.nodes (s : Spacing) : Slot → List Node
  | .field => (Slot.field.tokens s).map .token
  | .property => [.tree .propertyBody ((Slot.property.tokens s).map .token)]

/-- The nodes of a member behind its accessor. -/
def Entry.body (e : Entry) : List Node :=
  .tree .typeRef [.tree .qualifiedName [.token (wordToken e.type.text .space)]] ::
    .tree .memberName [.token (wordToken e.name.text e.slot.spacing)] :: e.slot.nodes e.spacing

def Entry.member (e : Entry) : Node :=
  .tree e.slot.shape.kind
    (.token { wordToken "public" .space with kind := .accessor } :: e.body)

/-- The node of a comment. Its tokens are fused, except for the slashes. -/
def Offset.comment (o : Offset) : Node :=
  .tree .comment
    [.token (.spelled .doubleSlash ['/', '/'] .space none),
      .token (.fuse .commentText o.tokens)]

def Entry.nodes (e : Entry) : List Node := e.member :: (e.offset.map Offset.comment).toList

def Listing.declaration (l : Listing) : Node :=
  .tree .classDecl
    [.tree .classStatement
        [.token (wordToken "class" .space), .token (wordToken l.name.text .space)],
      .tree .classBlock (.token opening :: (l.entries.flatMap Entry.nodes ++ [.token closing]))]

def Listing.ending : Token := { kind := .endOfInput, text := "" }

def Listing.unit (l : Listing) : Node := .tree .compilationUnit [l.declaration, .token ending]

/-! ## The parse of a line -/

/-- The next terminals of a stream have the given tokens, and the last stream is what follows
them. -/
inductive Begins : Stream → List Token → Stream → Prop where
  | nil {s : Stream} : Begins s [] s
  | cons {u : Terminal} {t : Token} {ts : List Token} {s rest : Stream} (token : u.token = t)
      (more : Begins s ts rest) : Begins (s.cons u) (t :: ts) rest

theorem Begins.of_map {us : List Terminal} {ts : List Token} (h : us.map Terminal.token = ts)
    (rest : Stream) : Begins ⟨us ++ rest.terminals, rest.ending⟩ ts rest := by
  subst h
  induction us with
  | nil => exact .nil
  | cons u us ih => exact .cons rfl ih

/-- A stream that begins with one list of tokens and then another can be cut between them. -/
theorem Begins.split {s rest : Stream} {ts us : List Token} (h : Begins s (ts ++ us) rest) :
    ∃ s', Begins s ts s' ∧ Begins s' us rest := by
  induction ts generalizing s with
  | nil => exact ⟨s, .nil, h⟩
  | cons t ts ih =>
    rcases h with _ | ⟨ht, h⟩
    rcases ih h with ⟨s', h₁, h₂⟩
    exact ⟨s', .cons ht h₁, h₂⟩

-- The terminals of a listing have known kinds and texts, so `simp` computes the runs on them.
attribute [local simp] Glimpse.ofTerminal Glimpse.is Glimpse.word?

/-- A word in front of another one is a type of its own. -/
theorem parses_typeRef {t u : Terminal} (s : Stream) (log : List Event)
    (ht : t.token.kind = .ident) (hu : u.token.kind = .ident) :
    Parses Rule.typeRef.body [] ⟨(s.cons u).cons t, log⟩
      (.tree .typeRef [.tree .qualifiedName [.token t.token]]) ⟨s.cons u, log⟩ := by
  -- Behind `void` neither type arguments nor an array mark are looked for. The node is the same.
  by_cases hvoid : t.token.text = "void"
  · apply Parses.of_run (n := 3)
    simp [run, exec, ht, hvoid]
  · apply Parses.of_run (n := 3)
    simp [run, exec, ht, hu, hvoid]

/-- A word is the whole name of a member if what follows is the end of a field or property. -/
theorem Slot.parses_memberName {slot : Slot} {sp : Spacing} {t : Terminal} {s rest : Stream}
    (log : List Event) (ht : t.token.kind = .ident) (h : Begins s (slot.tokens sp) rest) :
    Parses Rule.memberName.body [] ⟨s.cons t, log⟩ (.tree .memberName [.token t.token])
      ⟨s, log⟩ := by
  cases slot with
  | field =>
    rcases h with _ | ⟨hu, _⟩
    apply Parses.of_run (n := 2)
    simp [run, exec, ht, hu, nameParts_contains, Token.spelled]
  | property =>
    rcases h with _ | ⟨hu, _⟩
    apply Parses.of_run (n := 2)
    simp [run, exec, ht, hu, nameParts_contains, Token.spelled]

/-- The end of a field or property tells which of the two it is. -/
theorem Slot.parses_memberTail (slot : Slot) (sp : Spacing) {s rest : Stream} (nodes : List Node)
    (log : List Event) (h : Begins s (slot.tokens sp) rest) :
    Parses (Rule.memberTail false).body nodes ⟨s, log⟩
      (.tree slot.shape.kind (nodes.reverse ++ slot.nodes sp)) ⟨rest, log⟩ := by
  cases slot with
  | field =>
    rcases h with _ | ⟨ht, _ | _⟩
    apply Parses.of_run (n := 2)
    simp [run, exec, ht, Token.spelled, Slot.nodes, Slot.tokens, shape, MemberShape.kind]
  | property =>
    rcases h with _ | ⟨h₁, _ | ⟨h₂, _ | ⟨h₃, _ | ⟨h₄, _ | ⟨h₅, _ | ⟨h₆, _ | _⟩⟩⟩⟩⟩⟩
    apply Parses.of_run (n := 8)
    simp [run, exec, h₁, h₂, h₃, h₄, h₅, h₆, Token.spelled, wordToken, Verbatim.mark,
      Verbatim.kind, Slot.nodes, Slot.tokens, shape, MemberShape.kind]

/-- A word that is neither an accessor nor a modifier begins the type of a member. -/
theorem Entry.parses_body (e : Entry) (name : String) {s rest : Stream} (nodes : List Node)
    (log : List Event) (h : Begins s (wordToken e.type.text .space ::
      wordToken e.name.text e.slot.spacing :: e.slot.tokens e.spacing) rest) :
    Parses (Rule.member name).body nodes ⟨s, log⟩
      (.tree e.slot.shape.kind (nodes.reverse ++ e.body)) ⟨rest, log⟩ := by
  rcases h with _ | ⟨h₁, _ | ⟨h₂, h⟩⟩
  rename_i t₁ t₂ s
  have hkind₁ := wordToken_kind h₁
  have htext₁ := wordToken_text h₁
  have hkind₂ := wordToken_kind h₂
  have htype := parses_typeRef s log hkind₁ hkind₂
  have hname := Slot.parses_memberName log hkind₂ h
  have htail := e.slot.parses_memberTail e.spacing
    (.tree .memberName [.token t₂.token] ::
      .tree .typeRef [.tree .qualifiedName [.token t₁.token]] :: nodes) log h
  have hmember := Parses.call htype (.call hname (.goto htail))
  have hnodes : (Node.tree .memberName [.token t₂.token] ::
      .tree .typeRef [.tree .qualifiedName [.token t₁.token]] :: nodes).reverse ++
        e.slot.nodes e.spacing = nodes.reverse ++ e.body := by
    simp [body, h₁, h₂]
  rw [hnodes] at hmember
  have hclass : (some e.type.text == some "class") = false := by simp [e.type.not_class]
  -- A word follows the type, so the type is not the beginning of a constructor.
  have hmodifiers : Parses (Rule.memberModifiers name).body nodes ⟨(s.cons t₂).cons t₁, log⟩
      (.tree e.slot.shape.kind (nodes.reverse ++ e.body)) ⟨rest, log⟩ := by
    simp only [Rule.body, memberModifiers_eq]
    refine .look (t := t₁) rfl ?_
    simp only [Glimpse.ofTerminal, Glimpse.word?, Glimpse.is, hkind₁, htext₁, if_true,
      Option.bind_some, e.type.not_modifier, Option.elim_none, hclass, Bool.false_eq_true, if_false]
    refine .look (t := t₂) rfl ?_
    simpa [hkind₂] using hmember
  refine .look (t := t₁) rfl ?_
  simpa [hkind₁, htext₁, e.type.not_accessor] using Parses.goto hmodifiers

/-- The tokens of a member are parsed as the member. -/
theorem Entry.parses_member (e : Entry) (name : String) {s rest : Stream} (log : List Event)
    (h : Begins s e.memberTokens rest) :
    Parses (Rule.member name).body [] ⟨s, log⟩ e.member ⟨rest, log⟩ := by
  rcases h with _ | ⟨h₁, h⟩
  rename_i t₁ s
  have hkind := wordToken_kind h₁
  have htext := wordToken_text h₁
  have hpublic : isAccessor "public" = true := by decide
  have hnode : e.member =
      .tree e.slot.shape.kind ([leaf (some .accessor) t₁].reverse ++ e.body) := by
    rw [leaf, h₁]
    rfl
  have hbody := e.parses_body name [leaf (some .accessor) t₁] log h
  rw [← hnode] at hbody
  refine .look (t := t₁) rfl ?_
  simp only [Glimpse.ofTerminal, Glimpse.word?, hkind, htext, if_true, Option.any_some, hpublic]
  exact .take (t := t₁) rfl (.goto hbody)

/-- The tokens of a comment are parsed as the comment: it ends with the line. -/
theorem Offset.parses_comment (o : Offset) {s rest : Stream} (log : List Event)
    (h : Begins s o.commentTokens rest) :
    Parses Rule.lineComment.body [] ⟨s, log⟩ o.comment ⟨rest, log⟩ := by
  rcases h with _ | ⟨h₁, _ | ⟨h₂, _ | ⟨h₃, _ | _⟩⟩⟩
  -- Only the last of the three terminals ends the line.
  have hspace : Trivia.contains ⟨[⟨.whitespace, 1⟩]⟩ .newline = false := by decide
  have hnothing : Trivia.contains .empty .newline = false := by decide
  have hline : Trivia.contains ⟨[⟨.newline, 1⟩]⟩ .newline = true := by decide
  apply Parses.of_run (n := 3)
  simp [run, exec, h₁, h₂, h₃, Token.spelled, Token.endsLine, Spacing.trivia, hspace, hnothing,
    hline, joined, Node.merge?, Node.token?, comment, tokens]

/-! ## The parse of the text -/

/-- A word that begins a type begins no class. -/
theorem TypeWord.not_startsClass (w : TypeWord) : startsClass w.text = false := by
  have hne : ∀ v, memberModifier? v ≠ none → w.text ≠ v := by
    intro v hv he
    rw [← he] at hv
    exact hv w.not_modifier
  have habstract := hne "abstract" (by decide)
  have hsealed := hne "sealed" (by decide)
  have hstatic := hne "static" (by decide)
  simp [startsClass, classModifier?, w.not_class, w.not_accessor, habstract, hsealed, hstatic]

/-- A comment adds its node to a block. -/
theorem Offset.parses_item (o : Offset) {name : String} {s rest : Stream} {nodes : List Node}
    {log : List Event} {node : Node} {s' : State} (h : Begins s o.commentTokens rest)
    (more : Parses (Rule.classItems name).body (o.comment :: nodes) ⟨rest, log⟩ node s') :
    Parses (Rule.classItems name).body nodes ⟨s, log⟩ node s' := by
  have hcomment := o.parses_comment log h
  rcases h with _ | ⟨ht, _⟩
  have hkind := congrArg Token.kind ht
  simp only [Rule.body, classItems_eq]
  refine .look rfl ?_
  simp only [Glimpse.ofTerminal, hkind, Token.spelled, reduceCtorEq, if_false, if_true]
  exact .call hcomment (.goto more)

/-- A member adds its node to a block. -/
theorem Entry.parses_item (e : Entry) {name : String} {s rest : Stream} {nodes : List Node}
    {log : List Event} {node : Node} {s' : State} (h : Begins s e.memberTokens rest)
    (more : Parses (Rule.classItems name).body (e.member :: nodes) ⟨rest, log⟩ node s') :
    Parses (Rule.classItems name).body nodes ⟨s, log⟩ node s' := by
  have hmember := e.parses_member name log h
  rcases h with _ | ⟨h₁, _ | ⟨h₂, -⟩⟩
  rename_i t₁ t₂ s
  have hkind₁ := wordToken_kind h₁
  have htext₁ := wordToken_text h₁
  have hkind₂ := wordToken_kind h₂
  have htext₂ := wordToken_text h₂
  have hpublic : startsClass "public" = true := by decide
  have hnot : (some "public" == some "class") = false := by decide
  -- A class could begin with `public`, but the type does not continue it.
  simp only [Rule.body, classItems_eq]
  refine .look (t := t₁) rfl ?_
  simp only [Glimpse.ofTerminal, Glimpse.word?, Glimpse.is, ifNestedClass, hkind₁, htext₁, hnot,
    hpublic, Option.any_some, reduceCtorEq, Bool.false_eq_true, if_false, if_true]
  refine .look (t := t₂) rfl ?_
  simpa [hkind₂, htext₂, e.type.not_class, e.type.not_startsClass] using
    Parses.call hmember (.goto more)

/-- A line adds its nodes to a block. -/
theorem Entry.parses_line (e : Entry) {name : String} {s rest : Stream} {nodes : List Node}
    {log : List Event} {node : Node} {s' : State} (h : Begins s e.tokens rest)
    (more : Parses (Rule.classItems name).body (e.nodes.reverse ++ nodes) ⟨rest, log⟩ node s') :
    Parses (Rule.classItems name).body nodes ⟨s, log⟩ node s' := by
  rcases h.split with ⟨mid, hmember, hcomment⟩
  apply e.parses_item hmember
  rw [Entry.nodes] at more
  cases ho : e.offset with
  | none =>
    rw [ho] at hcomment more
    cases hcomment
    exact more
  | some o =>
    rw [ho] at hcomment more
    exact o.parses_item hcomment more

/-- Lines up to the closing brace make a block. -/
theorem parses_classItems (name : String) (es : List Entry) {s rest : Stream} (nodes : List Node)
    (log : List Event) (h : Begins s (es.flatMap Entry.tokens ++ [Listing.closing]) rest) :
    ∃ log', Parses (Rule.classItems name).body nodes ⟨s, log⟩
      (.tree .classBlock (nodes.reverse ++ (es.flatMap Entry.nodes ++ [.token Listing.closing])))
      ⟨rest, log'⟩ := by
  induction es generalizing s nodes with
  | nil =>
    rcases h with _ | ⟨ht, _ | _⟩
    refine ⟨.parsedClass name (nodes.length + 1) :: log, .of_run (n := 1) ?_⟩
    simp [run, exec, ht, Listing.closing, Token.spelled]
  | cons e es ih =>
    rw [List.flatMap_cons, List.append_assoc] at h
    rcases h.split with ⟨mid, hline, hmore⟩
    rcases ih (e.nodes.reverse ++ nodes) hmore with ⟨log', hparse⟩
    rw [List.reverse_append, List.reverse_reverse, List.append_assoc, ← List.append_assoc e.nodes]
      at hparse
    exact ⟨log', e.parses_line hline hparse⟩

/-- A brace right behind the name of a class begins the block. -/
theorem parses_classTail {name : String} {t : Terminal} {s : Stream} {log : List Event}
    {block : Node} {s' : State} (nodes : List Node) (ht : t.token.kind = .leftBrace)
    (hblock : Parses (Rule.classBlock name).body [] ⟨s.cons t, log⟩ block s') :
    Parses (Rule.classTail name).body nodes ⟨s.cons t, log⟩
      (.tree .classDecl [.tree .classStatement nodes.reverse, block]) s' := by
  -- Type parameters, base types and a comment could come first.
  refine .look (t := t) rfl ?_
  simp only [Glimpse.ofTerminal, ht, reduceCtorEq, if_false]
  refine .look (t := t) rfl ?_
  simp only [Glimpse.ofTerminal, ht, reduceCtorEq, if_false]
  refine .gather (.look (t := t) rfl ?_)
  simp only [Glimpse.ofTerminal, ht, reduceCtorEq, if_false]
  refine .look (t := t) rfl ?_
  simp only [Glimpse.ofTerminal, ht, if_true]
  exact .call hblock .close

/-- The tokens of a listing are parsed as its class. -/
theorem Listing.parses_classDecl (l : Listing) {s rest : Stream} (log : List Event)
    (h : Begins s l.tokens rest) :
    ∃ log', Parses Rule.classDecl.body [] ⟨s, log⟩ l.declaration ⟨rest, log'⟩ := by
  -- The listing spells the word `class`, the name and the opening brace, and then its lines.
  rcases h with _ | ⟨h₁, _ | ⟨h₂, _ | ⟨h₃, h⟩⟩⟩
  rename_i t₁ t₂ t₃ s
  rcases parses_classItems l.name.text l.entries [.token t₃.token] log h with ⟨log', hitems⟩
  refine ⟨log', ?_⟩
  -- From the inside out: the block is parsed from its brace on, and the class from its name on.
  have hblock : Parses (Rule.classBlock l.name.text).body [] ⟨s.cons t₃, log⟩ _ ⟨rest, log'⟩ :=
    .take (t := t₃) rfl (.goto hitems)
  have htail := parses_classTail [.token t₂.token, .token t₁.token]
    (show t₃.token.kind = .leftBrace by rw [h₃]; rfl) hblock
  have hkind₁ := wordToken_kind h₁
  have htext₁ := wordToken_text h₁
  have hkind₂ := wordToken_kind h₂
  have htext₂ := wordToken_text h₂
  have hclass : classModifier? "class" = none := by decide
  have hnode : l.declaration = .tree .classDecl
      [.tree .classStatement [.token t₂.token, .token t₁.token].reverse,
        .tree .classBlock ([Node.token t₃.token].reverse ++
          (l.entries.flatMap Entry.nodes ++ [.token closing]))] := by
    rw [h₁, h₂, h₃]
    rfl
  -- Now the rule is run on the two words; the first is the class word and no modifier.
  rw [hnode]
  simp only [Rule.body, classDecl_eq]
  refine .look (t := t₁) rfl ?_
  simp only [Glimpse.ofTerminal, Glimpse.word?, Glimpse.is, hkind₁, htext₁, if_true,
    Option.bind_some, hclass, Option.elim_none, BEq.rfl]
  refine .take (t := t₁) rfl (.look (t := t₂) rfl ?_)
  simp only [Glimpse.ofTerminal, hkind₂, if_true, htext₂]
  exact .take (t := t₂) rfl (.goto htail)

/-- The text of a listing is parsed as its class and nothing else. -/
theorem Listing.parseUnit_text (l : Listing) : parseUnit l.text = .ok l.unit := by
  rcases l.written.exists_stream with ⟨us, n, hstream, hus⟩
  have hbegins := Begins.of_map hus ⟨[.finish n []], .finish n⟩
  rcases l.parses_classDecl [] hbegins with ⟨log, hclass⟩
  -- Behind the class there is nothing but the end of the text.
  have hend : Parses Rule.unitItems.body [l.declaration] ⟨⟨[.finish n []], .finish n⟩, log⟩ l.unit
      ⟨⟨[], .finish n⟩, log⟩ := by
    apply Parses.of_run (n := 1)
    simp [run, exec, Stream.ahead, Stream.tail, item?, Terminal.finish, unit, ending, Trivia.empty]
  rcases List.map_eq_cons_iff.1 hus with ⟨t, us, rfl, ht, -⟩
  have hitem : item? (.ofTerminal t) = some .classDecl := by
    rw [Glimpse.ofTerminal, ht]
    decide
  rw [parseUnit, reportUnit, hstream]
  apply parse_ok_iff.2
  refine ⟨⟨⟨[], .finish n⟩, log⟩, ?_⟩
  simp only [Rule.body, unitItems_eq]
  refine .look (t := t) rfl ?_
  rw [hitem]
  exact .call hclass (.goto hend)

/-! ## Views of a listing -/

/-- The outline of a list of trees is put together from those of its parts. -/
theorem Node.outlineIn_append (depth : Nat) (as bs : List Node) :
    outlineIn depth (as ++ bs) = outlineIn depth as ++ outlineIn depth bs := by
  induction as with
  | nil => simp [outlineIn]
  | cons a as ih => simp [outlineIn, ih]

/-- There is no class in a line. -/
theorem Entry.classes_nodes (e : Entry) (depth : Nat) :
    ((Node.outlineIn depth e.nodes).map Prod.snd).filterMap (Node.view? .classDecl) = [] := by
  rcases e with ⟨slot, type, name, offset⟩
  cases slot <;> cases offset <;>
    simp [nodes, member, body, Slot.nodes, Slot.tokens, Slot.shape, MemberShape.kind,
      Offset.comment, wordToken, Token.spelled, Token.fuse, Node.outlineIn, Node.outlineAt,
      Node.view?, Node.kind]

/-- There is no class between the braces of a listing. -/
theorem classes_flatMap_nodes (es : List Entry) (depth : Nat) :
    ((Node.outlineIn depth (es.flatMap Entry.nodes)).map Prod.snd).filterMap
      (Node.view? .classDecl) = [] := by
  induction es with
  | nil => simp [Node.outlineIn]
  | cons e es ih =>
    rw [List.flatMap_cons, Node.outlineIn_append, List.map_append, List.filterMap_append,
      e.classes_nodes, ih]
    rfl

def Listing.view (l : Listing) : ClassView := ⟨l.declaration, rfl⟩

theorem Listing.allClasses_unit (l : Listing) :
    UnitView.allClasses ⟨l.unit, rfl⟩ = [l.view] := by
  have hentries := classes_flatMap_nodes l.entries 3
  simp [UnitView.allClasses, unit, declaration, view, opening, closing, ending, wordToken,
    Token.spelled, Node.descendants, Node.outline, Node.outlineAt, Node.outlineIn,
    Node.outlineIn_append, Node.view?, Node.kind, hentries]

theorem Listing.name?_view (l : Listing) : ClassView.name? l.view = some l.name.text := by
  simp [ClassView.name?, ClassView.statement?, view, declaration, wordToken, Token.spelled,
    Node.firstOfKind?, Node.allOfKind, Node.children, Node.kind, Node.text?, Node.token?]

def Entry.view (e : Entry) : Member := ⟨e.slot.shape, e.member, rfl⟩

def Offset.view (o : Offset) : CommentView := ⟨o.comment, rfl⟩

theorem Entry.of?_member (e : Entry) : Member.of? e.member = some e.view := by
  rcases e with ⟨slot, type, name, offset⟩
  cases slot <;> rfl

theorem Entry.name_view (e : Entry) : e.view.name = e.name.text := by
  rcases e with ⟨slot, type, name, offset⟩
  cases slot <;>
    simp [Member.name, view, member, body, wordToken, Token.spelled, Token.ownChars,
      Node.firstOfKind?, Node.children, Node.kind, Node.trimmedText, Node.tokens, Node.tokensIn]

theorem Entry.typeName_view (e : Entry) : e.view.type?.bind TypeView.name? = some e.type.text := by
  rcases e with ⟨slot, type, name, offset⟩
  cases slot <;>
    simp [Member.type?, TypeView.name?, view, member, body, wordToken, Token.spelled,
      Token.ownChars, Node.views, Node.view?, Node.name?, Node.firstOfKind?, Node.children,
      Node.kind, Node.trimmedText, Node.tokens, Node.tokensIn]

theorem Offset.offset?_view (o : Offset) : CommentView.offset? o.view = some o.value.toNat := by
  have htext : CommentView.text o.view = String.ofList ('0' :: 'x' :: o.digits) := by
    simp [CommentView.text, view, comment, tokens, Token.fuse, Token.spelled, Token.innerChars,
      Token.ownChars, Spacing.trivia, Node.firstOfKind?, Node.children, Node.kind, Node.text?,
      Node.token?]
  rw [CommentView.offset?, htext, String.toList_ofList, o.hexOffset?_eq]

/-- A line gives its member and its comment, unless another comment stands behind it. -/
theorem Entry.annotate_nodes (e : Entry) {ns : List Node}
    (h : ns.head?.bind (Node.view? .comment) = none) :
    ClassView.annotate (e.nodes ++ ns) =
      (e.view, e.offset.map Offset.view) :: ClassView.annotate ns := by
  cases ho : e.offset with
  | none => simp [nodes, ho, ClassView.annotate, e.of?_member, h]
  | some o =>
    have hcomment : Member.of? o.comment = none := rfl
    have hview : Node.view? .comment o.comment = some o.view := rfl
    simp [nodes, ho, ClassView.annotate, e.of?_member, hcomment, hview]

/-- Each member of a listing is annotated with the comment on its own line, and the closing brace
with nothing. -/
theorem annotate_flatMap_nodes (es : List Entry) :
    ClassView.annotate (es.flatMap Entry.nodes ++ [.token Listing.closing]) =
      es.map fun e => (e.view, e.offset.map Offset.view) := by
  induction es with
  | nil => rfl
  | cons e es ih =>
    -- The next line begins with a member, and the last one is followed by the brace.
    have hnext : (es.flatMap Entry.nodes ++ [Node.token Listing.closing]).head?.bind
        (Node.view? .comment) = none := by
      cases es with
      | nil => rfl
      | cons e es =>
        rcases e with ⟨slot, type, name, offset⟩
        cases slot <;> rfl
    rw [List.flatMap_cons, List.append_assoc, e.annotate_nodes hnext, ih, List.map_cons]

theorem Listing.annotatedMembers_view (l : Listing) :
    ClassView.annotatedMembers l.view =
      l.entries.map fun e => (e.view, e.offset.map Offset.view) := by
  rw [← annotate_flatMap_nodes]
  rfl

/-- A class that is written with one member to a line is parsed, and its members are those of the
lines in order: each has its shape, name and type, and the offset in the comment behind it, or no
comment if it has no offset. -/
theorem annotatedMembers_listing (l : Listing) :
    ∃ (unit : UnitView) (cls : ClassView),
      parseUnit l.text = .ok unit.node ∧ UnitView.allClasses unit = [cls] ∧
      ClassView.name? cls = some l.name.text ∧
      (ClassView.annotatedMembers cls).map (fun (m, c) =>
          (m.shape, m.name, m.type?.bind TypeView.name?, c.map CommentView.offset?)) =
        l.entries.map fun e =>
          (e.slot.shape, e.name.text, some e.type.text,
            e.offset.map fun o => some o.value.toNat) := by
  refine ⟨⟨l.unit, rfl⟩, l.view, l.parseUnit_text, l.allClasses_unit, l.name?_view, ?_⟩
  rw [l.annotatedMembers_view, List.map_map]
  -- The lines are independent of each other: each shows what was put in it.
  apply List.map_congr_left
  intro e _
  have hoffset : (e.offset.map Offset.view).map CommentView.offset? =
      e.offset.map fun o => some o.value.toNat := by
    cases e.offset with
    | none => rfl
    | some o => rw [Option.map_some, Option.map_some, Option.map_some, o.offset?_view]
  simp only [Function.comp_apply, e.name_view, e.typeName_view, hoffset]
  rfl

/-- A listing whose words all have a meaning elsewhere. -/
def keywordListing : Listing where
  name := .ofText "class" (by decide)
  entries :=
    [{ slot := .field
       type := ⟨.ofText "void" (by decide), by decide, by decide, by decide⟩
       name := .ofText "class" (by decide)
       offset := some ⟨0xCAFE, 2, fun i => i % 2 == 0⟩ },
     { slot := .property
       type := ⟨.ofText "get" (by decide), by decide, by decide, by decide⟩
       name := .ofText "public" (by decide)
       offset := none },
     { slot := .property
       type := ⟨.ofText "ctor" (by decide), by decide, by decide, by decide⟩
       name := .ofText "static" (by decide)
       offset := some ⟨0xFFFFFFFFFFFFFFFF, 0, fun _ => true⟩ }]

/-- A listing whose class, members and types have keywords for names, and whose second annotation is
the largest number of 64 bits. -/
theorem annotatedMembers_keywords :
    keywordListing.text =
      "class class \x7b\npublic void class; // 0x00CaFe\npublic get public \x7b get; set; \x7d\n" ++
        "public ctor static \x7b get; set; \x7d // 0xFFFFFFFFFFFFFFFF\n\x7d" ∧
    ∃ (unit : UnitView) (cls : ClassView),
      parseUnit keywordListing.text = .ok unit.node ∧ UnitView.allClasses unit = [cls] ∧
      ClassView.name? cls = some "class" ∧
      (ClassView.annotatedMembers cls).map (fun (m, c) =>
          (m.shape, m.name, m.type?.bind TypeView.name?, c.map CommentView.offset?)) =
        [(.field, "class", some "void", some (some 0xCAFE)),
          (.property, "public", some "get", none),
          (.property, "static", some "ctor", some (some 0xFFFFFFFFFFFFFFFF))] :=
  ⟨by decide +kernel, annotatedMembers_listing keywordListing⟩

end Lossless
