import Mathlib.Computability.RegularExpressions
import Mathlib.Order.CompletePartialOrder
import Lossless.Node.Outline

/-!
# The schema of trees

For every kind of non-terminal a regular expression says which children a node of that kind has, in
order. A child counts as a symbol: a terminal by its kind, a non-terminal by its kind, and the word
`class` by itself, since a class statement is told from its parts by that word. `content` is the
whole schema. A kind that it does not list has no nodes over children, so the schema is closed, and
whether a tree obeys it is computed.
-/

namespace Lossless

/-! ## Symbols -/

/-- What the schema sees of a node. -/
inductive Symbol where
  | terminal (kind : Kind)
  /-- The word `class`. -/
  | classWord
  | tree (kind : Kind)
deriving DecidableEq, Repr

/-- The symbol of a node among the children of another. -/
def Node.symbol : Node → Symbol
  | .token t => if t.kind = .ident ∧ t.text = "class" then .classWord else .terminal t.kind
  | .tree k _ => .tree k

namespace Kind

/-- Whether a terminal of a text can be of this kind. -/
def isLexical (k : Kind) : Bool := k.number ≤ Kind.endOfInput.number

/-- The kinds of the terminals of a text. -/
def lexical : List Kind := all.filter isLexical

/-- The kinds that the grammar gives to terminals itself: those of modifiers and of the text of a
comment. -/
def tags : List Kind :=
  [.accessor, .abstractMod, .sealedMod, .staticMod, .overrideMod, .readonlyMod, .virtualMod,
   .constMod, .externMod, .outMod, .refMod, .commentText]

/-- Whether a terminal of a tree can be of this kind. -/
def isTerminal (k : Kind) : Bool := k.isLexical || tags.contains k

end Kind

/-! ## Patterns -/

/-- A regular expression over the symbols of children. -/
abbrev Pattern := RegularExpression Symbol

namespace Pattern

open RegularExpression

/-- A terminal of a kind. The word `class` is a word like any other. -/
def terminal (k : Kind) : Pattern :=
  if k = .ident then char (.terminal .ident) + char .classWord else char (.terminal k)

def tree (k : Kind) : Pattern := char (.tree k)

/-- A terminal of one of the given kinds. -/
def oneOf (ks : List Kind) : Pattern := (ks.map terminal).sum

/-- A non-terminal of one of the given kinds. -/
def treeOf (ks : List Kind) : Pattern := (ks.map tree).sum

/-- A terminal of a text of any kind but the given ones. -/
def anyBut (ks : List Kind) : Pattern := oneOf (Kind.lexical.filter fun k => !ks.contains k)

def optional (p : Pattern) : Pattern := 1 + p

/-- Any number of things with commas between them. A comma may stand behind the last one. -/
def separated (p : Pattern) : Pattern := (p * terminal .comma).star * optional p

end Pattern

/-! ## The schema -/

namespace Schema

open RegularExpression Pattern

/-- What a unit and a namespace are made of. -/
def item : Pattern :=
  treeOf [.usingDirective, .namespaceDecl, .classDecl, .attributeSection, .comment, .blockComment]

/-- Words joined by points. -/
def dotted : Pattern := terminal .ident * (terminal .dot * terminal .ident).star

/-- A single literal or word. -/
def literal : Pattern := oneOf [.stringLit, .numberLit, .ident]

/-- A value of an attribute: a literal or a name. -/
def value : Pattern := oneOf [.stringLit, .numberLit] + dotted

/-- An argument of an attribute: a value, or a value that is assigned to another. -/
def argument : Pattern := optional (value * terminal .equals) * value

/-- The words in front of `class`. -/
def classModifiers : Pattern := (oneOf [.accessor, .abstractMod, .sealedMod, .staticMod]).star

/-- The accessors of a member and then its modifiers. -/
def header : Pattern :=
  (terminal .accessor).star *
    (oneOf [.overrideMod, .staticMod, .readonlyMod, .abstractMod, .sealedMod, .virtualMod,
      .constMod, .externMod]).star

/-- A part of a member name. -/
def namePart : Pattern := oneOf [.ident, .less, .greater]

/-- What stands between a mark and the first closing mark behind it. -/
def upTo (mark : Kind) : Pattern := (anyBut [mark, .endOfInput]).star

/-- The parameters of a method and the call of another constructor. -/
def signature : Pattern :=
  terminal .leftParen * separated (tree .parameter) * terminal .rightParen *
    optional (tree .ctorInitializer)

/-- The members of a class. -/
def memberKinds : List Kind := [.field, .property, .method, .ctor]

/-- The children of a node of each kind, in order. -/
def content : Kind → Pattern
  | .compilationUnit =>
    (item + anyBut [.ident, .doubleSlash, .blockCommentStart, .leftBracket, .endOfInput]).star *
      terminal .endOfInput
  | .usingDirective =>
    terminal .ident * optional (terminal .staticMod + terminal .ident * terminal .equals) *
      tree .qualifiedName * terminal .semicolon
  | .qualifiedName => dotted
  | .namespaceDecl =>
    tree .namespaceStatement * terminal .leftBrace * (item + anyBut [.endOfInput]).star *
      terminal .rightBrace
  | .namespaceStatement => terminal .ident * tree .qualifiedName
  | .classDecl => tree .classStatement * optional (tree .comment) * tree .classBlock
  | .classStatement =>
    classModifiers * char .classWord * terminal .ident * optional (tree .genericArgs) *
      optional (tree .classInheritance)
  | .classInheritance =>
    terminal .colon * tree .typeRef * (terminal .comma * tree .typeRef).star
  | .classBlock =>
    terminal .leftBrace *
      (treeOf [.comment, .blockComment, .attributeSection, .classDecl] + treeOf memberKinds).star *
      terminal .rightBrace
  | .attributeSection =>
    terminal .leftBracket * tree .qualifiedName * optional (tree .attributeArgs) *
      terminal .rightBracket
  | .attributeArgs => terminal .leftParen * separated argument * terminal .rightParen
  | .field =>
    header * tree .typeRef * tree .memberName * optional (tree .fieldInitializer) *
      terminal .semicolon
  | .property => header * tree .typeRef * tree .memberName * tree .propertyBody
  | .method => header * tree .typeRef * tree .memberName * tree .methodBody
  | .ctor => header * optional (tree .typeRef) * tree .memberName * tree .methodBody
  | .memberName => namePart * namePart.star
  | .parameter =>
    optional (oneOf [.outMod, .refMod]) * tree .typeRef * terminal .ident *
      optional (tree .parameterDefault)
  | .parameterDefault => terminal .equals * literal
  | .typeRef =>
    (tree .tupleType + tree .qualifiedName * optional (tree .genericArgs)) *
      optional (tree .arrayType)
  | .tupleType => terminal .leftParen * separated (tree .typeRef) * terminal .rightParen
  | .genericArgs => terminal .less * separated (tree .typeRef) * terminal .greater
  | .arrayType => terminal .leftBracket * terminal .rightBracket
  | .fieldInitializer => terminal .equals * upTo .semicolon
  | .propertyBody => terminal .leftBrace * upTo .rightBrace * terminal .rightBrace
  | .methodBody =>
    signature *
      (terminal .semicolon + terminal .leftBrace * upTo .rightBrace * terminal .rightBrace)
  | .ctorInitializer =>
    terminal .colon * terminal .ident * terminal .leftParen * separated literal *
      terminal .rightParen
  | .comment => terminal .doubleSlash * optional (terminal .commentText)
  | .blockComment =>
    terminal .blockCommentStart * upTo .blockCommentEnd * terminal .blockCommentEnd
  | _ => 0

end Schema

namespace Node

/-- What the schema asks of a node by itself. -/
def Obeys : Node → Prop
  | .token t => t.kind.isTerminal = true
  | .tree k cs => cs.map symbol ∈ (Schema.content k).matches'

instance : DecidablePred Obeys
  | .token t => inferInstanceAs (Decidable (t.kind.isTerminal = true))
  | .tree k cs => inferInstanceAs (Decidable (cs.map symbol ∈ (Schema.content k).matches'))

/-- A tree obeys the schema at every node. -/
def Conforms (n : Node) : Prop := ∀ m ∈ n.descendants, m.Obeys

instance : DecidablePred Conforms := fun n =>
  inferInstanceAs (Decidable (∀ m ∈ n.descendants, m.Obeys))

end Node

/-! ## Patterns that fit into others -/

namespace Pattern

open RegularExpression Computability

/-- All that matches the first pattern matches the second. -/
def Fits (p q : Pattern) : Prop := p.matches' ≤ q.matches'

namespace Fits

variable {p p' q q' r : Pattern}

theorem refl (p : Pattern) : Fits p p := le_refl p.matches'

theorem trans (h₁ : Fits p q) (h₂ : Fits q r) : Fits p r := le_trans h₁ h₂

theorem mul (h : Fits p q) (h' : Fits p' q') : Fits (p * p') (q * q') := by
  simp only [Fits, matches'_mul]
  exact mul_le_mul' h h'

theorem unit (h : Fits p q) : Fits (1 * p) q := by
  simpa only [Fits, matches'_mul, matches'_epsilon, one_mul] using h

/-- Two things in a row may be seen as one. -/
theorem group (h : Fits (p * (p' * q')) q) : Fits (p * p' * q') q := by
  simpa only [Fits, matches'_mul, mul_assoc] using h

/-- Two things in a row may be seen as one, also where they are asked for. -/
theorem regroup (h : Fits p (q * q' * r)) : Fits p (q * (q' * r)) := by
  simpa only [Fits, matches'_mul, mul_assoc] using h

theorem ungroup (h : Fits (p * p' * q') q) : Fits (p * (p' * q')) q := by
  simpa only [Fits, matches'_mul, mul_assoc] using h

theorem left (h : Fits p q) : Fits p (q + r) := by
  simp only [Fits, matches'_add]
  exact le_trans h le_sup_left

theorem right (h : Fits p r) : Fits p (q + r) := by
  simp only [Fits, matches'_add]
  exact le_trans h le_sup_right

theorem none (q : Pattern) : Fits 1 (optional q) := left (refl 1)

theorem some (h : Fits p q) : Fits p (optional q) := right h

theorem skip (h : Fits p q) : Fits p (q * optional r) := by
  have hone : Fits (p * 1) (q * optional r) := mul h (none r)
  simpa only [Fits, matches'_mul, matches'_epsilon, mul_one] using hone

theorem skipped (h : Fits p q) : Fits p (optional r * q) := by
  have hone : Fits (1 * p) (optional r * q) := mul (none r) h
  simpa only [Fits, matches'_mul, matches'_epsilon, one_mul] using hone

theorem nil (r : Pattern) : Fits 1 r.star := by
  simp only [Fits, matches'_epsilon, matches'_star]
  exact one_le_kstar

/-- A repetition takes one more at its end. -/
theorem snoc (h : Fits p r.star) (h' : Fits p' r) : Fits (p * p') r.star := by
  have hmul := mul h h'
  simp only [Fits, matches'_mul, matches'_star] at hmul ⊢
  exact le_trans hmul kstar_mul_le_kstar

/-- Behind what has been there, no repetition has come yet. -/
theorem start (h : Fits p q) : Fits p (q * r.star) := by
  have hone : Fits (p * 1) (q * r.star) := mul h (nil r)
  simpa only [Fits, matches'_mul, matches'_epsilon, mul_one] using hone

/-- One more repetition. -/
theorem more (h : Fits p (q * r.star)) (h' : Fits p' r) : Fits (p * p') (q * r.star) := by
  have hmul := mul h h'
  simp only [Fits, matches'_mul, matches'_star] at hmul ⊢
  refine le_trans hmul ?_
  rw [mul_assoc]
  exact mul_le_mul' le_rfl kstar_mul_le_kstar

theorem of_add_mul (h : Fits (p * r) q) (h' : Fits (p' * r) q) : Fits ((p + p') * r) q := by
  simp only [Fits, matches'_mul, matches'_add, add_mul] at h h' ⊢
  exact sup_le h h'

theorem of_zero_mul (p q : Pattern) : Fits (0 * p) q := by
  simp [Fits]

/-- A pattern fits a choice it is one of. -/
theorem sum_of_mem {ps : List Pattern} (h : p ∈ ps) : Fits p ps.sum := by
  induction ps with
  | nil => exact absurd h List.not_mem_nil
  | cons a ps ih =>
    rw [List.sum_cons]
    rcases List.mem_cons.1 h with rfl | h
    · exact left (refl p)
    · exact right (ih h)

theorem oneOf {k : Kind} {ks : List Kind} (h : k ∈ ks) : Fits (terminal k) (oneOf ks) :=
  sum_of_mem (List.mem_map_of_mem h)

theorem treeOf {k : Kind} {ks : List Kind} (h : k ∈ ks) : Fits (tree k) (treeOf ks) :=
  sum_of_mem (List.mem_map_of_mem h)

theorem anyBut {k : Kind} {ks : List Kind} (hk : k.isLexical = true) (h : k ∉ ks) :
    Fits (terminal k) (anyBut ks) := by
  apply oneOf
  simp [Kind.lexical, Kind.mem_all, hk, h]

end Fits

/-- The symbol of a token is one of its kind. -/
theorem fits_token (t : Token) : Fits (char (Node.token t).symbol) (terminal t.kind) := by
  by_cases hk : t.kind = .ident
  · by_cases hw : t.text = "class"
    · simp only [Node.symbol, terminal, hk, hw, and_self, if_true]
      exact .right (.refl _)
    · simp only [Node.symbol, terminal, hk, hw, and_false, if_true, if_false]
      exact .left (.refl _)
  · simp only [Node.symbol, terminal, hk, false_and, if_false]
    exact .refl _

end Pattern

/-! ## Trees that conform -/

namespace Node

mutual

/-- The depth at which an outline starts has no influence on its nodes. -/
theorem map_snd_outlineAt : (n : Node) → (depth : Nat) →
    (n.outlineAt depth).map Prod.snd = n.descendants
  | .token t, depth => by simp [descendants, outline, outlineAt]
  | .tree k cs, depth => by
    simp only [descendants, outline, outlineAt, List.map_cons]
    rw [map_snd_outlineIn cs (depth + 1), map_snd_outlineIn cs (0 + 1)]

theorem map_snd_outlineIn : (ns : List Node) → (depth : Nat) →
    (outlineIn depth ns).map Prod.snd = ns.flatMap descendants
  | [], depth => by simp [outlineIn]
  | n :: ns, depth => by
    rw [outlineIn, List.map_append, map_snd_outlineAt n depth, map_snd_outlineIn ns depth,
      List.flatMap_cons]

end

theorem conforms_token {t : Token} : (Node.token t).Conforms ↔ t.kind.isTerminal = true := by
  simp [Conforms, descendants, outline, outlineAt, Obeys]

/-- A tree conforms when the symbols of its children match the content of its kind and each child
conforms. -/
theorem conforms_tree {k : Kind} {cs : List Node} :
    (Node.tree k cs).Conforms ↔
      cs.map symbol ∈ (Schema.content k).matches' ∧ ∀ c ∈ cs, c.Conforms := by
  simp only [Conforms, descendants, outline, outlineAt, List.map_cons, map_snd_outlineIn]
  simp only [List.forall_mem_cons, Obeys, List.forall_mem_flatMap]
  rfl

end Node

end Lossless
