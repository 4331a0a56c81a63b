import Lossless.Node.Outline
import Lossless.View.Comment
import Lossless.View.Member

/-!
# Declarations

Units, using directives, namespaces and classes. A class gives its members together with the comment
directly behind each, which is where offsets are annotated.
-/

namespace Lossless

/-- A whole text. -/
abbrev UnitView := View .compilationUnit

abbrev UsingView := View .usingDirective

abbrev NamespaceView := View .namespaceDecl

abbrev ClassView := View .classDecl

namespace UsingView

/-- The dotted name that is used. -/
def path? (u : UsingView) : Option String := u.node.name?

/-- The word in front of the equals sign. -/
def alias? (u : UsingView) : Option String :=
  if u.node.hasKind .equals then (u.node.children[1]?).bind Node.text? else none

end UsingView

namespace ClassView

/-- All in front of the block, a comment excepted. -/
def statement? (c : ClassView) : Option Node := c.node.firstOfKind? .classStatement

/-- The block in its braces. -/
def block? (c : ClassView) : Option Node := c.node.firstOfKind? .classBlock

/-- The word behind `class`, which is itself the first word of the statement. -/
def name? (c : ClassView) : Option String :=
  c.statement?.bind fun s => ((s.allOfKind .ident)[1]?).bind Node.text?

/-- The words that say from where the class can be used. -/
def accessors (c : ClassView) : List String :=
  match c.statement? with
  | some s => (s.allOfKind .accessor).filterMap Node.text?
  | none => []

/-- Whether the statement has a modifier of a kind. -/
def hasModifier (c : ClassView) (k : Kind) : Bool := c.statement?.any (·.hasKind k)

def isAbstract (c : ClassView) : Bool := c.hasModifier .abstractMod

def isSealed (c : ClassView) : Bool := c.hasModifier .sealedMod

def isStatic (c : ClassView) : Bool := c.hasModifier .staticMod

/-- The list of type parameters. -/
def genericParams? (c : ClassView) : Option Node := c.statement?.bind (·.firstOfKind? .genericArgs)

/-- The types behind the colon. -/
def baseTypes (c : ClassView) : List TypeView :=
  match c.statement?.bind (·.firstOfKind? .classInheritance) with
  | some bases => bases.views .typeRef
  | none => []

/-- The comment between the statement and the block. -/
def comment? (c : ClassView) : Option CommentView := (c.node.views .comment).head?

/-- The nodes of the block, braces included. -/
def items (c : ClassView) : List Node := (c.block?.map Node.children).getD []

/-- The members in order, nested classes excepted. -/
def members (c : ClassView) : List Member := c.items.filterMap Member.of?

/-- The classes declared directly in the block. -/
def nestedClasses (c : ClassView) : List ClassView := c.items.filterMap (Node.view? .classDecl)

/-- The members among some nodes, each with the comment directly behind it. -/
def annotate : List Node → List (Member × Option CommentView)
  | [] => []
  | n :: ns =>
    match Member.of? n with
    | some m => (m, ns.head?.bind (Node.view? .comment)) :: annotate ns
    | none => annotate ns

/-- The members of the class, each with the comment directly behind it. -/
def annotatedMembers (c : ClassView) : List (Member × Option CommentView) := annotate c.items

end ClassView

namespace NamespaceView

/-- The dotted name of the namespace. -/
def name? (n : NamespaceView) : Option String :=
  (n.node.firstOfKind? .namespaceStatement).bind Node.name?

/-- The classes declared directly in the namespace. -/
def classes (n : NamespaceView) : List ClassView := n.node.views .classDecl

/-- The attributes directly in the namespace. -/
def attributes (n : NamespaceView) : List AttributeView := n.node.views .attributeSection

/-- The line comments directly in the namespace. -/
def comments (n : NamespaceView) : List CommentView := n.node.views .comment

end NamespaceView

namespace UnitView

/-- The using directives outside all namespaces. -/
def usings (u : UnitView) : List UsingView := u.node.views .usingDirective

/-- The namespaces that stand in no other. -/
def namespaces (u : UnitView) : List NamespaceView := u.node.views .namespaceDecl

/-- The classes that stand in no namespace and no other class. -/
def classes (u : UnitView) : List ClassView := u.node.views .classDecl

/-- Every class of the unit, in the order in which they begin. -/
def allClasses (u : UnitView) : List ClassView :=
  u.node.descendants.filterMap (Node.view? .classDecl)

end UnitView

/-! ## Any view -/

/-- The view of a node that has one. -/
inductive AnyView where
  | unit (v : UnitView)
  | usingDirective (v : UsingView)
  | namespaceDecl (v : NamespaceView)
  | classDecl (v : ClassView)
  | comment (v : CommentView)
  | attributeSection (v : AttributeView)
  | parameter (v : ParameterView)
  | typeRef (v : TypeView)
  | member (v : Member)

/-- The view that belongs to the kind of a node. -/
def Node.anyView? (n : Node) : Option AnyView :=
  ((n.view? _).map AnyView.unit).or <|
  ((n.view? _).map AnyView.usingDirective).or <|
  ((n.view? _).map AnyView.namespaceDecl).or <|
  ((n.view? _).map AnyView.classDecl).or <|
  ((n.view? _).map AnyView.comment).or <|
  ((n.view? _).map AnyView.attributeSection).or <|
  ((n.view? _).map AnyView.parameter).or <|
  ((n.view? _).map AnyView.typeRef).or <|
  (Member.of? n).map AnyView.member

end Lossless
