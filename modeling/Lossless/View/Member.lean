import Lossless.View.Type

/-!
# Members

The members of a class come in four shapes: fields, properties, methods and constructors. Methods
and constructors have parameters.
-/

namespace Lossless

/-! ## Parameters -/

abbrev ParameterView := View .parameter

namespace ParameterView

/-- Whether the parameter is marked with `out`. -/
def isOut (p : ParameterView) : Bool := p.node.hasKind .outMod

/-- The type of the parameter. -/
def type? (p : ParameterView) : Option TypeView := (p.node.views .typeRef).head?

/-- The name of the parameter. -/
def name? (p : ParameterView) : Option String := (p.node.firstOfKind? .ident).bind Node.text?

/-- The value behind the equals sign. -/
def default? (p : ParameterView) : Option Node :=
  (p.node.firstOfKind? .parameterDefault).bind fun d => d.children[1]?

end ParameterView

/-! ## Members -/

/-- The four shapes of a member. -/
inductive MemberShape where
  | field
  | property
  | method
  | ctor
deriving DecidableEq, Repr

/-- The kind of a member of a given shape. -/
def MemberShape.kind : MemberShape → Kind
  | .field => .field
  | .property => .property
  | .method => .method
  | .ctor => .ctor

/-- The kind of the body that a member of a given shape can have. -/
def MemberShape.bodyKind : MemberShape → Kind
  | .field => .fieldInitializer
  | .property => .propertyBody
  | .method | .ctor => .methodBody

/-- A node that is a member of a class. -/
structure Member where
  shape : MemberShape
  node : Node
  kind_eq : node.kind = shape.kind

namespace Member

/-- The view of a node as a member. -/
def of? (n : Node) : Option Member :=
  if h : n.kind = .field then some ⟨.field, n, h⟩
  else if h : n.kind = .property then some ⟨.property, n, h⟩
  else if h : n.kind = .method then some ⟨.method, n, h⟩
  else if h : n.kind = .ctor then some ⟨.ctor, n, h⟩
  else none

/-- The name without blanks around it. A constructor that is written with a point keeps the blanks
inside its mark. -/
def name (m : Member) : String := ((m.node.firstOfKind? .memberName).map Node.trimmedText).getD ""

/-- The declared type, or the type of what a method returns. -/
def type? (m : Member) : Option TypeView := (m.node.views .typeRef).head?

/-- The words that say from where the member can be used. -/
def accessors (m : Member) : List String := (m.node.allOfKind .accessor).filterMap Node.text?

/-- Whether the member has a modifier of a kind. -/
def hasModifier (m : Member) (k : Kind) : Bool := m.node.hasKind k

/-- The parameters of a method or constructor. -/
def parameters (m : Member) : List ParameterView :=
  ((m.node.firstOfKind? .methodBody).map (Node.views .parameter)).getD []

/-- The body, or the initializer of a field. -/
def body? (m : Member) : Option Node := m.node.firstOfKind? m.shape.bodyKind

end Member

end Lossless
