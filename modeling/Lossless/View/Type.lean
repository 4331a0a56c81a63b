import Lossless.View

/-!
# Types

A type is a name, with or without type arguments, or a tuple, and either can be an array. A view
gives the parts one level at a time; a shape holds all levels as a value.
-/

namespace Lossless

abbrev TypeView := View .typeRef

/-- What a type is made of: the elements if it is a tuple, its name if it has one, the type
arguments, and whether it is an array. -/
inductive TypeShape where
  | mk (isTuple isArray : Bool) (name : Option String) (elements args : List TypeShape)
deriving Repr, Inhabited

namespace TypeShape

mutual

/-- The shape of a type, read off its node. -/
def ofNode : Node → TypeShape
  | .token _ => .mk false false none [] []
  | .tree k cs =>
    .mk ((Node.tree k cs).hasKind .tupleType) ((Node.tree k cs).hasKind .arrayType)
      (Node.tree k cs).name? (inFirst .tupleType cs) (inFirst .genericArgs cs)

/-- The shapes of the types among some nodes. -/
def ofNodes : List Node → List TypeShape
  | [] => []
  | n :: ns => if n.kind = .typeRef then ofNode n :: ofNodes ns else ofNodes ns

/-- The shapes of the types below the first node of a kind. -/
def inFirst (k : Kind) : List Node → List TypeShape
  | [] => []
  | .token t :: ns => if t.kind = k then [] else inFirst k ns
  | .tree j cs :: ns => if j = k then ofNodes cs else inFirst k ns

end

end TypeShape

namespace TypeView

/-- Whether the type is a tuple, or an array of tuples. -/
def isTuple (t : TypeView) : Bool := t.node.hasKind .tupleType

/-- Whether an array mark follows. -/
def isArray (t : TypeView) : Bool := t.node.hasKind .arrayType

/-- The dotted name of a type that is no tuple. -/
def name? (t : TypeView) : Option String := t.node.name?

/-- The types of the elements of a tuple. -/
def tupleElements (t : TypeView) : List TypeView :=
  ((t.node.firstOfKind? .tupleType).map (Node.views .typeRef)).getD []

/-- The type arguments of a name. -/
def genericArgs (t : TypeView) : List TypeView :=
  ((t.node.firstOfKind? .genericArgs).map (Node.views .typeRef)).getD []

/-- The whole shape of the type. -/
def shape (t : TypeView) : TypeShape := TypeShape.ofNode t.node

end TypeView

end Lossless
