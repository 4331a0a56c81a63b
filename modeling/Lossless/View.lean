import Lossless.Node

/-!
# Views

A view is a node that is known to have a certain kind, and gives names to the parts that a node of
that kind has. It holds nothing but the node, so it can always be taken again after an edit. Where a
part is missing, as in a tree that was built by hand, the view says so.
-/

namespace Lossless

/-- A node of a given kind. -/
structure View (kind : Kind) where
  node : Node
  kind_eq : node.kind = kind

namespace Node

/-- The view of a node as one of the given kind. -/
def view? (k : Kind) (n : Node) : Option (View k) :=
  if h : n.kind = k then some ⟨n, h⟩ else none

/-- The children that are of the given kind. -/
def views (k : Kind) (n : Node) : List (View k) := n.children.filterMap (view? k)

/-- The dotted name among the children, without blanks. -/
def name? (n : Node) : Option String := (n.firstOfKind? .qualifiedName).map trimmedText

end Node

end Lossless
