import Lossless.Node
import Lossless.Text.Quoted

/-!
# Outlines

The nodes of a tree in pre-order, each with its depth, and the printed form of that list: one node
per line, indented by its depth, with its kind and, for a terminal, its quoted text. Blanks and
values are not printed.
-/

namespace Lossless.Node

mutual

/-- This node and all below it in pre-order, with their depths. -/
def outlineAt (depth : Nat) : Node → List (Nat × Node)
  | .token t => [(depth, .token t)]
  | .tree k cs => (depth, .tree k cs) :: outlineIn (depth + 1) cs

def outlineIn (depth : Nat) : List Node → List (Nat × Node)
  | [] => []
  | n :: ns => n.outlineAt depth ++ outlineIn depth ns

end

/-- The nodes of the tree in pre-order; the root has depth zero. -/
def outline (n : Node) : List (Nat × Node) := n.outlineAt 0

/-- This node and all below it in pre-order. -/
def descendants (n : Node) : List Node := n.outline.map Prod.snd

/-- One line of the printed outline. -/
def outlineLine (depth : Nat) (n : Node) : List Char :=
  List.replicate (2 * depth) ' ' ++ n.kind.name.toList ++
    (match n.text? with
      | some text => ' ' :: Text.quoted text.toList
      | none => []) ++ ['\n']

/-- The printed outline of the tree. -/
def dump (n : Node) : String :=
  String.ofList (n.outline.flatMap fun (depth, node) => outlineLine depth node)

end Lossless.Node
