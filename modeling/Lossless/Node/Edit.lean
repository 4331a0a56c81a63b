import Lossless.Node

/-!
# Edits

Children are inserted, appended and removed by index, and a node deep in a tree is reached by a
path. An edit that cannot be made is refused with its cause and changes nothing. An edit at the end
of a path leaves every other node as it was.
-/

namespace Lossless

/-- Why an edit of a list of children is refused. -/
inductive EditError where
  /-- The node is a terminal of this kind. -/
  | terminal (kind : Kind)
  | insertion (index length : Nat)
  | removal (index length : Nat)
deriving DecidableEq, Repr

def EditError.message : EditError → String
  | .terminal kind => s!"`{kind.name}` is a terminal and cannot own children"
  | .insertion index length => s!"insertion index (is {index}) should be <= len (is {length})"
  | .removal index length => s!"removal index (is {index}) should be < len (is {length})"

/-- One step down a tree: to a child by its index, or to the first child of a kind. -/
inductive PathStep where
  | index (i : Nat)
  | first (kind : Kind)
deriving DecidableEq, Repr

namespace Node

/-! ## Children -/

/-- Puts a child in front of the child with the given index, or behind the last one. -/
def insertChild (n : Node) (i : Nat) (child : Node) : Except EditError Node :=
  match n with
  | .token t => .error (.terminal t.kind)
  | .tree k cs =>
    if i ≤ cs.length then .ok (.tree k (cs.take i ++ child :: cs.drop i))
    else .error (.insertion i cs.length)

/-- Puts a child behind the last one. -/
def pushChild (n : Node) (child : Node) : Except EditError Node :=
  match n with
  | .token t => .error (.terminal t.kind)
  | .tree k cs => .ok (.tree k (cs ++ [child]))

/-- Takes a child out and gives it back with the node that is left. -/
def removeChild (n : Node) (i : Nat) : Except EditError (Node × Node) :=
  match n with
  | .token t => .error (.terminal t.kind)
  | .tree k cs =>
    match cs[i]? with
    | some child => .ok (child, .tree k (cs.eraseIdx i))
    | none => .error (.removal i cs.length)

/-! ## Paths -/

/-- The index of the child that a step leads to. -/
def resolve? (n : Node) : PathStep → Option Nat
  | .index i => if i < n.children.length then some i else none
  | .first k => n.positionOfKind? k

/-- The node at the end of a path. -/
def get? (n : Node) : List PathStep → Option Node
  | [] => some n
  | s :: path => do
    let i ← n.resolve? s
    let child ← n.children[i]?
    child.get? path

/-- Replaces the children of a non-terminal; a terminal stays as it is. -/
def withChildren (n : Node) (cs : List Node) : Node :=
  match n with
  | .token t => .token t
  | .tree k _ => .tree k cs

/-- The tree with the node at the end of a path replaced, if the path leads to a node. -/
def set? (n : Node) (path : List PathStep) (new : Node) : Option Node :=
  match path with
  | [] => some new
  | s :: path => do
    let i ← n.resolve? s
    let child ← n.children[i]?
    let child' ← child.set? path new
    some (n.withChildren (n.children.set i child'))

end Node

end Lossless
