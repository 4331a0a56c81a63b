import Lossless.Node

/-!
# Walks

A walk goes through a tree depth first and reports each node twice, when it is entered and when it
is left. Between two reports the walker may be told to pass over the children, not yet entered, of
the node it is in.
-/

namespace Lossless

/-- What a walk reports. -/
inductive Visit where
  | enter (node : Node)
  | leave (node : Node)
deriving DecidableEq, Repr

/-- A node that has been entered and not yet left, with its children still to be entered. -/
structure Frame where
  node : Node
  ahead : List Node
deriving DecidableEq, Repr

/-- A walk in progress: the node at which it will start, as long as it has not, and the nodes that
have been entered and not yet left, the innermost first. -/
structure Walker where
  start : Option Node
  frames : List Frame
deriving DecidableEq, Repr

namespace Walker

/-- A walk that has not yet started. -/
def new (n : Node) : Walker := ⟨some n, []⟩

/-- Passes over the children, not yet entered, of the innermost node. -/
def skip (w : Walker) : Walker :=
  match w.frames with
  | [] => w
  | f :: fs => { w with frames := { f with ahead := [] } :: fs }

/-- The next report, if the walk is not over. -/
def next? (w : Walker) : Option (Visit × Walker) :=
  match w.start with
  | some n => some (.enter n, ⟨none, ⟨n, n.children⟩ :: w.frames⟩)
  | none =>
    match w.frames with
    | [] => none
    | ⟨n, []⟩ :: fs => some (.leave n, ⟨none, fs⟩)
    | ⟨n, c :: cs⟩ :: fs => some (.enter c, ⟨none, ⟨c, c.children⟩ :: ⟨n, cs⟩ :: fs⟩)

end Walker

namespace Node

mutual

/-- The number of nodes of the tree. -/
def size : Node → Nat
  | .token _ => 1
  | .tree _ cs => 1 + sizeIn cs

def sizeIn : List Node → Nat
  | [] => 0
  | n :: ns => n.size + sizeIn ns

end

/-- A tree has one node more than its children have together. -/
theorem size_eq (n : Node) : n.size = 1 + sizeIn n.children := by
  cases n <;> simp [size, children, sizeIn]

end Node

namespace Walker

/-- How many reports a walk can still make. -/
def remaining (w : Walker) : Nat :=
  (w.start.map fun n => 2 * n.size).getD 0 +
    w.frames.foldr (fun f n => 1 + 2 * Node.sizeIn f.ahead + n) 0

/-- Each report uses up one of those that remain. -/
theorem remaining_next? {w w' : Walker} {v : Visit} (h : w.next? = some (v, w')) :
    w'.remaining + 1 = w.remaining := by
  obtain ⟨start, frames⟩ := w
  -- A walker at its start has the whole tree before it; otherwise the top frame decides.
  cases start with
  | some n =>
    simp only [next?, Option.some.injEq, Prod.mk.injEq] at h
    obtain ⟨-, rfl⟩ := h
    simp [remaining, Node.size_eq n]
    omega
  | none =>
    match frames with
    | [] => simp [next?] at h
    | ⟨n, []⟩ :: fs =>
      simp only [next?, Option.some.injEq, Prod.mk.injEq] at h
      obtain ⟨-, rfl⟩ := h
      simp [remaining, Node.sizeIn]
      omega
    | ⟨n, c :: cs⟩ :: fs =>
      simp only [next?, Option.some.injEq, Prod.mk.injEq] at h
      obtain ⟨-, rfl⟩ := h
      simp [remaining, Node.sizeIn, Node.size_eq c]
      omega

/-- Passing over children leaves no more reports than before. -/
theorem remaining_skip_le (w : Walker) : w.skip.remaining ≤ w.remaining := by
  obtain ⟨start, frames⟩ := w
  cases frames with
  | nil => simp [skip]
  | cons f fs =>
    simp only [skip, remaining, List.foldr_cons, Node.sizeIn]
    omega

/-- Runs a walk to its end. After each report the walker passes over children if `pass` says so,
which is asked with the number of the report, counted from `count`, and the report itself. -/
def run (pass : Nat → Visit → Bool) (count : Nat) (w : Walker) : List Visit :=
  match h : w.next? with
  | none => []
  | some (v, w') => v :: run pass (count + 1) (if pass count v then w'.skip else w')
termination_by w.remaining
decreasing_by
  have hn := remaining_next? h
  have hs := remaining_skip_le w'
  split <;> omega

end Walker

/-- The full walk of a tree: each node is entered, then its children are walked, then it is left. -/
def Node.walk (n : Node) : List Visit := (Walker.new n).run (fun _ _ => false) 0

end Lossless
