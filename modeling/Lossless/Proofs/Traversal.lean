import Lossless.Node.Walk
import Lossless.Proofs.Occurrences

/-!
# Walks are traversals

A walk keeps a stack of nodes that have been entered and not yet left. What it has still to report
is determined by that stack (`Walker.pending`), each report takes the first of it away
(`Walker.pending_of_next?`), and so a whole walk is the recursive traversal of the tree
(`Node.walk_eq_visits`). The nodes that are entered are those of the pre-order, and the terminals
among them are the tokens of the tree.
-/

namespace Lossless

/-! ## The recursive traversal -/

namespace Node

mutual

/-- The traversal of a tree: the node is entered, its children are traversed, the node is left. -/
def visits : Node → List Visit
  | .token t => [.enter (.token t), .leave (.token t)]
  | .tree k cs => .enter (.tree k cs) :: (visitsIn cs ++ [.leave (.tree k cs)])

def visitsIn : List Node → List Visit
  | [] => []
  | n :: ns => n.visits ++ visitsIn ns

end

theorem visits_eq (n : Node) : n.visits = .enter n :: (visitsIn n.children ++ [.leave n]) := by
  cases n <;> simp [visits, children, visitsIn]

theorem visitsIn_append (as bs : List Node) : visitsIn (as ++ bs) = visitsIn as ++ visitsIn bs := by
  induction as with
  | nil => rfl
  | cons a as ih => simp [visitsIn, ih]

end Node

/-! ## The stack of a walk -/

namespace Walker

/-- What is still to be reported of the nodes that have been entered and not yet left. -/
def pendingIn : List Frame → List Visit
  | [] => []
  | f :: fs => Node.visitsIn f.ahead ++ .leave f.node :: pendingIn fs

/-- What a walk has still to report if it passes over nothing. -/
def pending (w : Walker) : List Visit := (w.start.map Node.visits).getD [] ++ pendingIn w.frames

/-- A report is the first of those that were pending, and the others stay. -/
theorem pending_of_next? {w w' : Walker} {v : Visit} (h : w.next? = some (v, w')) :
    w.pending = v :: w'.pending := by
  obtain ⟨start, frames⟩ := w
  -- The start, a child and the end of the children are the three places a report comes from.
  cases start with
  | some n =>
    simp only [next?, Option.some.injEq, Prod.mk.injEq] at h
    obtain ⟨rfl, rfl⟩ := h
    simp [pending, pendingIn, Node.visits_eq n]
  | none =>
    cases frames with
    | nil => simp [next?] at h
    | cons f fs =>
      obtain ⟨n, ahead⟩ := f
      cases ahead with
      | nil =>
        simp only [next?, Option.some.injEq, Prod.mk.injEq] at h
        obtain ⟨rfl, rfl⟩ := h
        simp [pending, pendingIn, Node.visitsIn]
      | cons c cs =>
        simp only [next?, Option.some.injEq, Prod.mk.injEq] at h
        obtain ⟨rfl, rfl⟩ := h
        simp [pending, pendingIn, Node.visitsIn, Node.visits_eq c]

/-- A walker has nothing to say only when nothing is pending. -/
theorem pending_of_next?_none {w : Walker} (h : w.next? = none) : w.pending = [] := by
  obtain ⟨start, frames⟩ := w
  cases start with
  | some n => simp [next?] at h
  | none =>
    cases frames with
    | nil => rfl
    | cons f fs =>
      obtain ⟨n, ahead⟩ := f
      cases ahead <;> simp [next?] at h

/-- A walk that passes over nothing reports all that is pending. -/
theorem run_eq_pending (w : Walker) (count : Nat) : w.run (fun _ _ => false) count = w.pending := by
  -- Each report leaves one fewer.
  induction hr : w.remaining using Nat.strongRecOn generalizing w count with
  | ind r ih =>
    rw [run]
    split
    · rename_i hnone
      exact (pending_of_next?_none hnone).symm
    · rename_i v w' hnext
      have hlt := remaining_next? hnext
      rw [pending_of_next? hnext]
      exact congrArg (v :: ·) (ih w'.remaining (by omega) w' (count + 1) rfl)

end Walker

namespace Node

/-- A full walk is the recursive traversal. -/
theorem walk_eq_visits (n : Node) : n.walk = n.visits := by
  rw [walk, Walker.run_eq_pending]
  simp [Walker.pending, Walker.new, Walker.pendingIn]

end Node

/-! ## What a walk enters -/

/-- The node that a walk enters. -/
def Visit.entered? : Visit → Option Node
  | .enter n => some n
  | .leave _ => none

/-- The terminal that a walk enters. -/
def Visit.terminal? (v : Visit) : Option Token := v.entered?.bind Node.token?

namespace Node

mutual

theorem entered_visits : (n : Node) → (depth : Nat) →
    n.visits.filterMap Visit.entered? = (n.outlineAt depth).map Prod.snd
  | .token t, depth => rfl
  | .tree k cs, depth => by
    simp [visits, outlineAt, Visit.entered?, entered_visitsIn cs (depth + 1)]

theorem entered_visitsIn : (ns : List Node) → (depth : Nat) →
    (visitsIn ns).filterMap Visit.entered? = (outlineIn depth ns).map Prod.snd
  | [], depth => rfl
  | n :: ns, depth => by
    simp [visitsIn, outlineIn, entered_visits n depth, entered_visitsIn ns depth]

end

/-- A walk enters the nodes of the tree in pre-order. -/
theorem entered_walk (n : Node) : n.walk.filterMap Visit.entered? = n.descendants := by
  rw [walk_eq_visits]
  exact n.entered_visits 0

/-- The terminals that a walk enters are the tokens of the tree. -/
theorem terminals_walk (n : Node) : n.walk.filterMap Visit.terminal? = n.tokens := by
  have hbind : n.walk.filterMap Visit.terminal? =
      (n.walk.filterMap Visit.entered?).filterMap token? := by
    rw [List.filterMap_filterMap]
    rfl
  rw [hbind, entered_walk]
  exact n.tokens_outlineAt 0

/-- The terminals that are passed on a walk are the tokens, in order. -/
theorem terminals_visitsIn (ns : List Node) :
    (visitsIn ns).filterMap Visit.terminal? = tokensIn ns := by
  induction ns with
  | nil => rfl
  | cons n ns ih =>
    rw [visitsIn, List.filterMap_append, ih, ← walk_eq_visits, terminals_walk, tokensIn]

end Node

end Lossless
