import Lossless.Proofs.Schema
import Lossless.Proofs.Traversal

/-!
# Walks that pass over children

Between two reports a walker can be told to pass over the children, not yet entered, of the node it
is in: as often as one likes, and also before the first report and behind the last one. What it
reports is then the traversal of what is left of the tree when these children are removed from it
each time (`Pruned.cut`).

* `Walker.Stands`: the state of a walk, tied to what is left of the tree and to the number of
  reports that have been asked for; `Stands.skip` and `Stands.next?` keep it;
* `Walker.answers_of_stands`: whatever calls are made, the reports are the traversal of what they
  leave of the tree.
-/

namespace Lossless

/-! ## Trees that have lost children -/

/-- What is left of a tree: a node of it, with what is left of those of its children that have not
been removed. -/
inductive Pruned where
  | node (whole : Node) (children : List Pruned)

namespace Pruned

mutual

/-- A tree of which everything is left. -/
def full : Node → Pruned
  | .token t => .node (.token t) []
  | .tree k cs => .node (.tree k cs) (fullIn cs)

def fullIn : List Node → List Pruned
  | [] => []
  | n :: ns => full n :: fullIn ns

end

theorem full_eq (n : Node) : full n = .node n (fullIn n.children) := by
  cases n <;> simp [full, fullIn, Node.children]

mutual

/-- The traversal of what is left of a tree. -/
def visits : Pruned → List Visit
  | .node n ps => .enter n :: (visitsIn ps ++ [.leave n])

def visitsIn : List Pruned → List Visit
  | [] => []
  | p :: ps => p.visits ++ visitsIn ps

end

mutual

/-- Removes the children, not yet entered, of the innermost node that has been entered and not yet
left behind the first `count` reports of the traversal. If there is no such node, nothing is
removed. -/
def cut : (count : Nat) → Pruned → Pruned
  | 0, p => p
  | count + 1, .node n ps => .node n (cutIn count ps)

/-- Removes them from the children of a node that has been entered, behind the first `count` reports
on these children. Where none of the remaining children has been entered, that node is the innermost
one. -/
def cutIn : (count : Nat) → List Pruned → List Pruned
  | _, [] => []
  | count, p :: ps =>
    if count = 0 then []
    else if count < p.visits.length then p.cut count :: ps
    else p :: cutIn (count - p.visits.length) ps

end

theorem visitsIn_append (ps qs : List Pruned) :
    visitsIn (ps ++ qs) = visitsIn ps ++ visitsIn qs := by
  induction ps with
  | nil => rfl
  | cons p ps ih => simp [visitsIn, ih]

theorem length_visits (n : Node) (ps : List Pruned) :
    (visits (.node n ps)).length = (visitsIn ps).length + 2 := by
  simp [visits]

/-- The visits of a node are counted around one of its children. -/
theorem length_visits_around (n : Node) (ps qs : List Pruned) (p : Pruned) :
    (visits (.node n (ps ++ p :: qs))).length =
      (visitsIn ps).length + p.visits.length + (visitsIn qs).length + 2 := by
  rw [length_visits, visitsIn_append, visitsIn, List.length_append, List.length_append]
  omega

theorem length_visits_pos (p : Pruned) : 0 < p.visits.length := by
  cases p with
  | node n ps =>
    rw [length_visits]
    omega

mutual

theorem visits_full : (n : Node) → (full n).visits = n.visits
  | .token t => rfl
  | .tree k cs => by simp [full, visits, Node.visits, visitsIn_fullIn cs]

theorem visitsIn_fullIn : (ns : List Node) → visitsIn (fullIn ns) = Node.visitsIn ns
  | [] => rfl
  | n :: ns => by simp [fullIn, visitsIn, Node.visitsIn, visits_full n, visitsIn_fullIn ns]

end

/-! ## What a cut leaves -/

/-- Where none of some children has been entered, all of them are removed. -/
theorem cutIn_zero (ps : List Pruned) : cutIn 0 ps = [] := by
  cases ps <;> simp [cutIn]

/-- Children that have been left stay. -/
theorem cutIn_append (ps qs : List Pruned) (count : Nat) :
    cutIn ((visitsIn ps).length + count) (ps ++ qs) = ps ++ cutIn count qs := by
  induction ps with
  | nil => simp [visitsIn]
  | cons p ps ih =>
    have hpos := p.length_visits_pos
    simp only [visitsIn, List.length_append, List.cons_append, cutIn]
    rw [if_neg (by omega), if_neg (by omega), Nat.add_assoc, Nat.add_sub_cancel_left, ih]

theorem cutIn_of_le {ps : List Pruned} {count : Nat} (h : (visitsIn ps).length ≤ count) :
    cutIn count ps = ps := by
  have hcut := cutIn_append ps [] (count - (visitsIn ps).length)
  rw [Nat.add_sub_cancel' h, List.append_nil] at hcut
  rw [hcut, cutIn, List.append_nil]

/-- Behind the end of the traversal nothing is removed any more. -/
theorem cut_of_le {p : Pruned} {count : Nat} (h : p.visits.length ≤ count) : p.cut count = p := by
  cases p with
  | node n ps =>
    rw [length_visits] at h
    cases count with
    | zero => rfl
    | succ count => rw [cut, cutIn_of_le (by omega)]

mutual

/-- The reports that have been made stay the same. -/
theorem take_visits_cut : (p : Pruned) → (count : Nat) →
    (p.cut count).visits.take count = p.visits.take count
  | p, 0 => by simp
  | .node n ps, count + 1 => by
    have htake := take_visitsIn_cutIn ps count
    rw [cut, visits, visits, List.take_succ_cons, List.take_succ_cons]
    by_cases hle : (visitsIn ps).length ≤ count
    · rw [cutIn_of_le hle]
    · -- The reports on the children that are left reach at least as far.
      have hlen := congrArg List.length htake
      rw [List.length_take, List.length_take] at hlen
      rw [List.take_append_of_le_length (by omega), List.take_append_of_le_length (by omega), htake]

/-- A cut changes nothing of what has been visited before it. -/
theorem take_visitsIn_cutIn : (ps : List Pruned) → (count : Nat) →
    (visitsIn (cutIn count ps)).take count = (visitsIn ps).take count
  | [], count => by simp [cutIn]
  | p :: ps, count => by
    rw [cutIn]
    by_cases hzero : count = 0
    · simp [hzero]
    · rw [if_neg hzero]
      by_cases hlt : count < p.visits.length
      · have htake := take_visits_cut p count
        have hlen := congrArg List.length htake
        rw [List.length_take, List.length_take] at hlen
        rw [if_pos hlt, visitsIn, visitsIn, List.take_append_of_le_length (by omega),
          List.take_append_of_le_length (by omega), htake]
      · have htake := take_visitsIn_cutIn ps (count - p.visits.length)
        rw [if_neg hlt, visitsIn, visitsIn, List.take_append, List.take_append, htake]

end

/-! ## What is left of a tree is part of it -/

/-- What is left of some trees: of the first few of them their roots, each with what is left of its
children, and of the others nothing. -/
inductive Prunes : List Node → List Pruned → Prop where
  | none (ns : List Node) : Prunes ns []
  | some {n : Node} {ns : List Node} {ps qs : List Pruned} (below : Prunes n.children ps)
      (behind : Prunes ns qs) : Prunes (n :: ns) (.node n ps :: qs)

mutual

theorem prunes_full : (n : Node) → Prunes [n] [full n]
  | .token _ => .some (.none _) (.none _)
  | .tree _ cs => .some (prunes_fullIn cs) (.none _)

theorem prunes_fullIn : (ns : List Node) → Prunes ns (fullIn ns)
  | [] => .none []
  | n :: ns => by
    have hn := prunes_full n
    rw [full_eq] at hn
    cases hn with
    | some below behind =>
      rw [fullIn, full_eq]
      exact .some below (prunes_fullIn ns)

end

/-- A cut of a pruned forest is a pruning of the same nodes. -/
theorem Prunes.cutIn {ns : List Node} {ps : List Pruned} (h : Prunes ns ps) (count : Nat) :
    Prunes ns (cutIn count ps) := by
  induction h generalizing count with
  | none ns =>
    rw [Pruned.cutIn]
    exact .none ns
  | @some n ns ps qs below behind ihBelow ihBehind =>
    rw [Pruned.cutIn]
    by_cases hzero : count = 0
    · rw [if_pos hzero]
      exact .none _
    · rw [if_neg hzero]
      by_cases hlt : count < (visits (.node n ps)).length
      · rw [if_pos hlt]
        cases count with
        | zero => exact absurd rfl hzero
        | succ count => exact .some (ihBelow count) behind
      · rw [if_neg hlt]
        exact .some below (ihBehind _)

/-- A cut leaves the root and something of its children. -/
theorem Prunes.cut {n : Node} {p : Pruned} (h : Prunes [n] [p]) (count : Nat) :
    Prunes [n] [p.cut count] := by
  cases h with
  | some below behind =>
    cases count with
    | zero => exact .some below behind
    | succ count => exact .some (below.cutIn count) behind

/-- No node of a tree is reported on more than twice. -/
theorem Prunes.length_le {ns : List Node} {ps : List Pruned} (h : Prunes ns ps) :
    (visitsIn ps).length ≤ 2 * Node.sizeIn ns := by
  induction h with
  | none ns => exact Nat.zero_le _
  | @some n ns ps qs below behind ihBelow ihBehind =>
    rw [visitsIn, List.length_append, length_visits, Node.sizeIn, Node.size_eq]
    omega

end Pruned

/-- Reports on the first few of some trees are properly nested: each root that is entered is left
once, behind properly nested reports on its children, and then the next one is entered. -/
inductive Nested : List Node → List Visit → Prop where
  | none (ns : List Node) : Nested ns []
  | some {n : Node} {ns : List Node} {inner rest : List Visit} (below : Nested n.children inner)
      (behind : Nested ns rest) : Nested (n :: ns) (.enter n :: (inner ++ .leave n :: rest))

/-- The visits of a pruned forest are nested. -/
theorem Pruned.Prunes.nested {ns : List Node} {ps : List Pruned} (h : Prunes ns ps) :
    Nested ns (visitsIn ps) := by
  induction h with
  | none ns => exact .none ns
  | @some n ns ps qs below behind ihBelow ihBehind =>
    rw [visitsIn, visits, List.cons_append, List.append_assoc]
    exact .some ihBelow ihBehind

/-! ## Calls -/

/-- What can be asked of a walker: the next report, or to pass over children. -/
inductive WalkCall where
  | next
  | skip
deriving DecidableEq, Repr

/-- What a walker answers to calls in a row, each time it is asked for the next report. -/
def Walker.answers : List WalkCall → Walker → List (Option Visit)
  | [], _ => []
  | .skip :: calls, w => answers calls w.skip
  | .next :: calls, w =>
    match w.next? with
    | some (v, w') => some v :: answers calls w'
    | none => none :: answers calls w

/-- What calls in a row leave of a tree, if `count` reports have been asked for before them. -/
def Pruned.after : List WalkCall → (count : Nat) → Pruned → Pruned
  | [], _, p => p
  | .skip :: calls, count, p => after calls count (p.cut count)
  | .next :: calls, count, p => after calls (count + 1) p

namespace Pruned

/-- Whatever calls are made, what is walked stays a pruning of the node. -/
theorem prunes_after {n : Node} (calls : List WalkCall) :
    ∀ {p : Pruned} (count : Nat), Prunes [n] [p] → Prunes [n] [after calls count p] := by
  induction calls with
  | nil =>
    intro p count h
    exact h
  | cons call calls ih =>
    intro p count h
    cases call with
    | next => exact ih (count + 1) h
    | skip => exact ih count (h.cut count)

/-- Reports that have been asked for are not changed by later calls. -/
theorem take_visits_after (calls : List WalkCall) :
    ∀ (p : Pruned) (count : Nat),
      (after calls count p).visits.take count = p.visits.take count := by
  induction calls with
  | nil =>
    intro p count
    rfl
  | cons call calls ih =>
    intro p count
    cases call with
    | skip => rw [after, ih, take_visits_cut]
    | next =>
      have htake := congrArg (List.take count) (ih p (count + 1))
      rw [List.take_take, List.take_take, Nat.min_eq_left (Nat.le_succ count)] at htake
      exact htake

/-- The report that is asked for next is not changed by the calls behind it. -/
theorem getElem?_visits_after (calls : List WalkCall) (p : Pruned) (count : Nat) :
    (after calls (count + 1) p).visits[count]? = p.visits[count]? := by
  have htake := congrArg (·[count]?) (take_visits_after calls p (count + 1))
  simpa [List.getElem?_take] using htake

/-- As long as nothing is passed over, everything is left. -/
theorem after_of_not_mem {calls : List WalkCall} (h : .skip ∉ calls) (p : Pruned) (count : Nat) :
    after calls count p = p := by
  induction calls generalizing count with
  | nil => rfl
  | cons call calls ih =>
    cases call with
    | skip => exact absurd List.mem_cons_self h
    | next => exact ih (fun hmem => h (List.mem_cons_of_mem _ hmem)) (count + 1)

end Pruned

/-! ## The state of a walk -/

/-- A node that has been entered and not yet left, with what is left of those of its children that
have been left, and the children still to be entered. -/
structure Trail where
  node : Node
  behind : List Pruned
  ahead : List Node

namespace Trail

/-- What a walker knows of it. -/
def frame (t : Trail) : Frame := ⟨t.node, t.ahead⟩

open Pruned

/-- The tree around what is left of one of its nodes, given the nodes above, the innermost first. -/
def fill : List Trail → Pruned → Pruned
  | [], p => p
  | t :: ts, p => fill ts (.node t.node (t.behind ++ p :: fullIn t.ahead))

/-- How many reports come before those on a node, given the nodes above. -/
def offset : List Trail → Nat
  | [] => 0
  | t :: ts => offset ts + (1 + (visitsIn t.behind).length)

/-- The reports on a tree around a node are those on the node, in their place. -/
theorem getElem?_visits_fill (ts : List Trail) :
    ∀ (p : Pruned) {i : Nat}, i < p.visits.length →
      (fill ts p).visits[offset ts + i]? = p.visits[i]? := by
  induction ts with
  | nil =>
    intro p i hi
    rw [offset, Nat.zero_add, fill]
  | cons t ts ih =>
    intro p i hi
    rw [fill, offset, Nat.add_assoc, ih _ (by rw [length_visits_around]; omega), visits,
      visitsIn_append, visitsIn, Nat.add_assoc, Nat.add_comm 1, List.getElem?_cons_succ,
      List.append_assoc, List.getElem?_append_right (Nat.le_add_right _ _), Nat.add_sub_cancel_left,
      List.append_assoc, List.getElem?_append_left hi]

/-- A cut inside a node is a cut of the tree around it. -/
theorem cut_fill (ts : List Trail) :
    ∀ (p : Pruned) {i : Nat}, 0 < i → i < p.visits.length →
      (fill ts p).cut (offset ts + i) = fill ts (p.cut i) := by
  induction ts with
  | nil =>
    intro p i _ hi
    rw [offset, Nat.zero_add, fill, fill]
  | cons t ts ih =>
    intro p i hpos hi
    rw [fill, offset, Nat.add_assoc, ih _ (by omega) (by rw [length_visits_around]; omega), fill,
      Nat.add_assoc, Nat.add_comm 1, cut, cutIn_append, cutIn, if_neg (by omega), if_pos hi]

end Trail

namespace Walker

open Pruned Trail

/-- A walker stands where `count` reports have been asked for, if `p` is left of the tree. -/
inductive Stands : Walker → (count : Nat) → Pruned → Prop where
  | before (n : Node) : Stands (.new n) 0 (full n)
  | inside (t : Trail) (ts : List Trail) :
      Stands ⟨none, t.frame :: ts.map frame⟩ (offset (t :: ts))
        (fill ts (.node t.node (t.behind ++ fullIn t.ahead)))
  | finished {p : Pruned} {count : Nat} (ended : p.visits.length ≤ count) :
      Stands ⟨none, []⟩ count p

/-- To pass over children removes them. -/
theorem Stands.skip {w : Walker} {count : Nat} {p : Pruned} (h : w.Stands count p) :
    w.skip.Stands count (p.cut count) := by
  cases h with
  | before n =>
    rw [cut]
    exact .before n
  -- The children ahead are cut away where the walker stands, inside all that is around it.
  | inside t ts =>
    have hcut := cutIn_append t.behind (fullIn t.ahead) 0
    rw [Nat.add_zero, cutIn_zero, List.append_nil] at hcut
    have hstands := Stands.inside { t with ahead := [] } ts
    rw [fullIn, List.append_nil] at hstands
    have hlen : 1 + (visitsIn t.behind).length <
        (visits (.node t.node (t.behind ++ fullIn t.ahead))).length := by
      rw [length_visits, visitsIn_append, List.length_append]
      omega
    rw [offset, cut_fill ts _ (by omega) hlen, Nat.add_comm 1, cut, hcut, Nat.add_comm _ 1]
    exact hstands
  | finished ended =>
    rw [cut_of_le ended]
    exact .finished ended

/-- The next report is the next one of the traversal, and there is none only behind its end. -/
theorem Stands.next? {w : Walker} {count : Nat} {p : Pruned} (h : w.Stands count p) :
    match w.next? with
    | some (v, w') => p.visits[count]? = some v ∧ w'.Stands (count + 1) p
    | none => p.visits[count]? = none ∧ w.Stands (count + 1) p := by
  cases h with
  | before n =>
    constructor
    · rw [full_eq, visits, List.getElem?_cons_zero]
    · rw [full_eq]
      exact .inside ⟨n, [], n.children⟩ []
  | inside t ts =>
    rcases t with ⟨n, behind, ahead⟩
    cases ahead with
    | nil =>
      -- All children have been left, so the node is left, and is behind its parent from now on.
      rw [fullIn, List.append_nil]
      constructor
      · rw [offset, getElem?_visits_fill ts _ (by rw [length_visits]; omega), visits,
          Nat.add_comm 1, List.getElem?_cons_succ, List.getElem?_append_right (Nat.le_refl _),
          Nat.sub_self, List.getElem?_cons_zero]
      · cases ts with
        | nil => exact .finished (by rw [fill, length_visits, offset, offset]; omega)
        | cons t ts =>
          have hstands := Stands.inside { t with behind := t.behind ++ [.node n behind] } ts
          rw [List.append_assoc, List.singleton_append] at hstands
          have hoffset : offset ({ t with behind := t.behind ++ [.node n behind] } :: ts) =
              offset (⟨n, behind, []⟩ :: t :: ts) + 1 := by
            simp only [offset, visitsIn_append, visitsIn, List.length_append, length_visits,
              List.length_nil]
            omega
          rw [hoffset] at hstands
          exact hstands
    | cons c cs =>
      rw [fullIn, full_eq]
      constructor
      · rw [offset, getElem?_visits_fill ts _
            (by rw [length_visits_around]; omega), visits, Nat.add_comm 1,
          List.getElem?_cons_succ, visitsIn_append, visitsIn, visits, List.append_assoc,
          List.getElem?_append_right (Nat.le_refl _), Nat.sub_self]
        rfl
      · exact .inside ⟨c, [], c.children⟩ (⟨n, behind, cs⟩ :: ts)
  | finished ended =>
    exact ⟨List.getElem?_eq_none ended, .finished (Nat.le_succ_of_le ended)⟩

/-- Whatever calls are made, the reports that are asked for are those of the traversal of what the
calls leave of the tree. -/
theorem answers_of_stands (calls : List WalkCall) :
    ∀ {w : Walker} {count : Nat} {p : Pruned}, w.Stands count p →
      w.answers calls = (List.range (calls.count .next)).map fun i =>
        (after calls count p).visits[count + i]? := by
  -- By induction on the calls: a skip changes the tree that is walked, a call for a report moves
  -- the walker on in it.
  induction calls with
  | nil =>
    intro w count p _
    rfl
  | cons call calls ih =>
    intro w count p h
    cases call with
    | skip =>
      rw [answers, after, List.count_cons_of_ne (by decide)]
      exact ih h.skip
    | next =>
      have hnext := h.next?
      -- Later cuts leave the first reports alone, so the answer that is given now stays true.
      rw [answers, after, List.count_cons_self, List.range_succ_eq_map, List.map_cons, List.map_map,
        Nat.add_zero count, getElem?_visits_after]
      have hrest : ∀ {w' : Walker}, w'.Stands (count + 1) p → w'.answers calls =
          (List.range (calls.count .next)).map
            ((fun i => (after calls (count + 1) p).visits[count + i]?) ∘ Nat.succ) := by
        intro w' hw'
        rw [ih hw']
        refine List.map_congr_left fun i _ => ?_
        rw [Function.comp_apply, Nat.succ_eq_add_one, Nat.add_assoc, Nat.add_comm 1]
      cases hw : w.next? with
      | none =>
        rw [hw] at hnext
        rw [hnext.1, ← hrest hnext.2]
      | some report =>
        rcases report with ⟨v, w'⟩
        rw [hw] at hnext
        rw [hnext.1, ← hrest hnext.2]

end Walker

/-! ## All walks -/

namespace Node

theorem descendants_eq (n : Node) : n.descendants = n :: n.children.flatMap descendants := by
  cases n with
  | token t => rfl
  | tree k cs =>
    simp only [descendants, outline, outlineAt, List.map_cons, map_snd_outlineIn, children]

mutual

theorem length_outlineAt : (n : Node) → (depth : Nat) → (n.outlineAt depth).length = n.size
  | .token _, _ => rfl
  | .tree k cs, depth => by
    rw [outlineAt, List.length_cons, length_outlineIn cs (depth + 1), size, Nat.add_comm]

theorem length_outlineIn : (ns : List Node) → (depth : Nat) →
    (outlineIn depth ns).length = sizeIn ns
  | [], _ => rfl
  | n :: ns, depth => by
    rw [outlineIn, List.length_append, length_outlineAt n depth, length_outlineIn ns depth, sizeIn]

end

end Node

/-- Whenever and however often a walker is told to pass over children, what it reports is the
traversal of what is left of the tree: the answers to calls in a row are the reports of that
traversal one by one, and none behind its end. There are at most two reports for each node of the
tree, and they are properly nested. If nothing is passed over, the whole tree is traversed, and its
nodes are entered in pre-order, each of them once. -/
theorem Walker.answers_traverse (n : Node) (calls : List WalkCall) :
    ((Walker.new n).answers calls =
        (List.range (calls.count .next)).map fun i =>
          ((Pruned.full n).after calls 0).visits[i]?) ∧
      ((Pruned.full n).after calls 0).visits.length ≤ 2 * n.size ∧
      Nested [n] ((Pruned.full n).after calls 0).visits ∧
      (∀ m, (Walker.new n).answers (List.replicate m .next) =
        (List.range m).map fun i => n.visits[i]?) ∧
      n.visits.filterMap Visit.entered? = n.descendants ∧
      n.descendants = n :: n.children.flatMap Node.descendants ∧
      n.descendants.length = n.size := by
  -- What is left of the tree is a pruning of it, from which size and nesting follow.
  have hprunes := Pruned.prunes_after calls 0 (Pruned.prunes_full n)
  refine ⟨?_, ?_, ?_, ?_, ?_, n.descendants_eq, ?_⟩
  · rw [answers_of_stands calls (.before n)]
    simp only [Nat.zero_add]
  · have hlen := hprunes.length_le
    rwa [Pruned.visitsIn, Pruned.visitsIn, List.append_nil, Node.sizeIn, Node.sizeIn,
      Nat.add_zero] at hlen
  · have hnested := hprunes.nested
    rwa [Pruned.visitsIn, Pruned.visitsIn, List.append_nil] at hnested
  · intro m
    -- Without a skip the tree stays whole.
    have hskip : WalkCall.skip ∉ List.replicate m WalkCall.next := by
      intro hmem
      cases List.eq_of_mem_replicate hmem
    rw [answers_of_stands _ (.before n), Pruned.after_of_not_mem hskip, Pruned.visits_full,
      List.count_replicate_self]
    simp only [Nat.zero_add]
  · rw [← n.walk_eq_visits]
    exact n.entered_walk
  · rw [Node.descendants, List.length_map]
    exact n.length_outlineAt 0

/-- Before the first report nothing is passed over, and behind the first child the second one. -/
example (k : Kind) (a b : Token) :
    (Walker.new (.tree k [.token a, .token b])).answers
        [.skip, .next, .next, .next, .skip, .next, .next] =
      [some (.enter (.tree k [.token a, .token b])), some (.enter (.token a)),
        some (.leave (.token a)), some (.leave (.tree k [.token a, .token b])), none] := rfl

end Lossless
