import Lossless.Proofs.Rewriting
import Lossless.Proofs.Traversal

/-!
# Edits are local

An edit of a session changes one node, which is reached by a path. The terminals that a walk enters
before it comes to that node and after it has left it are the same in the edited tree
(`Node.Surrounded`), so the source text changes in one place only. An edit that cannot be made
leaves the session as it was, and taking out a child that was put in restores the tree.
-/

namespace Lossless

/-! ## Surroundings -/

namespace Node

/-- A child stands between the children in front of it and those behind it. -/
theorem take_append_cons_drop {cs : List Node} {i : Nat} {child : Node} (h : cs[i]? = some child) :
    cs.take i ++ child :: cs.drop (i + 1) = cs := by
  obtain ⟨hlt, rfl⟩ := List.getElem?_eq_some_iff.1 h
  rw [← List.drop_eq_getElem_cons hlt, List.take_append_drop]

/-- The tokens before and after the node at the end of a path. -/
def around? (n : Node) : List PathStep → Option (List Token × List Token)
  | [] => some ([], [])
  | s :: path => do
    let i ← n.resolve? s
    let child ← n.children[i]?
    let (before, after) ← child.around? path
    some (tokensIn (n.children.take i) ++ before, after ++ tokensIn (n.children.drop (i + 1)))

/-- The walk of a tree comes to the walk of the node `n` behind the terminals `before`, and after it
the terminals `after` are left. -/
def Surrounded (root n : Node) (before after : List Token) : Prop :=
  ∃ front back, root.walk = front ++ n.walk ++ back ∧
    front.filterMap Visit.terminal? = before ∧ back.filterMap Visit.terminal? = after

namespace Surrounded

variable {root n : Node} {before after : List Token}

theorem refl (n : Node) : n.Surrounded n [] [] := ⟨[], [], by simp, rfl, rfl⟩

/-- The surroundings in a child are extended by its siblings. -/
theorem under (h : root.Surrounded n before after) (k : Kind) (left right : List Node) :
    (tree k (left ++ root :: right)).Surrounded n (tokensIn left ++ before)
      (after ++ tokensIn right) := by
  obtain ⟨front, back, hwalk, rfl, rfl⟩ := h
  refine ⟨.enter (tree k (left ++ root :: right)) :: (visitsIn left ++ front),
    back ++ visitsIn right ++ [.leave (tree k (left ++ root :: right))], ?_, ?_, ?_⟩
  · rw [walk_eq_visits] at hwalk
    rw [walk_eq_visits (tree k (left ++ root :: right)), visits, visitsIn_append, visitsIn, hwalk]
    simp
  · rw [List.filterMap_cons_none rfl, List.filterMap_append, terminals_visitsIn]
  · rw [List.filterMap_append, List.filterMap_append, terminals_visitsIn]
    simp [Visit.terminal?, Visit.entered?]

/-- The tokens around a node and its own are those of the whole tree. -/
theorem tokens_eq (h : root.Surrounded n before after) :
    root.tokens = before ++ n.tokens ++ after := by
  obtain ⟨front, back, hwalk, rfl, rfl⟩ := h
  rw [← terminals_walk, hwalk, List.filterMap_append, List.filterMap_append, terminals_walk]

end Surrounded

end Node

/-- The source text of some tokens. -/
def Token.textOf (ts : List Token) : String := String.ofList (ts.flatMap Token.chars)

open Token

/-- The text of a tree is that of the node with the text around it. -/
theorem Node.Surrounded.reconstruct_eq {root n : Node} {before after : List Token}
    (h : root.Surrounded n before after) :
    root.reconstruct = textOf before ++ n.reconstruct ++ textOf after := by
  rw [Node.reconstruct, Node.chars, h.tokens_eq]
  simp [textOf, Node.reconstruct, Node.chars, String.append_assoc]

namespace Node

/-- The node at the end of a path can be replaced, and the surroundings of the place stay. -/
theorem exists_set? {root n : Node} {path : List PathStep} (h : root.get? path = some n) :
    ∃ before after, root.around? path = some (before, after) ∧ root.Surrounded n before after ∧
      ∀ n', ∃ root', root.set? path n' = some root' ∧ root'.Surrounded n' before after := by
  induction path generalizing root with
  | nil =>
    cases h
    refine ⟨[], [], rfl, .refl n, ?_⟩
    intro n'
    exact ⟨n', rfl, .refl n'⟩
  | cons step path ih =>
    simp only [get?, Option.bind_eq_bind, Option.bind_eq_some_iff] at h
    obtain ⟨i, hi, child, hchild, hpath⟩ := h
    obtain ⟨before, after, haround, hold, hnew⟩ := ih hpath
    cases root with
    | token t => cases hchild
    | tree k cs =>
      change cs[i]? = some child at hchild
      have hlt : i < cs.length := (List.getElem?_eq_some_iff.1 hchild).1
      -- The child on the path stands between its siblings, before and after the edit.
      refine ⟨tokensIn (cs.take i) ++ before, after ++ tokensIn (cs.drop (i + 1)), ?_, ?_, ?_⟩
      · simp [around?, hi, hchild, haround, children]
      · have hunder := hold.under k (cs.take i) (cs.drop (i + 1))
        rw [take_append_cons_drop hchild] at hunder
        exact hunder
      · intro n'
        obtain ⟨child', hset, hsur⟩ := hnew n'
        refine ⟨tree k (cs.set i child'), ?_, ?_⟩
        · simp [set?, hi, hchild, hset, withChildren, children]
        · rw [List.set_eq_take_append_cons_drop, if_pos hlt]
          exact hsur.under k (cs.take i) (cs.drop (i + 1))

/-! ## Paths after a replacement -/

theorem positionOfKind?_eq (n : Node) (k : Kind) :
    n.positionOfKind? k = (n.children.map kind).findIdx? (· == k) := by
  rw [positionOfKind?, List.findIdx?_map]
  rfl

/-- Steps depend on the kinds of the children only. -/
theorem resolve?_congr {m n : Node} (h : m.children.map kind = n.children.map kind)
    (step : PathStep) : m.resolve? step = n.resolve? step := by
  have hlen : m.children.length = n.children.length := by
    have hmap := congrArg List.length h
    rwa [List.length_map, List.length_map] at hmap
  cases step with
  | index i => simp only [resolve?, hlen]
  | first k => simp only [resolve?, positionOfKind?_eq, h]

/-- A replacement by a node of the same kind is reached by the same path, and can be undone. -/
theorem get?_set? {root root' n n' : Node} {path : List PathStep} (hget : root.get? path = some n)
    (hset : root.set? path n' = some root') (hkind : n'.kind = n.kind) :
    root'.kind = root.kind ∧ root'.get? path = some n' ∧ root'.set? path n = some root := by
  induction path generalizing root root' with
  | nil =>
    cases hget
    cases hset
    exact ⟨hkind, rfl, rfl⟩
  | cons step path ih =>
    simp only [get?, set?, Option.bind_eq_bind, Option.bind_eq_some_iff] at hget hset
    obtain ⟨i, hi, child, hchild, hpath⟩ := hget
    obtain ⟨j, hj, child₁, hchild₁, child', hset', hroot'⟩ := hset
    cases hi.symm.trans hj
    cases hchild.symm.trans hchild₁
    obtain ⟨hk, hget', hback⟩ := ih hpath hset'
    cases root with
    | token t => cases hchild
    | tree k cs =>
      change cs[i]? = some child at hchild
      obtain ⟨hlt, hchild⟩ := List.getElem?_eq_some_iff.1 hchild
      have hroot : root' = tree k (cs.set i child') := (Option.some.inj hroot').symm
      subst hroot
      -- The kinds of the children have not changed, so the step leads to the same place.
      have hkinds : (tree k (cs.set i child')).children.map kind =
          (tree k cs).children.map kind := by
        have hmap : i < (cs.map kind).length := by rwa [List.length_map]
        have hold : child.kind = (cs.map kind)[i] := by rw [List.getElem_map, hchild]
        simp only [children, List.map_set, hk, hold, List.set_getElem_self]
      have hstep : (tree k (cs.set i child')).resolve? step = some i :=
        (resolve?_congr hkinds step).trans hi
      have hnew : (tree k (cs.set i child')).children[i]? = some child' := by
        simp [children, hlt]
      refine ⟨rfl, ?_, ?_⟩
      · simp [get?, hstep, hnew, hget']
      · have hcs : cs.set i child = cs := by rw [← hchild, List.set_getElem_self]
        simp only [set?, Option.bind_eq_bind, hstep, hnew, hback, Option.bind_some]
        simp only [withChildren, children, List.set_set, hcs]

end Node

/-! ## Edits of one node -/

/-- An edit of a single node. -/
inductive Mutation where
  | setKind (kind : Kind)
  | setText (text : String)
  | setLeading (blanks : Trivia)
  | setTrailing (blanks : Trivia)
  | insertChild (index : Nat) (child : Node)
  | pushChild (child : Node)
  | removeChild (index : Nat)
deriving DecidableEq, Repr

namespace Mutation

/-- Changes a terminal. -/
def onToken (f : Token → Token) : Node → Except Refusal Node
  | .token t => .ok (.token (f t))
  | .tree _ _ => .error .notToken

/-- What an edit makes of a node. -/
def apply : Mutation → Node → Except Refusal Node
  | .setKind kind, n => .ok (n.withKind kind)
  | .setText text, n => onToken (fun t => { t with text := text }) n
  | .setLeading blanks, n => onToken (fun t => { t with leading := blanks }) n
  | .setTrailing blanks, n => onToken (fun t => { t with trailing := blanks }) n
  | .insertChild index child, n => (n.insertChild index child).mapError .edit
  | .pushChild child, n => (n.pushChild child).mapError .edit
  | .removeChild index, n => ((n.removeChild index).map Prod.snd).mapError .edit

/-- The edit as an operation of a session, at the end of a path. -/
def edit (path : List PathStep) : Mutation → Editing Unit
  | .setKind kind => Editing.setKind path kind
  | .setText text => Editing.setText path text
  | .setLeading blanks => discard (Editing.changeToken path fun t => { t with leading := blanks })
  | .setTrailing blanks => discard (Editing.changeToken path fun t => { t with trailing := blanks })
  | .insertChild index child =>
    discard (Editing.change path fun n => (n.insertChild index child).map ((), ·))
  | .pushChild child => discard (Editing.change path fun n => (n.pushChild child).map ((), ·))
  | .removeChild index => discard (Editing.change path (·.removeChild index))

end Mutation

namespace Editing

variable {s : Session} {path : List PathStep} {n n' root : Node}

/-- A change of the node at a path succeeds if it succeeds there, and replaces the node. -/
theorem change_eq {α : Type} {f : Node → Except EditError (α × Node)} {a : α}
    (hget : s.root.get? path = some n) (hf : f n = .ok (a, n'))
    (hset : s.root.set? path n' = some root) :
    change path f s = .ok (a, { s with root := root }) := by
  have hnode := node_eq hget
  have hreplace := replace_eq hset
  simp only [change, bind, StateT.bind, Except.bind, hnode, hf, hreplace]
  rfl

/-- A change that the node refuses is refused, and nothing is replaced. -/
theorem change_refused {α : Type} {f : Node → Except EditError (α × Node)} {e : EditError}
    (hget : s.root.get? path = some n) (hf : f n = .error e) :
    change path f s = .error (.edit e) := by
  have hnode := node_eq hget
  simp only [change, bind, StateT.bind, Except.bind, hnode, hf]
  rfl

/-- A change of a token replaces the token at its path and gives the old one. -/
theorem changeToken_eq {f : Token → Token} {t : Token} (hget : s.root.get? path = some (.token t))
    (hset : s.root.set? path (.token (f t)) = some root) :
    changeToken path f s = .ok (t, { s with root := root }) := by
  have htoken := token_eq hget
  have hreplace := replace_eq hset
  simp only [changeToken, bind, StateT.bind, Except.bind, htoken, hreplace]
  rfl

/-- Only terminals have a token to be changed. -/
theorem changeToken_refused {f : Token → Token} {k : Kind} {cs : List Node}
    (hget : s.root.get? path = some (.tree k cs)) : changeToken path f s = .error .notToken := by
  have hnode := node_eq hget
  simp only [changeToken, token, bind, StateT.bind, Except.bind, hnode]
  rfl

theorem setKind_eq {kind : Kind} (hget : s.root.get? path = some n)
    (hset : s.root.set? path (n.withKind kind) = some root) :
    setKind path kind s = .ok ((), { s with root := root }) := by
  have hnode := node_eq hget
  have hreplace := replace_eq hset
  simp only [setKind, bind, StateT.bind, Except.bind, hnode, hreplace]

/-- The result of an operation can be dropped. -/
theorem discard_eq {α : Type} (op : Editing α) (s : Session) :
    (discard op : Editing Unit) s = (op s).map fun r => ((), r.2) := by
  show (op s >>= fun r => pure ((), r.2) : Except Refusal (Unit × Session)) = _
  cases op s <;> rfl

end Editing

namespace Session

variable {α : Type} {s s' : Session} {op : Editing α}

theorem perform_eq {a : α} (h : op s = .ok (a, s')) : s.perform op = (.ok a, s') := by
  rw [perform, h]

/-- What is refused leaves the session as it was. -/
theorem perform_refused {r : Refusal} (h : op s = .error r) : s.perform op = (.error r, s) := by
  rw [perform, h]

end Session

namespace Mutation

variable {s : Session} {path : List PathStep} {n n' root : Node}

/-- An edit of a token does at its path what it does to the token. -/
theorem onToken_eq {f : Token → Token} (hget : s.root.get? path = some n)
    (hf : onToken f n = .ok n') (hset : s.root.set? path n' = some root) :
    (discard (Editing.changeToken path f) : Editing Unit) s = .ok ((), { s with root := root }) := by
  cases n with
  | tree k cs => cases hf
  | token t =>
    cases hf
    rw [Editing.discard_eq, Editing.changeToken_eq hget hset]
    rfl

/-- An edit of a token is refused at its path for the reason for which the node refuses it. -/
theorem onToken_refused {f : Token → Token} {r : Refusal} (hget : s.root.get? path = some n)
    (hf : onToken f n = .error r) :
    (discard (Editing.changeToken path f) : Editing Unit) s = .error r := by
  cases n with
  | token t => cases hf
  | tree k cs =>
    cases hf
    rw [Editing.discard_eq, Editing.changeToken_refused hget]
    rfl

section Children

variable {α : Type} {f : Node → Except EditError (α × Node)}

/-- An edit of children does at its path what it does to the node. -/
theorem onChildren_eq (hget : s.root.get? path = some n)
    (hf : ((f n).map Prod.snd).mapError Refusal.edit = .ok n')
    (hset : s.root.set? path n' = some root) :
    (discard (Editing.change path f) : Editing Unit) s = .ok ((), { s with root := root }) := by
  cases hn : f n with
  | error e =>
    rw [hn] at hf
    cases hf
  | ok made =>
    rw [hn] at hf
    cases hf
    rw [Editing.discard_eq, Editing.change_eq hget hn hset]
    rfl

/-- An edit of children is refused at its path for the reason for which the node refuses it. -/
theorem onChildren_refused {r : Refusal} (hget : s.root.get? path = some n)
    (hf : ((f n).map Prod.snd).mapError Refusal.edit = .error r) :
    (discard (Editing.change path f) : Editing Unit) s = .error r := by
  cases hn : f n with
  | ok made =>
    rw [hn] at hf
    cases hf
  | error e =>
    rw [hn] at hf
    cases hf
    rw [Editing.discard_eq, Editing.change_refused hget hn]
    rfl

end Children

theorem map_snd_map_unit (r : Except EditError Node) : (r.map ((), ·)).map Prod.snd = r := by
  cases r <;> rfl

/-- An edit replaces the node at the end of the path by what it makes of it. -/
theorem edit_eq (m : Mutation) (hget : s.root.get? path = some n) (hm : m.apply n = .ok n')
    (hset : s.root.set? path n' = some root) :
    m.edit path s = .ok ((), { s with root := root }) := by
  cases m with
  | setKind kind =>
    cases hm
    exact Editing.setKind_eq hget hset
  | setText text => exact onToken_eq hget hm hset
  | setLeading blanks => exact onToken_eq hget hm hset
  | setTrailing blanks => exact onToken_eq hget hm hset
  | insertChild index child => exact onChildren_eq hget (by rw [map_snd_map_unit]; exact hm) hset
  | pushChild child => exact onChildren_eq hget (by rw [map_snd_map_unit]; exact hm) hset
  | removeChild index => exact onChildren_eq hget hm hset

/-- An edit that makes nothing of the node is refused. -/
theorem edit_refused (m : Mutation) {r : Refusal} (hget : s.root.get? path = some n)
    (hm : m.apply n = .error r) : m.edit path s = .error r := by
  cases m with
  | setKind kind => cases hm
  | setText text => exact onToken_refused hget hm
  | setLeading blanks => exact onToken_refused hget hm
  | setTrailing blanks => exact onToken_refused hget hm
  | insertChild index child => exact onChildren_refused hget (by rw [map_snd_map_unit]; exact hm)
  | pushChild child => exact onChildren_refused hget (by rw [map_snd_map_unit]; exact hm)
  | removeChild index => exact onChildren_refused hget hm

end Mutation

/-! ## Edits of children -/

namespace Node

/-- What edits of the children do to the source text of a node, and when they are refused. -/
structure ChildEdits (n : Node) : Prop where
  insert {i : Nat} {child n' : Node} (h : n.insertChild i child = .ok n') :
    n.reconstruct = textOf (tokensIn (n.children.take i)) ++ textOf (tokensIn (n.children.drop i)) ∧
    n'.reconstruct = textOf (tokensIn (n.children.take i)) ++ child.reconstruct ++
      textOf (tokensIn (n.children.drop i))
  push {child n' : Node} (h : n.pushChild child = .ok n') :
    n'.reconstruct = n.reconstruct ++ child.reconstruct
  remove {i : Nat} {child n' : Node} (h : n.removeChild i = .ok (child, n')) :
    n.children[i]? = some child ∧
    n.reconstruct = textOf (tokensIn (n.children.take i)) ++ child.reconstruct ++
      textOf (tokensIn (n.children.drop (i + 1))) ∧
    n'.reconstruct = textOf (tokensIn (n.children.take i)) ++
      textOf (tokensIn (n.children.drop (i + 1)))
  insert_refused (i : Nat) (child : Node) :
    (∃ e, n.insertChild i child = .error e) ↔ n.isToken = true ∨ n.children.length < i
  push_refused (child : Node) : (∃ e, n.pushChild child = .error e) ↔ n.isToken = true
  remove_refused (i : Nat) :
    (∃ e, n.removeChild i = .error e) ↔ n.isToken = true ∨ n.children.length ≤ i

/-- The source text of a node is that of its children. -/
theorem reconstruct_tree (k : Kind) (cs : List Node) :
    (tree k cs).reconstruct = textOf (tokensIn cs) := rfl

theorem textOf_tokensIn_append (as bs : List Node) :
    textOf (tokensIn (as ++ bs)) = textOf (tokensIn as) ++ textOf (tokensIn bs) := by
  simp [textOf]

theorem textOf_tokensIn_cons (a : Node) (as : List Node) :
    textOf (tokensIn (a :: as)) = a.reconstruct ++ textOf (tokensIn as) := by
  simp [textOf, tokensIn, reconstruct, chars]

/-- A child is inserted into a non-terminal, at an index up to the number of children. -/
theorem exists_of_insertChild {n child n' : Node} {i : Nat} (h : n.insertChild i child = .ok n') :
    ∃ k cs, n = tree k cs ∧ i ≤ cs.length ∧ n' = tree k (cs.take i ++ child :: cs.drop i) := by
  cases n with
  | token t => cases h
  | tree k cs =>
    simp only [insertChild] at h
    split at h
    · rename_i hi
      cases h
      exact ⟨k, cs, rfl, hi, rfl⟩
    · cases h

/-- A child is removed from a non-terminal, at an index below the number of children. -/
theorem exists_of_removeChild {n child n' : Node} {i : Nat}
    (h : n.removeChild i = .ok (child, n')) :
    ∃ k cs, n = tree k cs ∧ cs[i]? = some child ∧ n' = tree k (cs.take i ++ cs.drop (i + 1)) := by
  cases n with
  | token t => cases h
  | tree k cs =>
    simp only [removeChild] at h
    split at h
    · rename_i hi
      cases h
      exact ⟨k, cs, rfl, hi, by rw [List.eraseIdx_eq_take_drop_succ]⟩
    · cases h

/-- Removing what was inserted gives it back and restores the node. -/
theorem removeChild_insertChild {n child n' : Node} {i : Nat} (h : n.insertChild i child = .ok n') :
    n'.kind = n.kind ∧ n'.removeChild i = .ok (child, n) := by
  obtain ⟨k, cs, rfl, hi, rfl⟩ := exists_of_insertChild h
  have hlen : (cs.take i).length = i := List.length_take_of_le hi
  have hget : (cs.take i ++ child :: cs.drop i)[i]? = some child := by
    rw [List.getElem?_append_right (Nat.le_of_eq hlen), hlen, Nat.sub_self]
    rfl
  have herase : (cs.take i ++ child :: cs.drop i).eraseIdx i = cs := by
    rw [List.eraseIdx_append_of_length_le (Nat.le_of_eq hlen), hlen, Nat.sub_self]
    exact List.take_append_drop i cs
  refine ⟨rfl, ?_⟩
  simp only [removeChild, hget, herase]

/-- The operations on children do what the library does to lists, within the same bounds. -/
theorem childEdits (n : Node) : n.ChildEdits where
  insert h := by
    obtain ⟨k, cs, rfl, -, rfl⟩ := exists_of_insertChild h
    constructor
    · rw [← textOf_tokensIn_append, children, List.take_append_drop, reconstruct_tree]
    · rw [reconstruct_tree, textOf_tokensIn_append, textOf_tokensIn_cons, children,
        String.append_assoc]
  push h := by
    cases n with
    | token t => cases h
    | tree k cs =>
      cases h
      rw [reconstruct_tree, reconstruct_tree, textOf_tokensIn_append, textOf_tokensIn_cons]
      simp [textOf, tokensIn]
  remove h := by
    obtain ⟨k, cs, rfl, hchild, rfl⟩ := exists_of_removeChild h
    refine ⟨hchild, ?_, ?_⟩
    · rw [String.append_assoc, ← textOf_tokensIn_cons, ← textOf_tokensIn_append, children,
        take_append_cons_drop hchild, reconstruct_tree]
    · rw [reconstruct_tree, textOf_tokensIn_append, children]
  insert_refused i child := by
    cases n with
    | token t => simp [insertChild, isToken, token?]
    | tree k cs =>
      -- An index is refused exactly if it is behind the end.
      by_cases hi : i ≤ cs.length
      · simp [insertChild, hi, isToken, token?, children]
      · have hlt : cs.length < i := Nat.lt_of_not_le hi
        simp [insertChild, hi, isToken, token?, children, hlt]
  push_refused child := by
    cases n <;> simp [pushChild, isToken, token?]
  remove_refused i := by
    cases n with
    | token t => simp [removeChild, isToken, token?]
    | tree k cs =>
      cases hi : cs[i]? with
      | none =>
        have hle := List.getElem?_eq_none_iff.1 hi
        simp only [removeChild, hi, isToken, token?, children]
        simp [hle]
      | some c =>
        have hlt := (List.getElem?_eq_some_iff.1 hi).1
        simp only [removeChild, hi, isToken, token?, children]
        simp [hlt]

end Node

/-! ## Edits of a session -/

/-- An edit changes the source text of a tree in one place only, between the unchanged texts of the
terminals before and after the node. A refused edit changes nothing, and an insertion is undone by
the removal of the child. -/
theorem edit_local {s : Session} {path : List PathStep} {n : Node}
    (h : s.root.get? path = some n) :
    n.ChildEdits ∧
    ∃ before after, s.root.around? path = some (before, after) ∧
      s.root.Surrounded n before after ∧
      s.root.reconstruct = textOf before ++ n.reconstruct ++ textOf after ∧
      (∀ (m : Mutation) (n' : Node), m.apply n = .ok n' →
        ∃ root', s.perform (m.edit path) = (.ok (), { s with root := root' }) ∧
          root'.Surrounded n' before after ∧
          root'.reconstruct = textOf before ++ n'.reconstruct ++ textOf after) ∧
      (∀ (m : Mutation) (r : Refusal), m.apply n = .error r →
        s.perform (m.edit path) = (.error r, s)) ∧
      ∀ (i : Nat) (child n' : Node), n.insertChild i child = .ok n' →
        ∃ s', s.perform (Mutation.edit path (.insertChild i child)) = (.ok (), s') ∧
          s'.perform (Editing.change path (·.removeChild i)) = (.ok child, s) := by
  obtain ⟨before, after, haround, hold, hnew⟩ := Node.exists_set? h
  refine ⟨n.childEdits, before, after, haround, hold, hold.reconstruct_eq, ?_, ?_, ?_⟩
  · intro m n' hm
    obtain ⟨root', hset, hsur⟩ := hnew n'
    exact ⟨root', Session.perform_eq (m.edit_eq h hm hset), hsur, hsur.reconstruct_eq⟩
  · intro m r hm
    exact Session.perform_refused (m.edit_refused h hm)
  · -- The insertion puts a tree of the same kind at the path, so the path still leads there and the
    -- removal finds the child.
    intro i child n' hins
    obtain ⟨root', hset, -⟩ := hnew n'
    obtain ⟨hkind, hrem⟩ := Node.removeChild_insertChild hins
    obtain ⟨-, hget, hback⟩ := Node.get?_set? h hset hkind
    have happly : (Mutation.insertChild i child).apply n = .ok n' := by
      rw [Mutation.apply, hins]
      rfl
    refine ⟨_, Session.perform_eq (Mutation.edit_eq _ h happly hset), Session.perform_eq ?_⟩
    exact Editing.change_eq hget hrem hback

/-- A field, put together by hand. -/
def handField : Node :=
  .tree .field
    [.tree .typeRef [.token { kind := .ident, text := "A", trailing := ⟨[⟨.whitespace, 1⟩]⟩ }],
      .token { kind := .ident, text := "a" }, .token { kind := .semicolon, text := ";" }]

/-- A session on a block with the field in it. -/
def blockSession : Session :=
  .new (.tree .classBlock
    [.token { kind := .leftBrace, text := "\x7b", trailing := ⟨[⟨.whitespace, 1⟩]⟩ }, handField,
      .token { kind := .rightBrace, text := "\x7d", leading := ⟨[⟨.newline, 1⟩]⟩ }])

/-- The mark of an array. -/
def arrayMark : Node :=
  .tree .arrayType [.token { kind := .leftBracket, text := "[" },
    .token { kind := .rightBracket, text := "]" }]

/-- A removal behind the last child is refused, an insertion is undone by a removal at the same
place. -/
theorem edit_local_blockSession :
    blockSession.root.get? [.first .field] = some handField ∧
    blockSession.root.reconstruct = "\x7b A a;\n\x7d" ∧
    blockSession.perform (Mutation.edit [.first .field] (.removeChild 3)) =
      (.error (.edit (.removal 3 3)), blockSession) ∧
    ∃ s', blockSession.perform (Mutation.edit [.first .field] (.insertChild 1 arrayMark)) =
        (.ok (), s') ∧
      s'.root.reconstruct = "\x7b A []a;\n\x7d" ∧
      s'.perform (Editing.change [.first .field] (·.removeChild 1)) = (.ok arrayMark, blockSession) := by
  have hget : blockSession.root.get? [.first .field] = some handField := by decide +kernel
  obtain ⟨-, before, after, haround, -, hold, hdone, hrefused, hundo⟩ := edit_local hget
  obtain ⟨s', hinsert, hremove⟩ := hundo 1 arrayMark _ rfl
  obtain ⟨root', hperform, -, hnew⟩ := hdone (.insertChild 1 arrayMark) _ rfl
  -- Both parts speak of the same insertion, so they end in the same session.
  have hs' : s' = { blockSession with root := root' } :=
    (Prod.mk.inj (hinsert.symm.trans hperform)).2
  have hbefore : textOf before = "\x7b " ∧ textOf after = "\n\x7d" := by
    cases haround
    decide +kernel
  refine ⟨hget, ?_, hrefused (.removeChild 3) _ rfl, s', hinsert, ?_, hremove⟩
  · rw [hold, hbefore.1, hbefore.2]
    decide +kernel
  · rw [hs', hnew, hbefore.1, hbefore.2]
    decide +kernel

end Lossless
