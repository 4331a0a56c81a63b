import Mathlib.Data.List.Perm.Basic
import Lossless.Proofs.Conformance
import Lossless.Proofs.Files
import Lossless.Proofs.Shapes
import Lossless.Proofs.Traversal

/-!
# Counting classes and members

The views of a unit show every class and every member of its tree once, although they look only at
certain children: a block stands in a class only and is its last child, and a member stands in a
block only (`Node.perm_members`). So the numbers that are printed for a file are those of the nodes
in its tree, and `check_exact` says for which files they are printed.
-/

namespace Lossless

open Schema

namespace Node

/-! ## Nodes and views -/

/-- Whether a node is a member of a class. -/
def isMember (n : Node) : Bool := memberKinds.contains n.kind

/-- The number of nodes of the given kinds in a tree. -/
def countKinds (ks : List Kind) (n : Node) : Nat :=
  n.descendants.countP fun m => ks.contains m.kind

/-- A node is a member iff its view can be made, and the view shows the node. -/
theorem node_of? (n : Node) :
    (Member.of? n).map Member.node = if n.isMember then some n else none := by
  unfold Member.of? isMember memberKinds
  split_ifs <;> simp_all

theorem node_view? (k : Kind) (n : Node) :
    (n.view? k).map View.node = if n.kind = k then some n else none := by
  unfold view?
  split <;> rfl

/-- The members among some nodes are the nodes that are members. -/
theorem map_node_filterMap_of? (ns : List Node) :
    (ns.filterMap Member.of?).map Member.node = ns.filter isMember := by
  rw [List.map_filterMap, ← List.filterMap_eq_filter]
  congr 1
  funext n
  rw [node_of?, Option.guard]

/-- The views of a kind show the nodes of that kind, in order. -/
theorem map_node_filterMap_view? (k : Kind) (ns : List Node) :
    (ns.filterMap (view? k)).map View.node = ns.filter (·.kind = k) := by
  rw [List.map_filterMap, ← List.filterMap_eq_filter]
  congr 1
  funext n
  rw [node_view?, Option.guard]
  simp

/-! ## Where blocks and members stand -/

/-- Below a tree come its root and then what is below its children, one after the other. -/
theorem descendants_tree (k : Kind) (cs : List Node) :
    (tree k cs).descendants = tree k cs :: cs.flatMap descendants := by
  simp only [descendants, outline, outlineAt, List.map_cons, map_snd_outlineIn]

mutual

/-- What stands in a conforming tree conforms. -/
theorem conforms_of_mem : (n : Node) → n.Conforms → ∀ m ∈ n.descendants, m.Conforms
  | .token t, h, m, hm => by
    cases List.mem_singleton.1 hm
    exact h
  | .tree k cs, h, m, hm => by
    rw [descendants_tree] at hm
    rcases List.mem_cons.1 hm with rfl | hm
    · exact h
    · exact conforms_of_mem_children cs (conforms_tree.1 h).2 m hm

/-- The same for a list of trees. -/
theorem conforms_of_mem_children : (ns : List Node) → (∀ n ∈ ns, n.Conforms) →
    ∀ m ∈ ns.flatMap descendants, m.Conforms
  | [], h, m, hm => by cases hm
  | n :: ns, h, m, hm => by
    rw [List.flatMap_cons] at hm
    rcases List.mem_append.1 hm with hm | hm
    · exact conforms_of_mem n (h n List.mem_cons_self) m hm
    · exact conforms_of_mem_children ns (fun a ha => h a (List.mem_cons_of_mem n ha)) m hm

end

/-- A child that is no terminal has a kind that the schema names for its parent. -/
theorem kind_of_child {k : Kind} {cs : List Node} {c : Node} (h : (tree k cs).Conforms)
    (hc : c ∈ cs) (hkind : c.kind.isTerminal = false) :
    Symbol.tree c.kind ∈ (content k).symbols := by
  obtain ⟨hcontent, hbelow⟩ := conforms_tree.1 h
  cases c with
  | token t =>
    have ht := conforms_token.1 (hbelow _ hc)
    rw [show (Node.token t).kind = t.kind from rfl, ht] at hkind
    cases hkind
  | tree k' ds => exact Pattern.mem_symbols hcontent _ (List.mem_map_of_mem hc)

/-- A block stands in a class. -/
theorem eq_classDecl_of_block {k : Kind} {cs : List Node} {c : Node} (h : (tree k cs).Conforms)
    (hc : c ∈ cs) (hblock : c.kind = .classBlock) : k = .classDecl := by
  have hall : ∀ k ∈ Kind.all, Symbol.tree .classBlock ∈ (content k).symbols → k = .classDecl := by
    decide +kernel
  have hmem := kind_of_child h hc (by rw [hblock]; rfl)
  rw [hblock] at hmem
  exact hall k (Kind.mem_all k) hmem

/-- A member stands in a block. -/
theorem eq_classBlock_of_member {k : Kind} {cs : List Node} {c : Node} (h : (tree k cs).Conforms)
    (hc : c ∈ cs) (hmember : c.isMember = true) : k = .classBlock := by
  have hall : ∀ k ∈ Kind.all, ∀ m ∈ memberKinds, Symbol.tree m ∈ (content k).symbols →
      k = .classBlock := by
    decide +kernel
  have hterminal : ∀ m ∈ memberKinds, m.isTerminal = false := by decide
  have hkind : c.kind ∈ memberKinds := List.contains_iff_mem.1 hmember
  exact hall k (Kind.mem_all k) _ hkind (kind_of_child h hc (hterminal _ hkind))

/-- The parts of a class: its statement, perhaps a comment, and its block. -/
theorem exists_of_class {cs : List Node} (h : (tree .classDecl cs).Conforms) :
    ∃ ss comments items, cs = tree .classStatement ss :: (comments ++ [tree .classBlock items]) ∧
      (∀ c ∈ comments, c.kind = .comment) ∧ (tree .classStatement ss).Conforms := by
  obtain ⟨hcontent, hbelow⟩ := conforms_tree.1 h
  obtain ⟨front, last, rfl, hfront, hlast⟩ := Pattern.exists_parts hcontent
  obtain ⟨first, comments, rfl, hfirst, hcomments⟩ := Pattern.exists_parts hfront
  obtain ⟨statement, rfl, hstatement⟩ := Pattern.exists_of_char hfirst
  obtain ⟨block, rfl, hblock⟩ := Pattern.exists_of_char hlast
  obtain ⟨ss, rfl⟩ := eq_tree_of_symbol hstatement
  obtain ⟨items, rfl⟩ := eq_tree_of_symbol hblock
  refine ⟨ss, comments, items, by simp, ?_, hbelow _ (by simp)⟩
  intro c hc
  have hsymbol := Pattern.mem_symbols hcomments _ (List.mem_map_of_mem hc)
  obtain ⟨ds, rfl⟩ := eq_tree_of_symbol (List.mem_singleton.1 hsymbol)
  rfl

/-! ## Members -/

/-- The members directly in a block. -/
def blockMembers (n : Node) : List Node :=
  if n.kind = .classBlock then n.children.filter isMember else []

/-- The members of a class, as its view shows them. -/
def ownMembers (n : Node) : List Node :=
  ((n.view? .classDecl).toList.flatMap ClassView.members).map Member.node

/-- The members of all classes of a tree, as their views show them. -/
def classMembers (n : Node) : List Node :=
  ((n.descendants.filterMap (view? .classDecl)).flatMap ClassView.members).map Member.node

theorem ownMembers_of_ne {k : Kind} (h : k ≠ .classDecl) (cs : List Node) :
    (tree k cs).ownMembers = [] := by
  simp [ownMembers, view?, kind, h]

/-- The view of a class shows the members in its block. -/
theorem ownMembers_classDecl {ss comments items : List Node}
    (hcomments : ∀ c ∈ comments, c.kind = .comment) :
    (tree .classDecl (tree .classStatement ss :: (comments ++ [tree .classBlock items]))).ownMembers =
      items.filter isMember := by
  -- The comments between the statement and the block hide no other block.
  have hnone : comments.find? (fun c => c.kind == .classBlock) = none := by
    rw [List.find?_eq_none]
    intro c hc
    rw [hcomments c hc]
    decide
  have hfirst : (tree .classDecl (tree .classStatement ss ::
      (comments ++ [tree .classBlock items]))).firstOfKind? .classBlock =
        some (tree .classBlock items) := by
    rw [firstOfKind?, children, List.find?_cons_of_neg (by simp [kind]), List.find?_append,
      hnone]
    rfl
  have hview : (tree .classDecl
      (tree .classStatement ss :: (comments ++ [tree .classBlock items]))).view? .classDecl =
        some ⟨_, rfl⟩ := dif_pos rfl
  rw [← map_node_filterMap_of?, ownMembers, hview]
  simp [ClassView.members, ClassView.items, ClassView.block?, hfirst, children]

/-- Only blocks have members as children. -/
theorem filter_isMember_eq_nil {k : Kind} {cs : List Node} (h : (tree k cs).Conforms)
    (hk : k ≠ .classBlock) : cs.filter isMember = [] := by
  rw [List.filter_eq_nil_iff]
  intro c hc hmember
  exact hk (eq_classBlock_of_member h hc hmember)

/-- Only classes have blocks as children. -/
theorem flatMap_blockMembers_eq_nil {k : Kind} {cs : List Node} (h : (tree k cs).Conforms)
    (hk : k ≠ .classDecl) : cs.flatMap blockMembers = [] := by
  rw [List.flatMap_eq_nil_iff]
  intro c hc
  rw [blockMembers, if_neg]
  intro hblock
  exact hk (eq_classDecl_of_block h hc hblock)

/-- The members among the children of a node and in the blocks among them are the members of the
node, if it is a block or a class. -/
theorem members_of_children {k : Kind} {cs : List Node} (h : (tree k cs).Conforms) :
    cs.filter isMember ++ cs.flatMap blockMembers =
      (tree k cs).blockMembers ++ (tree k cs).ownMembers := by
  -- Members stand in blocks only, and blocks in classes only, so one side has the members and the
  -- other is empty.
  by_cases hblock : k = .classBlock
  · subst hblock
    rw [flatMap_blockMembers_eq_nil h (by decide), ownMembers_of_ne (by decide)]
    rfl
  · have hself : (tree k cs).blockMembers = [] := if_neg hblock
    rw [filter_isMember_eq_nil h hblock, hself]
    by_cases hclass : k = .classDecl
    · subst hclass
      obtain ⟨ss, comments, items, rfl, hcomments, -⟩ := exists_of_class h
      have hnone : comments.flatMap blockMembers = [] := by
        rw [List.flatMap_eq_nil_iff]
        intro c hc
        rw [blockMembers, if_neg]
        rw [hcomments c hc]
        decide
      rw [ownMembers_classDecl hcomments, List.flatMap_cons, List.flatMap_append, hnone]
      simp [blockMembers, kind, children]
    · rw [flatMap_blockMembers_eq_nil h hclass, ownMembers_of_ne hclass]

/-- The members of the classes in a tree are those of its own block and of the classes below. -/
theorem classMembers_tree (k : Kind) (cs : List Node) :
    (tree k cs).classMembers = (tree k cs).ownMembers ++ cs.flatMap classMembers := by
  have hfirst : (tree k cs :: cs.flatMap descendants).filterMap (view? .classDecl) =
      ((tree k cs).view? .classDecl).toList ++
        (cs.flatMap descendants).filterMap (view? .classDecl) := by
    rw [List.filterMap_cons]
    cases (tree k cs).view? .classDecl <;> rfl
  simp only [classMembers, ownMembers, descendants_tree, hfirst, List.flatMap_append,
    List.map_append, List.filterMap_flatMap, List.flatMap_assoc, List.map_flatMap]
  congr 2
  funext n
  rw [classMembers, List.map_flatMap]

mutual

/-- The members in a tree are those that the views of its classes show, and besides the tree itself
and the members directly in it, if it is a member or a block. -/
theorem perm_members : (n : Node) → n.Conforms →
    (n.descendants.filter isMember).Perm
      ([n].filter isMember ++ n.blockMembers ++ n.classMembers)
  | .token t, h => by
    -- A terminal is neither a block nor a class.
    have hkind := conforms_token.1 h
    have hblock : t.kind ≠ .classBlock := fun hk => by rw [hk] at hkind; cases hkind
    have hclass : t.kind ≠ .classDecl := fun hk => by rw [hk] at hkind; cases hkind
    simp [descendants, outline, outlineAt, blockMembers, classMembers, view?, kind, hblock, hclass]
  | .tree k cs, h => by
    have hchildren := perm_members_of_children cs (conforms_tree.1 h).2
    rw [descendants_tree, ← List.singleton_append, List.filter_append, classMembers_tree,
      List.append_assoc, ← List.append_assoc (tree k cs).blockMembers, ← members_of_children h]
    exact hchildren.append_left _

/-- The members below a list of trees are its own, those in its blocks, and those of the classes
below. -/
theorem perm_members_of_children : (ns : List Node) → (∀ n ∈ ns, n.Conforms) →
    ((ns.flatMap descendants).filter isMember).Perm
      (ns.filter isMember ++ ns.flatMap blockMembers ++ ns.flatMap classMembers)
  | [], h => by simp
  | n :: ns, h => by
    have hn := perm_members n (h n List.mem_cons_self)
    have hns := perm_members_of_children ns fun m hm => h m (List.mem_cons_of_mem n hm)
    have happend := hn.append hns
    rw [← List.filter_append, ← List.flatMap_cons] at happend
    refine happend.trans ?_
    have hcons : (n :: ns).filter isMember = [n].filter isMember ++ ns.filter isMember := by
      rw [← List.filter_append, List.singleton_append]
    rw [hcons, List.flatMap_cons, List.flatMap_cons, List.perm_iff_count]
    intro m
    simp only [List.count_append]
    omega

end

end Node

/-! ## Names -/

namespace ClassView

/-- The name of a class is the word behind `class`, and no other word stands before. -/
def Named (c : ClassView) : Prop :=
  ∃ modifiers word name rest,
    c.statement? = some (.tree .classStatement (modifiers ++ .token word :: .token name :: rest)) ∧
    (∀ m ∈ modifiers, m.kind ≠ .ident) ∧ word.kind = .ident ∧ word.text = "class" ∧
    name.kind = .ident ∧ c.name? = some name.text

end ClassView

namespace Node

/-- A statement has modifiers, the word `class` and then the name. -/
theorem exists_of_statement {ss : List Node} (h : (tree .classStatement ss).Conforms) :
    ∃ modifiers word name rest, ss = modifiers ++ token word :: token name :: rest ∧
      (∀ m ∈ modifiers, m.kind ≠ .ident) ∧ word.kind = .ident ∧ word.text = "class" ∧
      name.kind = .ident := by
  obtain ⟨hcontent, hbelow⟩ := conforms_tree.1 h
  -- The content of a statement is a product of five patterns, taken apart from the right.
  obtain ⟨front, bases, rfl, hfront, -⟩ := Pattern.exists_parts hcontent
  obtain ⟨front, params, rfl, hfront, -⟩ := Pattern.exists_parts hfront
  obtain ⟨front, names, rfl, hfront, hnames⟩ := Pattern.exists_parts hfront
  obtain ⟨modifiers, words, rfl, hmodifiers, hwords⟩ := Pattern.exists_parts hfront
  obtain ⟨w, rfl, hw⟩ := Pattern.exists_of_char hwords
  obtain ⟨word, rfl, hword, htext⟩ := eq_token_of_classWord hw
  obtain ⟨name, rfl, hname⟩ := Pattern.exists_of_terminal hnames
  refine ⟨modifiers, word, name, params ++ bases, by simp, ?_, hword, htext, hname⟩
  intro m hm
  -- A modifier is a terminal of another kind than a word.
  have hall : ∀ a ∈ classModifiers.symbols, ∃ k ∈ Kind.all, k ≠ .ident ∧ a = .terminal k := by
    decide +kernel
  obtain ⟨k, -, hk, hsymbol⟩ :=
    hall _ (Pattern.mem_symbols hmodifiers _ (List.mem_map_of_mem hm))
  obtain ⟨t, rfl, ht⟩ := eq_token_of_symbol hsymbol
  exact fun hident => hk (ht.symm.trans hident)

/-- The name of every class in a conforming tree is the word behind `class`. -/
theorem named_of_conforms {c : ClassView} (h : c.node.Conforms) : c.Named := by
  obtain ⟨n, hn⟩ := c
  obtain ⟨cs, rfl⟩ : ∃ cs, n = tree .classDecl cs := by
    cases n with
    | token t =>
      have hkind := conforms_token.1 h
      rw [show t.kind = .classDecl from hn] at hkind
      cases hkind
    | tree k cs =>
      cases hn
      exact ⟨cs, rfl⟩
  obtain ⟨ss, comments, items, rfl, -, hstatement⟩ := exists_of_class h
  obtain ⟨modifiers, word, name, rest, rfl, hmodifiers, hword, htext, hname⟩ :=
    exists_of_statement hstatement
  refine ⟨modifiers, word, name, rest, rfl, hmodifiers, hword, htext, hname, ?_⟩
  -- The name is read as the second word, and modifiers are not words.
  have hnone : modifiers.filter (fun m => m.kind == .ident) = [] := by
    rw [List.filter_eq_nil_iff]
    intro m hm
    simpa using hmodifiers m hm
  show (((tree .classStatement (modifiers ++ token word :: token name :: rest)).allOfKind
    .ident)[1]?).bind text? = some name.text
  rw [allOfKind, children, List.filter_append, hnone,
    List.filter_cons_of_pos (by simp [kind, hword]), List.filter_cons_of_pos (by simp [kind, hname])]
  rfl

end Node

/-! ## Units -/

/-- Annotation drops no member and adds none. -/
theorem ClassView.map_fst_annotate (ns : List Node) :
    (annotate ns).map Prod.fst = ns.filterMap Member.of? := by
  induction ns with
  | nil => rfl
  | cons n ns ih =>
    simp only [annotate, List.filterMap_cons]
    cases Member.of? n with
    | none => exact ih
    | some m => exact congrArg (m :: ·) ih

/-- The views of a unit show all classes that a walk enters, in order and each by its name, and in
them all members, each once. -/
structure UnitView.ShowsAll (u : UnitView) : Prop where
  classes : u.allClasses.map View.node =
    (u.node.walk.filterMap Visit.entered?).filter (·.kind = .classDecl)
  members : ((u.allClasses.flatMap ClassView.members).map Member.node).Perm
    (u.node.descendants.filter Node.isMember)
  annotated : ∀ c ∈ u.allClasses, c.annotatedMembers.map Prod.fst = c.members
  named : ∀ c ∈ u.allClasses, c.Named

/-- What the views of a unit show is what is below it: no class is missed, and no member. -/
theorem UnitView.showsAll {u : UnitView} (h : u.node.Conforms) : u.ShowsAll where
  classes := by
    rw [Node.entered_walk]
    exact Node.map_node_filterMap_view? .classDecl _
  members := by
    have hperm := u.node.perm_members h
    -- A unit is neither a member nor a block, so all members stand below it in classes.
    have hself : [u.node].filter Node.isMember = [] := by
      simp [Node.isMember, u.kind_eq, memberKinds]
    have hblock : u.node.blockMembers = [] := if_neg (by rw [u.kind_eq]; decide)
    rw [hself, hblock] at hperm
    exact hperm.symm
  annotated := fun c _ => ClassView.map_fst_annotate c.items
  named := by
    intro c hc
    obtain ⟨n, hn, hview⟩ := List.mem_filterMap.1 hc
    have hnode := Node.node_view? .classDecl n
    rw [hview, Option.map_some] at hnode
    split at hnode
    · cases hnode
      exact Node.named_of_conforms (u.node.conforms_of_mem h _ hn)
    · cases hnode

/-- What is parsed from a whole text is a unit whose views show all of it. -/
theorem exists_unit {text : String} {tree : Node} (h : parseUnit text = .ok tree) :
    ∃ unit : UnitView, tree.view? .compilationUnit = some unit ∧ unit.node = tree ∧
      unit.ShowsAll := by
  rw [parseUnit, reportUnit, Lexer.new_eq_fresh] at h
  obtain ⟨hmade, hconforms⟩ := Grammar.conforms_of_parse .unitItems rfl (fun _ => .nil _) h
  obtain ⟨cs, rfl⟩ := Node.eq_tree_of_symbol (List.singleton_inj.1 hmade)
  exact ⟨⟨_, rfl⟩, dif_pos rfl, rfl, UnitView.showsAll hconforms⟩

/-- The numbers that are printed for a text are those of the nodes in its tree. -/
theorem summary_eq {text : String} {tree : Node} (h : parseUnit text = .ok tree) :
    Command.summary tree =
      s!"{tree.countKinds [.classDecl]} classes, {tree.countKinds memberKinds} members" := by
  obtain ⟨unit, hunit, rfl, hall⟩ := exists_unit h
  have hclasses : unit.allClasses.length = unit.node.countKinds [.classDecl] := by
    have hlen := congrArg List.length hall.classes
    rw [List.length_map, Node.entered_walk, ← List.countP_eq_length_filter] at hlen
    rw [hlen, Node.countKinds]
    congr 1
    funext m
    simp
  have hmembers : (unit.allClasses.flatMap ClassView.members).length =
      unit.node.countKinds memberKinds := by
    have hlen := hall.members.length_eq
    rw [List.length_map, ← List.countP_eq_length_filter] at hlen
    exact hlen
  rw [Command.summary, hunit]
  simp only [hclasses, hmembers]

/-! ## Runs of the command -/

namespace Disk

/-- The tree of a file that can be read and is parsed without an error. -/
def accepted? (d : Disk) (path : String) : Option Node :=
  match d.read path with
  | .ok text => (parseUnit text).toOption
  | .error _ => none

/-- The line for a file that is accepted. -/
def countLine (d : Disk) (path : String) : String :=
  match d.accepted? path with
  | some tree =>
    s!"{path}: {tree.countKinds [.classDecl]} classes, {tree.countKinds memberKinds} members\n"
  | none => ""

variable {d : Disk}

/-- One file is checked: its line is printed if it is accepted, and the disk stays as it is. -/
theorem checkOne_eq (d : Disk) (render : Renderer) (verbose : Bool) (path : String) :
    ∃ err, Command.checkOne host render verbose path d =
      ((d.countLine path, err, (d.accepted? path).isSome), d) := by
  simp only [Command.checkOne, read_bind, countLine, accepted?]
  cases d.read path with
  | error cause => exact ⟨_, rfl⟩
  | ok text =>
    cases hresult : parseUnit text with
    | error e =>
      have hreport : (reportUnit text).result = .error e := hresult
      simp only [hreport, hresult]
      exact ⟨_, rfl⟩
    | ok tree =>
      have hreport : (reportUnit text).result = .ok tree := hresult
      simp only [hreport, hresult, summary_eq hresult, Except.toOption]
      refine ⟨Command.logText verbose (reportUnit text).events, ?_⟩
      simp only [String.append_assoc, toString]
      rfl

/-- Files are checked one after the other. -/
theorem mapM_checkOne (d : Disk) (render : Renderer) (verbose : Bool) (paths : List String) :
    ∃ results, paths.mapM (Command.checkOne host render verbose) d = (results, d) ∧
      results.map (·.1) = paths.map d.countLine ∧
      results.map (·.2.2) = paths.map fun path => (d.accepted? path).isSome := by
  induction paths with
  | nil => exact ⟨[], rfl, rfl, rfl⟩
  | cons path paths ih =>
    obtain ⟨results, hresults, hlines, hgood⟩ := ih
    obtain ⟨err, hone⟩ := d.checkOne_eq render verbose path
    refine ⟨(d.countLine path, err, (d.accepted? path).isSome) :: results, ?_, ?_, ?_⟩
    · simp only [List.mapM_cons, bind, StateT.bind, hone, hresults]
      rfl
    · rw [List.map_cons, List.map_cons, hlines]
    · rw [List.map_cons, List.map_cons, hgood]

/-- The number of files that are not accepted. -/
def rejected (d : Disk) (paths : List String) : Nat :=
  paths.countP fun path => (d.accepted? path).isNone

/-- A run prints the lines of all files, and ends well if none is rejected. -/
theorem perform_check (d : Disk) (render : Renderer) (verbose : Bool) (paths : List String) :
    ∃ err, d.perform render ⟨verbose, .check paths⟩ =
      ((if d.rejected paths = 0 then Transcript.success ""
        else Transcript.failure
          s!"{d.rejected paths} of {paths.length} files failed to parse" none).after
        (String.join (paths.map d.countLine)) err, d) := by
  obtain ⟨results, hresults, hlines, hgood⟩ := d.mapM_checkOne render verbose paths
  -- The run counts the results that are not good, and the files without a tree are the same.
  have hfailures : (results.filter fun r => !r.2.2).length = d.rejected paths := by
    calc (results.filter fun r => !r.2.2).length
        = (results.map (·.2.2)).countP (!·) := by
          rw [← List.countP_eq_length_filter, List.countP_map]
          rfl
      _ = d.rejected paths := by
          rw [hgood, List.countP_map, rejected]
          congr 1
          funext path
          exact Option.not_isSome _
  refine ⟨String.join (results.map (·.2.1)), ?_⟩
  rw [← hlines, ← hfailures]
  simp only [perform, Command.run, Command.runCheck, bind, StateT.bind, hresults]
  rfl

/-- No file is rejected iff each one is accepted. -/
theorem rejected_eq_zero {paths : List String} :
    d.rejected paths = 0 ↔ ∀ path ∈ paths, ∃ tree, d.accepted? path = some tree := by
  rw [rejected, List.countP_eq_zero]
  refine forall₂_congr fun path _ => ?_
  rw [Option.isNone_iff_eq_none]
  exact Option.ne_none_iff_exists'

end Disk

/-- A line is printed for every file that is accepted, in order, with the numbers of classes and
members in its tree; the run ends well if all files are accepted, and otherwise tells how many are
not. All this holds however diagnostics are shown. -/
theorem check_exact (d : Disk) (render : Renderer) (verbose : Bool) (paths : List String) :
    let result := d.perform render ⟨verbose, .check paths⟩
    result.2 = d ∧
    result.1.out = String.join (paths.map d.countLine) ∧
    (result.1.code = 0 ↔ ∀ path ∈ paths, ∃ tree, d.accepted? path = some tree) ∧
    (result.1.code ≠ 0 → ∃ before, result.1.err =
      before ++ s!"Error: {d.rejected paths} of {paths.length} files failed to parse\n") ∧
    ∀ text tree, parseUnit text = .ok tree →
      ∃ unit : UnitView, tree.view? .compilationUnit = some unit ∧ unit.node = tree ∧
        unit.ShowsAll := by
  intro result
  obtain ⟨err, hrun⟩ := d.perform_check render verbose paths
  rw [← Disk.rejected_eq_zero]
  have hresult : result = _ := hrun
  -- All is read off the result of the run, which is a success or a failure by the number of
  -- rejected files.
  by_cases hzero : d.rejected paths = 0
  · rw [if_pos hzero] at hresult
    rw [hresult]
    refine ⟨rfl, String.append_empty, ⟨fun _ => hzero, fun _ => rfl⟩, ?_, fun _ _ => exists_unit⟩
    intro hcode
    exact absurd rfl hcode
  · rw [if_neg hzero] at hresult
    rw [hresult]
    refine ⟨rfl, String.append_empty, ⟨fun hcode => ?_, fun h => absurd h hzero⟩, ?_,
      fun _ _ => exists_unit⟩
    · cases hcode
    · intro _
      refine ⟨err, ?_⟩
      simp only [Transcript.after, Transcript.failure, toString, String.append_assoc]
      rfl

/-- A class in a class in a namespace, with members before and behind the inner one. -/
def scatteredMembers : String :=
  "namespace N \x7b class A \x7b int x; class B \x7b void m(); \x7d A(); \x7d \x7d"

/-- A disk with this text, one that is not UTF-8 and one that is not parsed. -/
def mixedDisk : Disk :=
  .ofFiles [("a.cs", scatteredMembers.toUTF8), ("b.cs", ⟨#[255]⟩), ("c.cs", "class".toUTF8)]

/-- One file is given twice; of the other three, one is not UTF-8, one is missing and one is not
parsed. -/
theorem check_exact_mixed :
    let result := mixedDisk.perform Diagnostic.render
      ⟨false, .check ["a.cs", "b.cs", "a.cs", "d.cs", "c.cs"]⟩
    result.1.out =
      "a.cs: 2 classes, 3 members\na.cs: 2 classes, 3 members\n" ∧
    (∃ before, result.1.err = before ++ "Error: 3 of 5 files failed to parse\n") ∧
    ∃ (tree : Node) (unit : UnitView), parseUnit scatteredMembers = .ok tree ∧ unit.node = tree ∧
      unit.ShowsAll := by
  intro result
  obtain ⟨-, hout, hcode, herr, hall⟩ :=
    check_exact mixedDisk Diagnostic.render false ["a.cs", "b.cs", "a.cs", "d.cs", "c.cs"]
  -- The lines and the count are evaluated on this disk; that the run gives them is the theorem.
  have hlines : String.join (["a.cs", "b.cs", "a.cs", "d.cs", "c.cs"].map mixedDisk.countLine) =
      "a.cs: 2 classes, 3 members\na.cs: 2 classes, 3 members\n" := by
    decide +kernel
  have hrejected : mixedDisk.rejected ["a.cs", "b.cs", "a.cs", "d.cs", "c.cs"] = 3 := by
    decide +kernel
  have hok : (parseUnit scatteredMembers).isOk = true := by decide +kernel
  refine ⟨hout.trans hlines, ?_, ?_⟩
  · rw [hrejected] at herr
    apply herr
    rw [Ne, hcode, ← Disk.rejected_eq_zero, hrejected]
    decide
  · obtain ⟨tree, h⟩ := exists_of_isOk hok
    obtain ⟨unit, -, hunit, hshows⟩ := hall _ _ h
    exact ⟨tree, unit, h, hunit, hshows⟩

end Lossless
