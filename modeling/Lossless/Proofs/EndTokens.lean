import Lossless.Proofs.Locality
import Lossless.Proofs.Traversal

/-!
# The ends of a tree

The first token of a tree is sought from the left and the last one from the right, past subtrees
that have no token. Both are found where a walk puts them, at the two ends of the terminals that it
enters. The last token can be changed in place. What the tree is otherwise is said by its labels,
which list the nodes in pre-order, each with its depth and without what is below it; a change of the
last token changes one label and no other (`Node.labelsAt_modify`).

The tokens of a list can be fused into one, which owns the blanks at the two ends of the list and
has all other blanks in its text.

* `Node.endTokens_exact`: the first and the last token, and the blanks behind the last one;
* `Node.merge?_exact`: fused tokens.
-/

namespace Lossless

/-- A node in the pre-order of a tree: its depth and what it is without what is below it, the token
of a terminal or the kind of a non-terminal. -/
structure Label where
  depth : Nat
  content : Token ⊕ Kind
deriving DecidableEq, Repr

namespace Label

/-- The label of a node at a depth. -/
def ofNode (depth : Nat) : Node → Label
  | .token t => ⟨depth, .inl t⟩
  | .tree k _ => ⟨depth, .inr k⟩

def token? (e : Label) : Option Token := e.content.getLeft?

theorem token?_ofNode (depth : Nat) (n : Node) : (ofNode depth n).token? = n.token? := by
  cases n <;> rfl

/-- Two lists of labels that differ in one token, in place of which the other list has `f t`, and
that have no token behind it. -/
def LastChanged (f : Token → Token) (t : Token) (es es' : List Label) : Prop :=
  ∃ front depth back, es = front ++ ⟨depth, .inl t⟩ :: back ∧
    es' = front ++ ⟨depth, .inl (f t)⟩ :: back ∧ ∀ e ∈ back, e.token? = none

namespace LastChanged

variable {f : Token → Token} {t : Token} {es es' : List Label}

/-- Labels in front play no part in the change. -/
theorem behind (h : LastChanged f t es es') (more : List Label) :
    LastChanged f t (more ++ es) (more ++ es') := by
  obtain ⟨front, depth, back, rfl, rfl, hback⟩ := h
  exact ⟨more ++ front, depth, back, by simp, by simp, hback⟩

/-- Labels behind play no part either, unless they have a token. -/
theorem before (h : LastChanged f t es es') {more : List Label}
    (hmore : ∀ e ∈ more, e.token? = none) : LastChanged f t (es ++ more) (es' ++ more) := by
  obtain ⟨front, depth, back, rfl, rfl, hback⟩ := h
  refine ⟨front, depth, back ++ more, by simp, by simp, ?_⟩
  intro e he
  rcases List.mem_append.1 he with he | he
  · exact hback e he
  · exact hmore e he

/-- The changed token is the last one of both lists. -/
theorem tokens (h : LastChanged f t es es') :
    ∃ ts, es.filterMap token? = ts ++ [t] ∧ es'.filterMap token? = ts ++ [f t] := by
  obtain ⟨front, depth, back, rfl, rfl, hback⟩ := h
  have hnil : back.filterMap token? = [] := List.filterMap_eq_nil_iff.2 hback
  have htoken : ∀ u : Token, (front ++ ⟨depth, .inl u⟩ :: back).filterMap token? =
      front.filterMap token? ++ [u] := by
    intro u
    have hu : token? ⟨depth, .inl u⟩ = some u := rfl
    rw [List.filterMap_append, List.filterMap_cons_some hu, hnil]
  exact ⟨front.filterMap token?, htoken t, htoken (f t)⟩

end LastChanged

end Label

namespace Node

/-! ## First and last -/

mutual

/-- The search from the left finds the first token. -/
theorem firstToken?_eq : (n : Node) → n.firstToken? = n.tokens.head?
  | .token _ => rfl
  | .tree _ cs => firstTokenIn?_eq cs

theorem firstTokenIn?_eq : (ns : List Node) → firstTokenIn? ns = (tokensIn ns).head?
  | [] => rfl
  | n :: ns => by
    rw [firstTokenIn?, tokensIn, List.head?_append, firstToken?_eq n, firstTokenIn?_eq ns]

end

mutual

/-- The search from the right finds the last token. -/
theorem lastToken?_eq : (n : Node) → n.lastToken? = n.tokens.getLast?
  | .token _ => rfl
  | .tree _ cs => lastTokenIn?_eq cs

theorem lastTokenIn?_eq : (ns : List Node) → lastTokenIn? ns = (tokensIn ns).getLast?
  | [] => rfl
  | n :: ns => by
    rw [lastTokenIn?, tokensIn, List.getLast?_append, lastToken?_eq n, lastTokenIn?_eq ns]

end

/-- A tree has no token iff a walk enters no terminal. -/
theorem tokens_eq_nil_iff (n : Node) :
    n.tokens = [] ↔ ∀ m ∈ n.walk.filterMap Visit.entered?, m.isToken = false := by
  rw [entered_walk, ← tokens_outlineAt n 0]
  refine List.filterMap_eq_nil_iff.trans (forall₂_congr fun m _ => ?_)
  rw [isToken, Option.isSome_eq_false_iff, Option.isNone_iff_eq_none]

/-! ## Labels -/

/-- The labels of a tree whose root has the given depth, in pre-order. -/
def labelsAt (depth : Nat) (n : Node) : List Label :=
  (n.outlineAt depth).map fun e => .ofNode e.1 e.2

def labelsIn (depth : Nat) (ns : List Node) : List Label :=
  (outlineIn depth ns).map fun e => .ofNode e.1 e.2

theorem labelsAt_tree (depth : Nat) (k : Kind) (cs : List Node) :
    (tree k cs).labelsAt depth = [⟨depth, .inr k⟩] ++ labelsIn (depth + 1) cs := rfl

/-- The labels of trees in a row are put together from those of the trees. -/
theorem labelsIn_cons (depth : Nat) (n : Node) (ns : List Node) :
    labelsIn depth (n :: ns) = n.labelsAt depth ++ labelsIn depth ns := by
  rw [labelsIn, outlineIn, List.map_append]
  rfl

/-- The tokens of a tree can be read off its labels. -/
theorem tokens_labelsAt (n : Node) (depth : Nat) :
    (n.labelsAt depth).filterMap Label.token? = n.tokens := by
  rw [← tokens_outlineAt n depth, labelsAt, List.filterMap_map, List.filterMap_map]
  simp only [Function.comp_def, Label.token?_ofNode]

theorem tokens_labelsIn (ns : List Node) (depth : Nat) :
    (labelsIn depth ns).filterMap Label.token? = tokensIn ns := by
  rw [← tokens_outlineIn ns depth, labelsIn, List.filterMap_map, List.filterMap_map]
  simp only [Function.comp_def, Label.token?_ofNode]

mutual

/-- A change of the last token changes its label and no other. -/
theorem labelsAt_modify {f : Token → Token} : (n : Node) → (depth : Nat) → {m : Node} →
    n.modifyLastToken? f = some m → ∃ t, Label.LastChanged f t (n.labelsAt depth) (m.labelsAt depth)
  | .token t, depth, m, h => by
    cases h
    exact ⟨t, [], depth, [], rfl, rfl, fun e he => absurd he List.not_mem_nil⟩
  | .tree k cs, depth, m, h => by
    rw [modifyLastToken?, Option.map_eq_some_iff] at h
    obtain ⟨ms, hms, rfl⟩ := h
    obtain ⟨t, ht⟩ := labelsIn_modify cs (depth + 1) hms
    rw [labelsAt_tree, labelsAt_tree]
    exact ⟨t, ht.behind _⟩

/-- In a list it is the last tree with a token that is changed. -/
theorem labelsIn_modify {f : Token → Token} : (ns : List Node) → (depth : Nat) → {ms : List Node} →
    modifyLastTokenIn? f ns = some ms →
      ∃ t, Label.LastChanged f t (labelsIn depth ns) (labelsIn depth ms)
  | [], depth, ms, h => by cases h
  | n :: ns, depth, ms, h => by
    rw [modifyLastTokenIn?] at h
    cases hns : modifyLastTokenIn? f ns with
    | some ns' =>
      rw [hns] at h
      cases h
      obtain ⟨t, ht⟩ := labelsIn_modify ns depth hns
      rw [labelsIn_cons, labelsIn_cons]
      exact ⟨t, ht.behind _⟩
    | none =>
      rw [hns] at h
      obtain ⟨m, hm, rfl⟩ := Option.map_eq_some_iff.1 h
      obtain ⟨t, ht⟩ := labelsAt_modify n depth hm
      -- Nothing behind the tree `n` is a terminal.
      have hlast := (modifyLastTokenIn?_eq_none ns).1 hns
      rw [lastTokenIn?_eq, List.getLast?_eq_none_iff, ← tokens_labelsIn ns depth] at hlast
      rw [labelsIn_cons, labelsIn_cons]
      exact ⟨t, ht.before (List.filterMap_eq_nil_iff.1 hlast)⟩

end

/-! ## The blanks behind the last token -/

/-- Takes the blanks behind the last token away and gives them with the tree that is left, if there
is a token. -/
def takeLastTrailing? (n : Node) : Option (Trivia × Node) := do
  let t ← n.lastToken?
  let m ← n.modifyLastToken? fun t => { t with trailing := .empty }
  some (t.trailing, m)

/-- There is nothing to take from iff the tree has no token. -/
theorem takeLastTrailing?_eq_none (n : Node) : n.takeLastTrailing? = none ↔ n.tokens = [] := by
  have hlast : n.lastToken? = none ↔ n.tokens = [] := by
    rw [lastToken?_eq, List.getLast?_eq_none_iff]
  rw [← hlast]
  cases ht : n.lastToken? with
  | none => simp [takeLastTrailing?, ht]
  | some t =>
    cases hm : n.modifyLastToken? fun t => { t with trailing := .empty } with
    | none =>
      rw [(modifyLastToken?_eq_none n).1 hm] at ht
      cases ht
    | some m => simp [takeLastTrailing?, ht, hm]

/-- The blanks that are taken were those of the last token, and nothing else is changed. -/
theorem takeLastTrailing?_eq_some {n n' : Node} {r : Trivia}
    (h : n.takeLastTrailing? = some (r, n')) :
    ∃ t, t.trailing = r ∧
      Label.LastChanged (fun t => { t with trailing := .empty }) t (n.labelsAt 0) (n'.labelsAt 0) := by
  simp only [takeLastTrailing?, Option.bind_eq_bind, Option.bind_eq_some_iff, Option.some.injEq,
    Prod.mk.injEq] at h
  obtain ⟨t, ht, m, hm, rfl, rfl⟩ := h
  obtain ⟨u, hu⟩ := labelsAt_modify n 0 hm
  obtain ⟨ts, hts, -⟩ := hu.tokens
  rw [lastToken?_eq, ← tokens_labelsAt n 0, hts, List.getLast?_concat] at ht
  cases ht
  exact ⟨t, rfl, hu⟩

/-- The first and the last token of a tree are the first and the last terminal that a walk enters,
and there is none iff the walk enters no terminal. When the blanks behind the last token are taken
away, the source text loses exactly their text, at its end, and no other node is changed. -/
theorem endTokens_exact (n : Node) :
    let nodes := n.walk.filterMap Visit.entered?
    n.firstToken? = (nodes.filterMap token?).head? ∧
    n.lastToken? = (nodes.filterMap token?).getLast? ∧
    (n.firstToken? = none ↔ ∀ m ∈ nodes, m.isToken = false) ∧
    (n.lastToken? = none ↔ ∀ m ∈ nodes, m.isToken = false) ∧
    (n.takeLastTrailing? = none ↔ ∀ m ∈ nodes, m.isToken = false) ∧
    ∀ r n', n.takeLastTrailing? = some (r, n') →
      n.reconstruct = n'.reconstruct ++ String.ofList r.chars ∧
      ∃ t, t.trailing = r ∧ n.lastToken? = some t ∧
        Label.LastChanged (fun t => { t with trailing := .empty }) t (n.labelsAt 0)
          (n'.labelsAt 0) := by
  intro nodes
  -- All three functions are stated of the tokens, and these are the terminals of the walk.
  have htokens : nodes.filterMap token? = n.tokens := by
    rw [← tokens_outlineAt n 0]
    exact congrArg (List.filterMap token?) n.entered_walk
  have hnone := n.tokens_eq_nil_iff
  refine ⟨by rw [htokens, firstToken?_eq], by rw [htokens, lastToken?_eq], ?_, ?_, ?_, ?_⟩
  · rw [firstToken?_eq, List.head?_eq_none_iff]
    exact hnone
  · rw [lastToken?_eq, List.getLast?_eq_none_iff]
    exact hnone
  · rw [takeLastTrailing?_eq_none]
    exact hnone
  · -- The taken blanks are the last of the text, since no other token stands behind them.
    intro r n' h
    obtain ⟨t, rfl, ht⟩ := takeLastTrailing?_eq_some h
    obtain ⟨ts, hold, hnew⟩ := ht.tokens
    rw [tokens_labelsAt] at hold hnew
    refine ⟨?_, t, rfl, ?_, ht⟩
    · rw [reconstruct, chars, hold, reconstruct, chars, hnew, ← String.ofList_append]
      simp [Token.chars, Token.ownChars]
    · rw [lastToken?_eq, hold, List.getLast?_concat]

/-- A block in which trees without a token stand in front of the first one and behind the last. -/
def hollowBlock : Node :=
  .tree .classBlock
    [.tree .field [.tree .typeRef []], .token { kind := .ident, text := "a" },
      .tree .property
        [.token { kind := .semicolon, text := ";", trailing := ⟨[⟨.whitespace, 2⟩, ⟨.newline, 1⟩]⟩ },
          .tree .memberName []],
      .tree .method []]

/-- The blanks behind the semicolon are taken, past two trees without a token. -/
theorem hollowBlock_endTokens :
    ∃ r n', hollowBlock.takeLastTrailing? = some (r, n') ∧ r.chars = [' ', ' ', '\n'] ∧
      n'.reconstruct = "a;" ∧ hollowBlock.reconstruct = n'.reconstruct ++ String.ofList r.chars := by
  have htake : ∃ p, hollowBlock.takeLastTrailing? = some p ∧ p.1.chars = [' ', ' ', '\n'] ∧
      p.2.reconstruct = "a;" := ⟨_, rfl, by decide +kernel, by decide +kernel⟩
  obtain ⟨⟨r, n'⟩, h, hr, hn'⟩ := htake
  exact ⟨r, n', h, hr, hn', ((endTokens_exact hollowBlock).2.2.2.2.2 r n' h).1⟩

/-! ## Fused tokens -/

/-- A list of nodes has a token each iff it is a list of terminals. -/
theorem mapM_token?_iff {ns : List Node} {ts : List Token} :
    ns.mapM token? = some ts ↔ ns = ts.map .token := by
  constructor
  · intro h
    induction ns generalizing ts with
    | nil =>
      cases h
      rfl
    | cons n ns ih =>
      simp only [List.mapM_cons, Option.bind_eq_bind, Option.bind_eq_some_iff] at h
      obtain ⟨t, ht, us, hus, hts⟩ := h
      cases hts
      cases n with
      | tree k cs => cases ht
      | token u =>
        cases ht
        rw [List.map_cons, ih hus]
  · rintro rfl
    induction ts with
    | nil => rfl
    | cons t ts ih => simp [List.mapM_cons, token?, ih]

/-- Only a list of tokens, at least one, is fused. -/
theorem merge?_eq_some_iff {k : Kind} {ns : List Node} {m : Node} :
    merge? k ns = some m ↔
      ∃ t ts, ns = (t :: ts).map .token ∧ m = .token (.fuse k (t :: ts)) := by
  constructor
  · intro h
    rw [merge?] at h
    split at h
    · cases h
    · rename_i hne
      obtain ⟨us, hus, rfl⟩ := Option.map_eq_some_iff.1 h
      rw [mapM_token?_iff] at hus
      subst hus
      cases us with
      | nil => exact absurd rfl hne
      | cons t ts => exact ⟨t, ts, rfl, rfl⟩
  · rintro ⟨t, ts, rfl, rfl⟩
    have hmap := mapM_token?_iff.2 (Eq.refl ((t :: ts).map Node.token))
    rw [merge?, hmap]
    rfl

theorem exists_tokens_iff {ns : List Node} :
    (∃ ts : List Token, ns = ts.map Node.token) ↔ ∀ n ∈ ns, n.isToken = true := by
  constructor
  · rintro ⟨ts, rfl⟩ n hn
    obtain ⟨t, -, rfl⟩ := List.mem_map.1 hn
    rfl
  · intro h
    exact ⟨_, mapM_token?_iff.1 (Grammar.mapM_token? h)⟩

/-- Nothing is fused from an empty list, nor from one with a tree in it. -/
theorem merge?_eq_none_iff {k : Kind} {ns : List Node} :
    merge? k ns = none ↔ ns = [] ∨ ∃ n ∈ ns, n.isToken = false := by
  constructor
  · intro h
    -- A list of terminals that is not empty is merged, which leaves the two reasons.
    by_cases htokens : ∀ n ∈ ns, n.isToken = true
    · obtain ⟨ts, rfl⟩ := exists_tokens_iff.2 htokens
      cases ts with
      | nil => exact Or.inl rfl
      | cons t ts =>
        rw [merge?_eq_some_iff.2 ⟨t, ts, rfl, rfl⟩] at h
        cases h
    · right
      simpa using htokens
  · intro h
    cases hm : merge? k ns with
    | none => rfl
    | some m =>
      obtain ⟨t, ts, hns, -⟩ := merge?_eq_some_iff.1 hm
      have htokens := exists_tokens_iff.1 ⟨_, hns⟩
      rcases h with rfl | ⟨n, hn, htree⟩
      · cases hns
      · rw [htokens n hn] at htree
        cases htree

/-- The source text of a token: its text, in quotation marks if it is a string, between its
blanks. -/
theorem reconstruct_token (t : Token) :
    (Node.token t).reconstruct = String.ofList t.leading.chars ++
      (if t.kind = .stringLit then "\"" ++ t.text ++ "\"" else t.text) ++
      String.ofList t.trailing.chars := by
  apply String.toList_injective
  rw [reconstruct, chars_token, Token.chars, Token.ownChars]
  split <;> simp

/-- The source text of tokens in a row. -/
theorem join_reconstruct (ts : List Token) :
    String.join ((ts.map Node.token).map reconstruct) = String.ofList (ts.flatMap Token.chars) := by
  apply String.toList_injective
  rw [String.toList_join, String.toList_ofList, List.flatMap_map, List.flatMap_map]
  simp only [reconstruct, chars_token, String.toList_ofList]

/-- Tokens are fused iff there is one and nothing else among them. The fused token is of the given
kind and has no value, the blanks in front of the first token and the blanks behind the last. With
these around it, its text is the source text of the list, in which strings have their quotation
marks; so is its own source text, unless its kind puts quotation marks around the whole. -/
theorem merge?_exact (k : Kind) (ns : List Node) :
    (merge? k ns = none ↔ ns = [] ∨ ∃ n ∈ ns, n.isToken = false) ∧
    ∀ m, merge? k ns = some m →
      ∃ first last t : Token, ns.head? = some (.token first) ∧ ns.getLast? = some (.token last) ∧
        m = .token t ∧ t.kind = k ∧ t.value = none ∧
        t.leading = first.leading ∧ t.trailing = last.trailing ∧
        String.ofList t.leading.chars ++ t.text ++ String.ofList t.trailing.chars =
          String.join (ns.map reconstruct) ∧
        (k ≠ .stringLit → m.reconstruct = String.join (ns.map reconstruct)) ∧
        ∀ u, .token u ∈ ns → (Node.token u).reconstruct =
          String.ofList u.leading.chars ++
            (if u.kind = .stringLit then "\"" ++ u.text ++ "\"" else u.text) ++
            String.ofList u.trailing.chars := by
  refine ⟨merge?_eq_none_iff, ?_⟩
  intro m hm
  obtain ⟨t, ts, rfl, rfl⟩ := merge?_eq_some_iff.1 hm
  have hlast : (t :: ts).getLast? = some ((t :: ts).getLast (List.cons_ne_nil t ts)) :=
    List.getLast?_eq_some_getLast _
  -- Source texts are kept by every kind but that of strings.
  have hkept : ∀ k, k ≠ .stringLit → (Node.token (.fuse k (t :: ts))).reconstruct =
      String.join (((t :: ts).map Node.token).map reconstruct) := by
    intro k hk
    rw [join_reconstruct, reconstruct, chars_token, Token.chars_fuse hk]
  refine ⟨t, (t :: ts).getLast (List.cons_ne_nil t ts), .fuse k (t :: ts), rfl, ?_, rfl, rfl, rfl, rfl,
    ?_, ?_, hkept k, fun u _ => reconstruct_token u⟩
  · rw [List.getLast?_map, hlast]
    rfl
  · rw [Token.fuse, hlast]
    rfl
  · -- The text is the same for all kinds, and a word has no quotation marks.
    have hword := hkept .ident (by decide)
    rw [reconstruct_token] at hword
    exact hword

/-- A string, a point and a word, with blanks on both sides of the point. -/
def quotedPath : List Node :=
  [.token
      { kind := .stringLit, text := "x y"
        leading := ⟨[⟨.tab, 1⟩]⟩, trailing := ⟨[⟨.whitespace, 1⟩]⟩ },
    .token { kind := .dot, text := ".", leading := ⟨[⟨.newline, 2⟩]⟩ },
    .token { kind := .ident, text := "z", trailing := ⟨[⟨.newline, 1⟩]⟩ }]

/-- The string keeps its quotation marks in the text of the comment; in front of a tree nothing is
fused. -/
theorem merge?_quotedPath :
    merge? .commentText (.tree .field [] :: quotedPath) = none ∧
    ∃ m, merge? .commentText quotedPath = some m ∧ m.text? = some "\"x y\" \r\n.z" ∧
      m.reconstruct = "\t\"x y\" \r\n.z\n" := by
  refine ⟨(merge?_exact _ _).1.2 (Or.inr ⟨.tree .field [], List.mem_cons_self, rfl⟩), ?_⟩
  have hmerged : (merge? .commentText quotedPath).bind text? = some "\"x y\" \r\n.z" := by
    decide +kernel
  obtain ⟨m, hm, htext⟩ := Option.bind_eq_some_iff.1 hmerged
  obtain ⟨-, -, -, -, -, -, -, -, -, -, -, hkept, -⟩ := (merge?_exact .commentText quotedPath).2 m hm
  refine ⟨m, hm, htext, ?_⟩
  rw [hkept (by decide)]
  decide +kernel

end Node

end Lossless
