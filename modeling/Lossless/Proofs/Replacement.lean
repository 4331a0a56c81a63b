import Lossless.Node.Edit
import Lossless.Proofs.Sight

/-!
# Replacing the text of a comment

A comment text is made of all terminals up to the end of a line, whatever they are (`CommentText`).
So one comment text can stand in place of another, and the rest of a parse does not see the
difference: it has seen nothing behind the slashes when it comes to the comment, and behind the
comment it goes on with the same tokens. `Node.Swap` relates two trees that differ in one node, and
`Revised` two streams that differ in one comment text. `Parses.followed` says that a parse whose
result is changed in one comment text is the parse of each stream that is revised in this way.
-/

namespace Lossless

/-! ## Trees that differ in one node -/

namespace Node

mutual

/-- The second tree is the first one with `b` in a place where `a` was. -/
inductive Swap (a b : Node) : Node → Node → Prop where
  | here : Swap a b a b
  | inside {kind : Kind} {ns ms : List Node} (h : SwapIn a b ns ms) :
      Swap a b (.tree kind ns) (.tree kind ms)

/-- The same for two lists of trees. -/
inductive SwapIn (a b : Node) : List Node → List Node → Prop where
  | head {n m : Node} {ns : List Node} (h : Swap a b n m) : SwapIn a b (n :: ns) (m :: ns)
  | tail {n : Node} {ns ms : List Node} (h : SwapIn a b ns ms) : SwapIn a b (n :: ns) (n :: ms)

end

namespace SwapIn

variable {a b : Node}

/-- Trees behind the place of the change do not matter. -/
theorem append_right {ns ms : List Node} (h : SwapIn a b ns ms) (back : List Node) :
    SwapIn a b (ns ++ back) (ms ++ back) := by
  induction ns generalizing ms with
  | nil => cases h
  | cons n ns ih =>
    cases h with
    | head h => exact .head h
    | tail h => exact .tail (ih h)

theorem append_left {ns ms : List Node} (h : SwapIn a b ns ms) (front : List Node) :
    SwapIn a b (front ++ ns) (front ++ ms) := by
  induction front with
  | nil => exact h
  | cons n front ih => exact .tail ih

/-- The place of the change is found from the other end as well. -/
theorem reverse {ns ms : List Node} (h : SwapIn a b ns ms) :
    SwapIn a b ns.reverse ms.reverse := by
  induction ns generalizing ms with
  | nil => cases h
  | cons n ns ih =>
    rw [List.reverse_cons]
    cases h with
    | head h =>
      rw [List.reverse_cons]
      exact append_left (.head h) ns.reverse
    | tail h =>
      rw [List.reverse_cons]
      exact append_right (ih h) [n]

/-- A change of one tree in a list is a change of the list. -/
theorem set {ns : List Node} {i : Nat} {n m : Node} (hn : ns[i]? = some n) (h : Swap a b n m) :
    SwapIn a b ns (ns.set i m) := by
  induction ns generalizing i with
  | nil => cases hn
  | cons x ns ih =>
    cases i with
    | zero =>
      cases hn
      exact .head h
    | succ i => exact .tail (ih hn)

end SwapIn

/-- A terminal can only be replaced as a whole. -/
theorem Swap.of_token {t : Token} {b m : Node} {u : Token}
    (h : Swap (.token t) b (.token u) m) : u = t ∧ m = b := by
  cases h
  exact ⟨rfl, rfl⟩

/-- In a non-terminal, a terminal is replaced among the children or below them. -/
theorem Swap.of_tree {t : Token} {b m : Node} {kind : Kind} {ns : List Node}
    (h : Swap (.token t) b (.tree kind ns) m) :
    ∃ ms, m = .tree kind ms ∧ SwapIn (.token t) b ns ms := by
  cases h with
  | inside h => exact ⟨_, rfl, h⟩

/-- What is reached by a path can be replaced there. -/
theorem exists_swap {n a : Node} {path : List PathStep} (h : n.get? path = some a) (b : Node) :
    ∃ m, n.set? path b = some m ∧ Swap a b n m := by
  induction path generalizing n with
  | nil =>
    cases h
    exact ⟨b, rfl, .here⟩
  | cons step path ih =>
    simp only [get?, Option.bind_eq_bind, Option.bind_eq_some_iff] at h
    obtain ⟨i, hi, child, hchild, hpath⟩ := h
    obtain ⟨child', hset, hswap⟩ := ih hpath
    refine ⟨n.withChildren (n.children.set i child'), ?_, ?_⟩
    · simp [set?, hi, hchild, hset]
    · cases n with
      | token t => cases hchild
      | tree kind ns => exact .inside (.set hchild hswap)

end Node

/-- A terminal that is not the one past the end is among those of the stream. -/
theorem Stream.length_pos_of_ahead {s : Stream} {x : Terminal} (h : s.ahead 0 = .ok x)
    (hk : x.token.kind ≠ .endOfInput) : 0 < s.terminals.length := by
  rcases s with ⟨terminals, ending⟩
  cases terminals with
  | nil =>
    cases ending with
    | finish position =>
      cases h
      exact absurd rfl hk
    | fault f => cases h
  | cons u us => exact Nat.succ_pos _

namespace Grammar

open Node

/-! ## Comment texts -/

/-- The line of a token, or the whole text, ends between the token and a stream. -/
def LineEnds (t : Token) (s : Stream) : Prop :=
  t.endsLine = true ∨ ∃ y, s.ahead 0 = .ok y ∧ y.token.kind = .endOfInput

/-- The line of a token goes on in a stream. -/
def LineGoesOn (t : Token) (s : Stream) : Prop :=
  t.endsLine = false ∧ ∃ y, s.ahead 0 = .ok y ∧ y.token.kind ≠ .endOfInput

/-- Whether a line ends is told by tokens. -/
theorem LineEnds.same {t : Token} {s s' : Stream} (h : LineEnds t s) (hs : s.Same s') :
    LineEnds t s' := by
  rcases h with h | ⟨y, hy, hk⟩
  · exact Or.inl h
  · obtain ⟨z, hz, hyz⟩ := hs 0 y hy
    rw [← hyz] at hk
    exact Or.inr ⟨z, hz, hk⟩

/-- Takes a terminal and goes on as its line ends behind it or not. -/
def takeInLine (ended more : Step) : Step :=
  .look ⟨0, by decide⟩ fun g => bump (if g.endsLine then ended else ifAt .endOfInput ended more)

/-- A terminal of a comment is taken, and then its line either ends or goes on. -/
theorem parses_takeInLine {ended more : Step} {nodes : List Node} {s s' : State} {node : Node} :
    Parses (takeInLine ended more) nodes s node s' ↔
      ∃ x, s.stream.ahead 0 = .ok x ∧
        (LineEnds x.token s.stream.tail ∧
            Parses ended (.token x.token :: nodes) { s with stream := s.stream.tail } node s' ∨
          LineGoesOn x.token s.stream.tail ∧
            Parses more (.token x.token :: nodes) { s with stream := s.stream.tail } node s') := by
  constructor
  · intro h
    cases h with | look seen rest =>
    rename_i x
    cases rest with | take seen' rest =>
    have hx := seen'.symm.trans seen
    cases hx
    refine ⟨x, seen, ?_⟩
    -- A line ends with a terminal that has a line feed behind it, or in front of the end.
    by_cases hline : (Glimpse.ofTerminal x).endsLine = true
    · rw [if_pos hline] at rest
      exact Or.inl ⟨Or.inl hline, rest⟩
    · rw [if_neg hline] at rest
      cases rest with | look seen'' rest =>
      rename_i y
      dsimp only at rest
      by_cases hend : (Glimpse.ofTerminal y).kind = .endOfInput
      · rw [if_pos hend] at rest
        exact Or.inl ⟨Or.inr ⟨y, seen'', hend⟩, rest⟩
      · rw [if_neg hend] at rest
        exact Or.inr ⟨⟨Bool.eq_false_iff.2 hline, y, seen'', hend⟩, rest⟩
  · rintro ⟨x, seen, hcase⟩
    refine .look seen (.take seen ?_)
    by_cases hline : (Glimpse.ofTerminal x).endsLine = true
    · rw [if_pos hline]
      rcases hcase with ⟨-, h⟩ | ⟨⟨hno, -⟩, -⟩
      · exact h
      · exact absurd hline (Bool.eq_false_iff.1 hno)
    · rw [if_neg hline]
      rcases hcase with ⟨hends, h⟩ | ⟨⟨-, y, hy, hk⟩, h⟩
      · obtain ⟨y, hy, hk⟩ := hends.resolve_left hline
        have hend : (Glimpse.ofTerminal y).kind = .endOfInput := hk
        refine .look hy ?_
        rw [if_pos hend]
        exact h
      · have hend : ¬(Glimpse.ofTerminal y).kind = .endOfInput := hk
        refine .look hy ?_
        rw [if_neg hend]
        exact h

theorem commentText_eq :
    Rule.commentText.body = takeInLine (.join .commentText) (.goto .commentText) := rfl

theorem lineComment_eq :
    Rule.lineComment.body =
      takeInLine (.close .comment) (.call .commentText (.close .comment)) := rfl

/-- A stream begins with the tokens of a comment text, which has all terminals up to the end of the
line. -/
inductive CommentText : Stream → List Token → Prop where
  | last {s : Stream} {x : Terminal} (seen : s.ahead 0 = .ok x)
      (kind : x.token.kind ≠ .endOfInput) (ends : LineEnds x.token s.tail) :
      CommentText s [x.token]
  | cons {s : Stream} {x : Terminal} {ts : List Token} (seen : s.ahead 0 = .ok x)
      (kind : x.token.kind ≠ .endOfInput) (goes : LineGoesOn x.token s.tail)
      (more : CommentText s.tail ts) : CommentText s (x.token :: ts)

namespace CommentText

variable {s : Stream} {ts : List Token}

/-- A comment text begins with a terminal of the text. -/
theorem exists_ahead (h : CommentText s ts) :
    ∃ x, s.ahead 0 = .ok x ∧ x.token.kind ≠ .endOfInput := by
  cases h with
  | last seen kind ends => exact ⟨_, seen, kind⟩
  | cons seen kind goes more => exact ⟨_, seen, kind⟩

theorem ne_nil (h : CommentText s ts) : ts ≠ [] := by
  cases h with
  | last seen kind ends => exact List.cons_ne_nil _ _
  | cons seen kind goes more => exact List.cons_ne_nil _ _

end CommentText

/-- Terminals that are joined are fused. -/
theorem joined_tokens (kind : Kind) {ts : List Token} (h : ts ≠ []) :
    joined kind (ts.map Node.token) = .token (.fuse kind ts) := by
  have htokens : ∀ us : List Token, (us.map Node.token).mapM token? = some us := by
    intro us
    induction us with
    | nil => rfl
    | cons u us ih => simp [List.mapM_cons, token?, ih]
  simp [joined, merge?, h, htokens]

/-- What is joined is a terminal of the given kind. -/
theorem exists_joined (kind : Kind) (ns : List Node) :
    ∃ t, joined kind ns = .token t ∧ t.kind = kind := by
  unfold joined merge?
  split
  · exact ⟨_, rfl, rfl⟩
  · cases ns.mapM token? with
    | none => exact ⟨_, rfl, rfl⟩
    | some ts => exact ⟨_, rfl, rfl⟩

/-- The rule for comment texts takes a comment text and joins its tokens. -/
theorem parses_commentText {s : Stream} {ts : List Token} (h : CommentText s ts)
    (nodes : List Node) (log : List Event) :
    Parses Rule.commentText.body nodes ⟨s, log⟩
      (joined .commentText (nodes.reverse ++ ts.map Node.token)) ⟨s.drop ts.length, log⟩ := by
  -- By induction on the comment text, with the tokens that were taken before.
  induction h generalizing nodes with
  | @last s x seen kind ends =>
    rw [commentText_eq]
    refine parses_takeInLine.2 ⟨x, seen, Or.inl ⟨ends, ?_⟩⟩
    have hnodes : nodes.reverse ++ [x.token].map Node.token =
        (Node.token x.token :: nodes).reverse := List.reverse_cons.symm
    have hdrop : s.drop [x.token].length = s.tail := (Stream.tail_eq_drop s).symm
    rw [hnodes, hdrop]
    exact .join
  | @cons s x ts seen kind goes more ih =>
    rw [commentText_eq]
    refine parses_takeInLine.2 ⟨x, seen, Or.inr ⟨goes, .goto ?_⟩⟩
    have hmore := ih (.token x.token :: nodes)
    have hdrop : s.tail.drop ts.length = s.drop (ts.length + 1) := by
      rw [Stream.tail_eq_drop, Stream.drop_drop, Nat.add_comm]
    rw [List.reverse_cons, List.append_assoc, hdrop] at hmore
    exact hmore

/-- The rule for comment texts takes nothing but comment texts. -/
theorem Parses.exists_commentText {nodes : List Node} {s s' : State} {node : Node}
    (h : Parses Rule.commentText.body nodes s node s') {x : Terminal}
    (hx : s.stream.ahead 0 = .ok x) (hk : x.token.kind ≠ .endOfInput) :
    ∃ ts, CommentText s.stream ts ∧ s'.stream = s.stream.drop ts.length ∧
      node = joined .commentText (nodes.reverse ++ ts.map Node.token) := by
  -- A terminal that is not the end of the text leaves fewer terminals.
  induction hn : s.stream.terminals.length using Nat.strongRecOn generalizing nodes s x with
  | ind n ih =>
    rw [commentText_eq] at h
    obtain ⟨x', hx', hcase⟩ := parses_takeInLine.1 h
    have hxx := hx'.symm.trans hx
    cases hxx
    rcases hcase with ⟨hends, hjoin⟩ | ⟨hgoes, hgoto⟩
    · refine ⟨[x.token], .last hx hk hends, ?_, ?_⟩
      · cases hjoin
        exact Stream.tail_eq_drop s.stream
      · cases hjoin
        rw [List.reverse_cons]
        rfl
    · have hlt : s.stream.tail.terminals.length < n := by
        have hpos := Stream.length_pos_of_ahead hx hk
        simp only [Stream.tail, List.length_tail]
        omega
      obtain ⟨y, hy, hyk⟩ := hgoes.2
      cases hgoto with | goto hmore =>
      obtain ⟨ts, hts, hs', hnode⟩ := ih _ hlt hmore hy hyk rfl
      refine ⟨x.token :: ts, .cons hx hk hgoes hts, ?_, ?_⟩
      · rw [hs', Stream.tail_eq_drop, Stream.drop_drop, Nat.add_comm]
        rfl
      · rw [hnode, List.reverse_cons, List.append_assoc]
        rfl

/-! ## Comments -/

/-- A comment of two slashes and a comment text. -/
def commentNode (slashes : Token) (ts : List Token) : Node :=
  .tree .comment [.token slashes, .token (.fuse .commentText ts)]

/-- Two slashes and a comment text behind them are a comment. -/
theorem parses_lineComment {s : Stream} {d : Terminal} {ts : List Token}
    (hd : s.ahead 0 = .ok d) (hline : d.token.endsLine = false) (h : CommentText s.tail ts)
    (log : List Event) :
    Parses Rule.lineComment.body [] ⟨s, log⟩ (commentNode d.token ts)
      ⟨s.drop (1 + ts.length), log⟩ := by
  obtain ⟨x, hx, hk⟩ := h.exists_ahead
  have htext := parses_commentText h [] log
  rw [List.reverse_nil, List.nil_append, joined_tokens .commentText h.ne_nil, Stream.tail_eq_drop,
    Stream.drop_drop] at htext
  rw [lineComment_eq]
  refine parses_takeInLine.2 ⟨d, hd, Or.inr ⟨⟨hline, x, hx, hk⟩, ?_⟩⟩
  rw [Stream.tail_eq_drop]
  exact .call htext .close

/-- The rule for comments takes a comment text if the line goes on behind the first terminal. -/
theorem Parses.lineComment_cases {s s' : State} {node : Node}
    (h : Parses Rule.lineComment.body [] s node s') :
    ∃ d, s.stream.ahead 0 = .ok d ∧
      (LineEnds d.token s.stream.tail ∧ node = .tree .comment [.token d.token] ∨
        d.token.endsLine = false ∧ ∃ ts, CommentText s.stream.tail ts ∧
          s'.stream = s.stream.drop (1 + ts.length) ∧ node = commentNode d.token ts) := by
  rw [lineComment_eq] at h
  obtain ⟨d, hd, hcase⟩ := parses_takeInLine.1 h
  refine ⟨d, hd, ?_⟩
  -- Either the slashes stand alone or a text is called for, which is the only child behind them.
  rcases hcase with ⟨hends, hclose⟩ | ⟨⟨hline, x, hx, hk⟩, hcall⟩
  · cases hclose
    exact Or.inl ⟨hends, rfl⟩
  · cases hcall with | call called rest =>
    obtain ⟨ts, hts, hs', hnode⟩ := called.exists_commentText hx hk
    rw [List.reverse_nil, List.nil_append, joined_tokens .commentText hts.ne_nil] at hnode
    cases rest
    refine Or.inr ⟨hline, ts, hts, ?_, ?_⟩
    · rw [hs', Stream.tail_eq_drop, Stream.drop_drop]
    · rw [hnode]
      rfl

/-! ## Where comment texts come from -/

/-- The steps make a comment text only by calling the rule for comments, in front of two slashes.
`slashes` says that two slashes are known to come next. -/
@[simp] def CommentOnly : Step → (slashes : Bool) → Prop
  | .look n next, slashes =>
    ∀ g, CommentOnly (next g) (if n.val = 0 then g.kind == .doubleSlash else slashes)
  | .take tag next, _ => tag ≠ some .commentText ∧ CommentOnly next false
  | .call r next, slashes =>
    r ≠ .commentText ∧ (r = .lineComment → slashes = true) ∧ CommentOnly next false
  | .goto r, _ => r ≠ .commentText ∧ r ≠ .lineComment
  | .gather _ next, slashes | .note _ next, slashes => CommentOnly next slashes
  | .join kind, _ => kind ≠ .commentText
  | .close _, _ | .fail _, _ => True

theorem commentOnly_ite {c : Prop} [Decidable c] {a b : Step} {slashes : Bool} :
    CommentOnly (if c then a else b) slashes ↔
      (c → CommentOnly a slashes) ∧ (¬c → CommentOnly b slashes) := by
  split <;> simp_all

theorem commentOnly_elim {α : Type} {o : Option α} {a : Step} {f : α → Step} {slashes : Bool} :
    CommentOnly (o.elim a f) slashes ↔
      (o = none → CommentOnly a slashes) ∧ ∀ x, o = some x → CommentOnly (f x) slashes := by
  cases o <;> simp

theorem item?_lineComment {g : Glimpse} (h : item? g = some .lineComment) :
    g.kind = .doubleSlash := by
  unfold item? at h
  repeat' split at h
  all_goals first | assumption | cases h

/-- No item is the text of a comment. -/
theorem item?_ne_commentText (g : Glimpse) : item? g ≠ some .commentText := by
  intro h
  have hmem := item?_mem h
  simp at hmem

/-- Items are comments in front of slashes only. -/
theorem commentOnly_items {rule : Rule} {other : Glimpse → Step} (hrule : rule ≠ .commentText)
    (hrule' : rule ≠ .lineComment) (hother : ∀ g slashes, CommentOnly (other g) slashes)
    (slashes : Bool) :
    CommentOnly (.look 0 fun g => (item? g).elim (other g) fun r => .call r (.goto rule))
      slashes := by
  intro g
  refine commentOnly_elim.2 ⟨fun _ => hother g _, ?_⟩
  intro r hr
  refine ⟨?_, ?_, hrule, hrule'⟩
  · rintro rfl
    exact item?_ne_commentText g hr
  · rintro rfl
    simp [item?_lineComment hr]

/-- A modifier is no comment text. -/
theorem commentOnly_tagged {g : Glimpse} {tag? : String → Option Kind} {other next : Step}
    {slashes : Bool} (htag : ∀ word, tag? word ≠ some .commentText)
    (hother : CommentOnly other slashes) (hnext : CommentOnly next false) :
    CommentOnly ((g.word?.bind tag?).elim other fun tag => .take (some tag) next) slashes := by
  refine commentOnly_elim.2 ⟨fun _ => hother, ?_⟩
  intro k hk
  refine ⟨?_, hnext⟩
  intro hk'
  have hword := (word?_bind hk).2
  rw [hk'] at hword
  exact htag _ hword

/-- Comment texts are made in comments only, and comments in front of slashes only. -/
theorem commentOnly_body {rule : Rule} (hrule : rule ≠ .commentText)
    (hrule' : rule ≠ .lineComment) : CommentOnly rule.body false := by
  -- Loops and words that become modifiers branch on what is seen, and slashes are no modifier.
  cases rule with
  | commentText => exact absurd rfl hrule
  | lineComment => exact absurd rfl hrule'
  | unitItems =>
    rw [Rule.body, unitItems_eq]
    exact commentOnly_items hrule hrule' (fun g slashes => by simp [commentOnly_ite]) false
  | namespaceItems =>
    rw [Rule.body, namespaceItems_eq]
    exact commentOnly_items hrule hrule' (fun g slashes => by simp [commentOnly_ite]) false
  | classDecl =>
    simp only [Rule.body, classDecl_eq, CommentOnly]
    intro g
    exact commentOnly_tagged (fun _ h => absurd (classModifier?_mem h) (by decide))
      (by simp [commentOnly_ite]) (by simp)
  | memberModifiers name =>
    simp only [Rule.body, memberModifiers_eq, CommentOnly]
    intro g
    exact commentOnly_tagged (fun _ h => absurd (memberModifier?_mem h) (by decide))
      (by simp [commentOnly_ite]) (by simp)
  | _ => simp [commentOnly_ite]

/-! ## Steps that can be followed -/

/-- Two slashes come behind the first `n` terminals of a stream. -/
def SlashesAt (n : Nat) (s : Stream) : Prop :=
  ∃ d, s.ahead n = .ok d ∧ d.token.kind = .doubleSlash

/-- No terminal of a stream is a comment text by itself. -/
def NoComments (s : Stream) : Prop := ∀ i x, s.ahead i = .ok x → x.token.kind ≠ .commentText

theorem NoComments.drop {s : Stream} (h : NoComments s) (n : Nat) : NoComments (s.drop n) := by
  intro i x hx
  rw [Stream.ahead_drop] at hx
  exact h (n + i) x hx

/-- Steps that look past no slashes and make comment texts only in comments, in front of a stream of
which what they take for granted is true. -/
structure Careful (step : Step) (s : Stream) : Prop where
  shy : ∃ known, Shy step known ∧ NoSlashes known s
  only : ∃ slashes, CommentOnly step slashes ∧ (slashes = true → SlashesAt 0 s)
  plain : NoComments s

namespace Careful

variable {nodes : List Node} {s s' : State} {node : Node} {next : Step}

/-- The rules other than those of comments are careful on their own. -/
theorem body {rule : Rule} (hrule : rule ≠ .commentText) (hrule' : rule ≠ .lineComment) {s : Stream}
    (plain : NoComments s) : Careful rule.body s where
  shy := ⟨0, shy_body rule, .zero s⟩
  only := ⟨false, commentOnly_body hrule hrule', by simp⟩
  plain := plain

/-- A look shows a terminal that is not behind slashes. -/
theorem look {n : Fin 3} {next : Glimpse → Step} {x : Terminal}
    (h : Careful (.look n next) s.stream) (seen : s.stream.ahead n = .ok x)
    (rest : Parses (next (.ofTerminal x)) nodes s node s') :
    Careful (next (.ofTerminal x)) s.stream ∧
      ∀ {k : Nat} {t : Stream}, s.stream.SameToSlashes k t → n.val ≤ k := by
  obtain ⟨⟨known, hshy, hknown⟩, ⟨slashes, honly, hslashes⟩, plain⟩ := h
  obtain ⟨hn, hnext⟩ := hshy.look hknown seen rest
  refine ⟨⟨hnext, ⟨_, honly (.ofTerminal x), ?_⟩, plain⟩, ?_⟩
  · intro hs
    split at hs
    · rename_i hzero
      rw [hzero] at seen
      exact ⟨x, seen, eq_of_beq hs⟩
    · exact hslashes hs
  · intro k t hst
    exact Nat.le_trans hn (hknown.le hst)

/-- A terminal that is taken makes no comment text. -/
theorem take {tag : Option Kind} {x : Terminal} {s : Stream} (h : Careful (.take tag next) s)
    (seen : s.ahead 0 = .ok x) :
    Careful next s.tail ∧ tag.getD x.token.kind ≠ .commentText := by
  obtain ⟨⟨known, hshy, hknown⟩, ⟨slashes, ⟨htag, honly⟩, -⟩, plain⟩ := h
  constructor
  · refine ⟨⟨known - 1, hshy, hknown.tail⟩, ⟨false, honly, by simp⟩, ?_⟩
    rw [Stream.tail_eq_drop]
    exact plain.drop 1
  · cases tag with
    | none => exact plain 0 x seen
    | some k =>
      intro hk
      exact htag (congrArg some hk)

/-- A rule that is called is the one for comments, in front of slashes, or is careful itself. -/
theorem call {r : Rule} {s : Stream} (h : Careful (.call r next) s) :
    (r = .lineComment ∧ SlashesAt 0 s ∨ Careful r.body s) ∧ ∀ n, Careful next (s.drop n) := by
  obtain ⟨⟨known, hshy, -⟩, ⟨slashes, ⟨hr, hr', honly⟩, hslashes⟩, plain⟩ := h
  constructor
  · by_cases hcomment : r = .lineComment
    · exact Or.inl ⟨hcomment, hslashes (hr' hcomment)⟩
    · exact Or.inr (.body hr hcomment plain)
  · intro n
    exact ⟨⟨0, hshy, .zero _⟩, ⟨false, honly, by simp⟩, plain.drop n⟩

theorem goto {r : Rule} {s : Stream} (h : Careful (.goto r) s) : Careful r.body s := by
  obtain ⟨-, ⟨slashes, ⟨hr, hr'⟩, -⟩, plain⟩ := h
  exact .body hr hr' plain

theorem gather {kind : Kind} {s : Stream} (h : Careful (.gather kind next) s) : Careful next s :=
  ⟨h.shy, h.only, h.plain⟩

theorem note {event : Nat → Event} {s : Stream} (h : Careful (.note event next) s) :
    Careful next s :=
  ⟨h.shy, h.only, h.plain⟩

end Careful

/-- A step ends in a node on the stream `t`, with the tokens of `s'` left. -/
def Reaches (step : Step) (nodes : List Node) (t : Stream) (node : Node) (s' : Stream) : Prop :=
  ∀ log, ∃ t' log', Parses step nodes ⟨t, log⟩ node ⟨t', log'⟩ ∧ s'.Same t'

namespace Reaches

variable {nodes : List Node} {t s' : Stream} {node : Node}

/-- A look at the same token has the same steps follow. -/
theorem look {n : Fin 3} {next : Glimpse → Step} {x y : Terminal} (seen : t.ahead n = .ok y)
    (hxy : y.token = x.token) (h : Reaches (next (.ofTerminal x)) nodes t node s') :
    Reaches (.look n next) nodes t node s' := by
  intro log
  obtain ⟨t', log', hp, hs'⟩ := h log
  rw [← glimpse_eq hxy] at hp
  exact ⟨t', log', .look seen hp, hs'⟩

/-- The same token is taken. -/
theorem take {tag : Option Kind} {next : Step} {x y : Terminal} (seen : t.ahead 0 = .ok y)
    (hxy : y.token = x.token) (h : Reaches next (leaf tag x :: nodes) t.tail node s') :
    Reaches (.take tag next) nodes t node s' := by
  intro log
  obtain ⟨t', log', hp, hs'⟩ := h log
  rw [← leaf_eq hxy] at hp
  exact ⟨t', log', .take seen hp, hs'⟩

/-- The rule that is called leaves a stream with the tokens on which the next steps are known to
end. -/
theorem call {r : Rule} {next : Step} {inner : Node} {s₁ : Stream}
    (called : Reaches r.body [] t inner s₁)
    (h : ∀ {t₁ : Stream}, s₁.Same t₁ → Reaches next (inner :: nodes) t₁ node s') :
    Reaches (.call r next) nodes t node s' := by
  intro log
  obtain ⟨t₁, log₁, hc, hs₁⟩ := called log
  obtain ⟨t', log', hp, hs'⟩ := h hs₁ log₁
  exact ⟨t', log', .call hc hp, hs'⟩

theorem goto {r : Rule} (h : Reaches r.body nodes t node s') :
    Reaches (.goto r) nodes t node s' := by
  intro log
  obtain ⟨t', log', hp, hs'⟩ := h log
  exact ⟨t', log', .goto hp, hs'⟩

theorem gather {kind : Kind} {next : Step} (h : Reaches next [.tree kind nodes.reverse] t node s') :
    Reaches (.gather kind next) nodes t node s' := by
  intro log
  obtain ⟨t', log', hp, hs'⟩ := h log
  exact ⟨t', log', .gather hp, hs'⟩

theorem note {event : Nat → Event} {next : Step} (h : Reaches next nodes t node s') :
    Reaches (.note event next) nodes t node s' := by
  intro log
  obtain ⟨t', log', hp, hs'⟩ := h (event nodes.length :: log)
  exact ⟨t', log', .note hp, hs'⟩

end Reaches

/-! ## Comments that are replaced -/

/-- Behind the first `k` terminals of a stream come two slashes and a comment text. -/
structure CommentAt (k : Nat) (s : Stream) (ts : List Token) : Prop where
  slashes : SlashesAt k s
  text : CommentText (s.drop (k + 1)) ts

/-- A comment in the rest of a stream is one in the stream. -/
theorem CommentAt.of_drop {j k : Nat} {s : Stream} {ts : List Token}
    (h : CommentAt k (s.drop j) ts) : CommentAt (j + k) s ts := by
  obtain ⟨⟨d, hd, hk⟩, htext⟩ := h
  rw [Stream.ahead_drop] at hd
  rw [Stream.drop_drop] at htext
  exact ⟨⟨d, hd, hk⟩, htext⟩

/-- The second stream has the comment text `us` where the first one has `ts`, and otherwise the same
tokens. -/
structure Revised (k : Nat) (ts us : List Token) (s t : Stream) : Prop where
  front : s.SameToSlashes k t
  text : CommentText (t.drop (k + 1)) us
  back : (s.drop (k + 1 + ts.length)).Same (t.drop (k + 1 + us.length))

/-- The comment stays replaced when terminals in front of it have been taken from both streams. -/
theorem Revised.drop {j k : Nat} {ts us : List Token} {s t : Stream}
    (h : Revised (j + k) ts us s t) : Revised k ts us (s.drop j) (t.drop j) := by
  obtain ⟨hfront, htext, hback⟩ := h
  refine ⟨hfront.drop, ?_, ?_⟩
  · rw [Stream.drop_drop]
    exact htext
  · rw [Stream.drop_drop, Stream.drop_drop, ← Nat.add_assoc, ← Nat.add_assoc, ← Nat.add_assoc,
      ← Nat.add_assoc]
    exact hback

/-- The parse of a step can be followed when `b` stands in place of the comment text `a`. Either `a`
is among the nodes collected so far, or it is still to come in the stream. -/
inductive Followed (a b : Token) (step : Step) (nodes : List Node) (s s' : Stream) (node : Node) :
    Prop where
  | nodes {nodes' : List Node} (swap : SwapIn (.token a) (.token b) nodes nodes')
      (ends : ∀ {t : Stream}, s.Same t → Reaches step nodes' t node s')
  | stream {k : Nat} {ts : List Token} (comment : CommentAt k s ts)
      (text : a = .fuse .commentText ts)
      (ends : ∀ {t : Stream} {us : List Token}, b = .fuse .commentText us → Revised k ts us s t →
        Reaches step nodes t node s')

/-- The text of a comment can be replaced. -/
theorem Parses.followed_lineComment {a b : Token} (ha : a.kind = .commentText) {s s' : State}
    {node node' : Node} (h : Parses Rule.lineComment.body [] s node s')
    (hslashes : SlashesAt 0 s.stream) (hswap : Swap (.token a) (.token b) node node') :
    Followed a b Rule.lineComment.body [] s.stream s'.stream node' := by
  obtain ⟨d, hd, hcase⟩ := h.lineComment_cases
  have ⟨d', hd', hk⟩ := hslashes
  have hdd := hd'.symm.trans hd
  cases hdd
  -- The slashes themselves are no comment text.
  have hne : d.token ≠ a := by
    rintro rfl
    rw [hk] at ha
    cases ha
  rcases hcase with ⟨-, rfl⟩ | ⟨hline, ts, hts, hs', rfl⟩
  · obtain ⟨ms, -, hin⟩ := hswap.of_tree
    cases hin with
    | head h => exact absurd h.of_token.1 hne
    | tail h => cases h
  · obtain ⟨ms, rfl, hin⟩ := hswap.of_tree
    cases hin with
    | head h => exact absurd h.of_token.1 hne
    | tail h =>
      cases h with
      | tail h => cases h
      | head h =>
        obtain ⟨rfl, rfl⟩ := h.of_token
        rw [Stream.tail_eq_drop] at hts
        refine .stream (k := 0) ⟨hslashes, hts⟩ rfl ?_
        intro t us hb hrev log
        obtain ⟨y, hy, hxy⟩ := hrev.front.same 0 (Nat.le_refl 0) d hd
        have htext := hrev.text
        rw [← Stream.tail_eq_drop] at htext
        have hparses := parses_lineComment hy (by rw [hxy]; exact hline) htext log
        rw [hxy, commentNode, ← hb] at hparses
        refine ⟨_, _, hparses, ?_⟩
        have hback := hrev.back
        rw [hs']
        exact hback

/-- A parse whose result is changed in one comment text can be followed with the new text. -/
theorem Parses.followed {a b : Token} (ha : a.kind = .commentText) {step : Step}
    {nodes : List Node} {s s' : State} {node : Node} (h : Parses step nodes s node s') :
    ∀ {node' : Node}, Careful step s.stream → Swap (.token a) (.token b) node node' →
      Followed a b step nodes s.stream s'.stream node' := by
  -- The comment text is made in a call of the rule for comments. What comes before that call is the
  -- same up to the slashes, and what comes after it has the same tokens.
  induction h with
  | @look n next nodes s s' x node seen rest ih =>
    intro node' hcare hswap
    obtain ⟨hnext, hn⟩ := hcare.look seen rest
    cases ih hnext hswap with
    | nodes swap ends =>
      refine .nodes swap ?_
      intro t hst
      obtain ⟨y, hy, hxy⟩ := hst _ _ seen
      exact .look hy hxy (ends hst)
    | stream comment text ends =>
      refine .stream comment text ?_
      intro t us hb hrev
      obtain ⟨y, hy, hxy⟩ := hrev.front.same _ (hn hrev.front) _ seen
      exact .look hy hxy (ends hb hrev)
  | @take tag next nodes s s' x node seen rest ih =>
    intro node' hcare hswap
    obtain ⟨hnext, htag⟩ := hcare.take seen
    cases ih hnext hswap with
    | nodes swap ends =>
      cases swap with
      | head h =>
        have hleaf := h.of_token.1
        rw [← hleaf] at ha
        exact absurd ha htag
      | tail h =>
        refine .nodes h ?_
        intro t hst
        obtain ⟨y, hy, hxy⟩ := hst _ _ seen
        exact .take hy hxy (ends hst.tail)
    | @stream k ts comment text ends =>
      have htail : s.stream.tail = s.stream.drop 1 := Stream.tail_eq_drop s.stream
      dsimp only at comment ends
      rw [htail] at comment ends
      refine .stream comment.of_drop text ?_
      intro t us hb hrev
      obtain ⟨y, hy, hxy⟩ := hrev.front.same 0 (Nat.zero_le _) x seen
      refine .take hy hxy ?_
      rw [Stream.tail_eq_drop]
      exact ends hb hrev.drop
  | @call r next nodes s s₁ s' inner node called rest ihc ih =>
    intro node' hcare hswap
    obtain ⟨hcalled, hnext⟩ := hcare.call
    obtain ⟨j, hs₁, hsim⟩ := called.up_to_slashes
    have hcare₁ := hnext j
    rw [← hs₁] at hcare₁
    cases ih hcare₁ hswap with
    | nodes swap ends =>
      cases swap with
      | tail h =>
        -- The comment came before the call.
        refine .nodes h ?_
        intro t hst
        exact .call (fun log => called.same log hst) ends
      | @head _ inner' _ h =>
        -- The comment is part of what is called.
        have hinner : Followed a b r.body [] s.stream s₁.stream inner' := by
          rcases hcalled with ⟨rfl, hslashes⟩ | hcareful
          · exact called.followed_lineComment ha hslashes h
          · exact ihc hcareful h
        cases hinner with
        | nodes swap ends => cases swap
        | stream comment text ends' =>
          refine .stream comment text ?_
          intro t us hb hrev
          exact .call (ends' hb hrev) ends
    | @stream k ts comment text ends =>
      -- The comment comes after the call, which ends in front of its slashes or before.
      rw [hs₁] at comment ends
      refine .stream comment.of_drop text ?_
      intro t us hb hrev log
      obtain ⟨log₁, hc⟩ := hsim (shy_body r) (.zero _) log hrev.front
      obtain ⟨t', log', hp, hs'⟩ := ends hb hrev.drop log₁
      exact ⟨t', log', .call hc hp, hs'⟩
  | @goto r nodes s s' node rest ih =>
    intro node' hcare hswap
    cases ih hcare.goto hswap with
    | nodes swap ends => exact .nodes swap fun hst => .goto (ends hst)
    | stream comment text ends => exact .stream comment text fun hb hrev => .goto (ends hb hrev)
  | @gather kind next nodes s s' node rest ih =>
    intro node' hcare hswap
    cases ih hcare.gather hswap with
    | nodes swap ends =>
      cases swap with
      | tail h => cases h
      | head h =>
        obtain ⟨ms, rfl, hin⟩ := h.of_tree
        have hnodes := hin.reverse
        rw [List.reverse_reverse] at hnodes
        refine .nodes hnodes ?_
        intro t hst
        refine .gather ?_
        rw [List.reverse_reverse]
        exact ends hst
    | stream comment text ends => exact .stream comment text fun hb hrev => .gather (ends hb hrev)
  | note rest ih =>
    intro node' hcare hswap
    cases ih hcare.note hswap with
    | nodes swap ends => exact .nodes swap fun hst => .note (ends hst)
    | stream comment text ends => exact .stream comment text fun hb hrev => .note (ends hb hrev)
  | @close kind nodes s =>
    intro node' hcare hswap
    obtain ⟨ms, rfl, hin⟩ := hswap.of_tree
    have hnodes := hin.reverse
    rw [List.reverse_reverse] at hnodes
    refine .nodes hnodes ?_
    intro t hst log
    have hclose : Parses (.close kind) ms.reverse ⟨t, log⟩ (.tree kind ms.reverse.reverse)
        ⟨t, log⟩ := .close
    rw [List.reverse_reverse] at hclose
    exact ⟨t, log, hclose, hst⟩
  | @join kind nodes s =>
    intro node' hcare hswap
    obtain ⟨-, ⟨slashes, hkind, -⟩, -⟩ := hcare
    obtain ⟨t, ht, htk⟩ := exists_joined kind nodes.reverse
    rw [ht] at hswap
    have hta := hswap.of_token.1
    rw [← hta, htk] at ha
    exact absurd ha hkind

end Grammar

end Lossless
