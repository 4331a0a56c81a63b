import Lossless.Proofs.Footprint
import Lossless.Proofs.Replacement

/-!
# The items of a unit

A unit is a row of items, one behind the other, and none of them depends on what stands behind it.
An item that ends at a mark has seen nothing further, although a name in it may look two terminals
ahead: the point that makes it look is no mark, so the item would have failed. A comment sees the
terminal behind it only if its line does not end.

* `Parses.item_detached`: an item comes out the same in front of any other text, as long as a line
  ends behind it; the blanks behind its last terminal may be others;
* `Items.renewed`: the same for items in a row.
-/

namespace Lossless.Grammar

open Node

/-- The node that a rule makes of the next `k` terminals does not depend on what stands behind them,
as long as a line ends there. -/
structure Detached (rule : Rule) (k : Nat) (s : Stream) (node : Node) : Prop where
  renew : ∀ {b : Trivia} {n : Nat} {t : Stream} (log : List Event), b.contains .newline = true →
    Agree b (k + n) s t →
    ∃ m log', Parses rule.body [] ⟨t, log⟩ m ⟨t.drop k, log'⟩ ∧ Renewed b n [node] [m]

/-! ## Rules that end at a mark -/

/-- A rule that sees nothing behind its end. -/
theorem Carries.detached {rule : Rule} {k : Nat} {s : Stream} {node : Node}
    (h : Carries 0 k rule.body [] s node) (hone : 1 ≤ k) : Detached rule k s node := by
  refine ⟨?_⟩
  intro b n t log hb hagree
  have hnone : Renewed b (k + n) [] [] := by
    unfold Renewed
    rw [if_neg (by omega)]
  exact h.renew log (Nat.zero_le n) hagree hnone

namespace Carries

variable {reach k : Nat} {nodes : List Node} {s : Stream} {node : Node} {next : Step}
  {x : Terminal} {kind : Kind}

/-- A terminal of the kind that is expected carries over like any that is taken. -/
theorem expect (cause : GrammarCause) (seen : s.ahead 0 = .ok x) (hk : x.token.kind = kind)
    (h : Carries reach k next (leaf none x :: nodes) s.tail node) :
    Carries reach (1 + k) (expect kind cause next) nodes s node := by
  refine .look seen (fun _ _ => rfl) (by omega) ?_
  rw [if_pos (show (Glimpse.ofTerminal x).kind = kind from hk)]
  exact .take seen h

/-- A choice by the next terminal is made in the same way again, as long as that terminal is within
reach. -/
theorem ifAt_pos (no : Step) (seen : s.ahead 0 = .ok x) (hk : x.token.kind = kind)
    (near : 0 < k + reach) (h : Carries reach k next nodes s node) :
    Carries reach k (ifAt kind next no) nodes s node := by
  refine .look seen (fun _ _ => rfl) near ?_
  rw [if_pos (show (Glimpse.ofTerminal x).kind = kind from hk)]
  exact h

theorem ifAt_neg (yes : Step) (seen : s.ahead 0 = .ok x) (hk : x.token.kind ≠ kind)
    (near : 0 < k + reach) (h : Carries reach k next nodes s node) :
    Carries reach k (ifAt kind yes next) nodes s node := by
  refine .look seen (fun _ _ => rfl) near ?_
  rw [if_neg (show ¬(Glimpse.ofTerminal x).kind = kind from hk)]
  exact h

end Carries

/-- The stream does not go on with a point. -/
def NoPoint (s : Stream) : Prop := ∃ x, s.ahead 0 = .ok x ∧ x.token.kind ≠ .dot

/-- A name in front of something other than a point has not looked past it. -/
theorem Parses.qualifiedTail_carries {nodes : List Node} {s s' : State} {node : Node}
    (h : Parses Rule.qualifiedTail.body nodes s node s') (stop : NoPoint s'.stream) :
    ∃ k, s.stream.Passed k s'.stream ∧
      Carries 1 k Rule.qualifiedTail.body nodes s.stream node := by
  -- A point that belongs to the name leaves fewer terminals.
  induction hn : s.stream.terminals.length using Nat.strongRecOn generalizing nodes s with
  | ind n ih =>
    obtain ⟨x, hx, ⟨hdot, hlook⟩ | ⟨hdot, hclose⟩⟩ := parses_ifAt.1 h
    · obtain ⟨y, hy, hrest⟩ := parses_look.1 hlook
      split at hrest
      · rename_i hident
        obtain ⟨x', hx', hrest⟩ := parses_take.1 hrest
        obtain ⟨y', hy', hrest⟩ := parses_take.1 hrest
        cases hx.symm.trans hx'
        cases hrest with | goto hmore =>
        have hlt : s.stream.tail.tail.terminals.length < n := by
          have hpos := Stream.length_pos_of_ahead hx (by rw [hdot]; decide)
          simp only [Stream.tail, List.length_tail]
          omega
        obtain ⟨k, hpassed, hcarries⟩ := ih _ hlt hmore rfl
        have hall := (Stream.Passed.one hx).trans ((Stream.Passed.one hy').trans hpassed)
        refine ⟨1 + (1 + k), hall, ?_⟩
        refine .ifAt_pos _ hx hdot (by omega) (.look hy (fun _ _ => rfl) (by omega) ?_)
        rw [if_pos hident]
        exact .take hx (.take hy' (.goto hcarries))
      · -- The name would end in front of the point.
        cases hrest
        obtain ⟨x', hx', hno⟩ := stop
        cases hx.symm.trans hx'
        exact absurd hdot hno
    · cases hclose
      exact ⟨0, .zero _, .ifAt_neg _ hx hdot (by omega) (.close _ _ _)⟩

/-- A name carries over if no point stands behind it, since a point could make it longer. -/
theorem Parses.qualifiedName_carries {s s' : State} {node : Node}
    (h : Parses Rule.qualifiedName.body [] s node s') (stop : NoPoint s'.stream) :
    ∃ k, s.stream.Passed k s'.stream ∧ 1 ≤ k ∧
      Carries 1 k Rule.qualifiedName.body [] s.stream node := by
  obtain ⟨x, hx, hident, hgoto⟩ := parses_expect.1 h
  cases hgoto with | goto hmore =>
  obtain ⟨k, hpassed, hcarries⟩ := hmore.qualifiedTail_carries stop
  exact ⟨1 + k, (Stream.Passed.one hx).trans hpassed, by omega,
    .expect _ hx hident (.goto hcarries)⟩

/-- The last terminal of a rule is its mark. -/
theorem Parses.closing_carries {mark kind : Kind} {cause : GrammarCause} {nodes : List Node}
    {s s' : State} {node : Node} (h : Parses (expect mark cause (.close kind)) nodes s node s') :
    (∃ x, s.stream.ahead 0 = .ok x ∧ x.token.kind = mark) ∧ s.stream.Passed 1 s'.stream ∧
      Carries 0 1 (expect mark cause (.close kind)) nodes s.stream node := by
  obtain ⟨x, hx, hmark, hclose⟩ := parses_expect.1 h
  cases hclose
  exact ⟨⟨x, hx, hmark⟩, .one hx, .expect cause hx hmark (.close _ _ _)⟩

/-- A name and the mark behind it. -/
theorem Parses.path_carries {mark kind : Kind} {cause : GrammarCause} (hmark : mark ≠ .dot)
    {nodes : List Node} {s s' : State} {node : Node}
    (h : Parses (.call .qualifiedName (expect mark cause (.close kind))) nodes s node s') :
    ∃ k, s.stream.Passed k s'.stream ∧ 2 ≤ k ∧
      Carries 0 k (.call .qualifiedName (expect mark cause (.close kind))) nodes s.stream node := by
  cases h with | call called rest =>
  obtain ⟨⟨x, hx, hk⟩, hpassed, hcarries⟩ := rest.closing_carries
  obtain ⟨k, hpassed₁, hone, hcarries₁⟩ := called.qualifiedName_carries ⟨x, hx, by rwa [hk]⟩
  rw [hpassed₁.1] at hcarries
  exact ⟨k + 1, hpassed₁.trans hpassed, by omega, .call hcarries₁ hone (by omega) hcarries⟩

/-- A using directive sees nothing behind its semicolon. -/
theorem Parses.usingDirective_carries {s s' : State} {node : Node}
    (h : Parses Rule.usingDirective.body [] s node s') :
    ∃ k, s.stream.Passed k s'.stream ∧ 1 ≤ k ∧
      Carries 0 k Rule.usingDirective.body [] s.stream node := by
  obtain ⟨x, hx, hrest⟩ := parses_take.1 h
  obtain ⟨y, hy, hrest⟩ := parses_look.1 hrest
  -- All ways lead to a name and a semicolon.
  split at hrest
  · rename_i hstatic
    obtain ⟨y', hy', hpath⟩ := parses_take.1 hrest
    obtain ⟨k, hpassed, htwo, hcarries⟩ := hpath.path_carries (by decide)
    refine ⟨1 + (1 + k), (Stream.Passed.one hx).trans ((Stream.Passed.one hy').trans hpassed),
      by omega, .take hx (.look hy (fun _ _ => rfl) (by omega) ?_)⟩
    rw [if_pos hstatic]
    exact .take hy' hcarries
  · rename_i hstatic
    split at hrest
    · rename_i hident
      obtain ⟨z, hz, hrest⟩ := parses_look.1 hrest
      split at hrest
      · rename_i hequals
        obtain ⟨y', hy', hrest⟩ := parses_take.1 hrest
        obtain ⟨z', hz', hpath⟩ := parses_take.1 hrest
        obtain ⟨k, hpassed, htwo, hcarries⟩ := hpath.path_carries (by decide)
        refine ⟨1 + (1 + (1 + k)), (Stream.Passed.one hx).trans
          ((Stream.Passed.one hy').trans ((Stream.Passed.one hz').trans hpassed)),
          by omega, .take hx (.look hy (fun _ _ => rfl) (by omega) ?_)⟩
        rw [if_neg hstatic, if_pos hident]
        refine .look hz (fun _ _ => rfl) (by omega) ?_
        rw [if_pos hequals]
        exact .take hy' (.take hz' hcarries)
      · rename_i hequals
        obtain ⟨k, hpassed, htwo, hcarries⟩ := hrest.path_carries (by decide)
        refine ⟨1 + k, (Stream.Passed.one hx).trans hpassed, by omega,
          .take hx (.look hy (fun _ _ => rfl) (by omega) ?_)⟩
        rw [if_neg hstatic, if_pos hident]
        refine .look hz (fun _ _ => rfl) (by omega) ?_
        rw [if_neg hequals]
        exact hcarries
    · rename_i hident
      obtain ⟨k, hpassed, htwo, hcarries⟩ := hrest.path_carries (by decide)
      refine ⟨1 + k, (Stream.Passed.one hx).trans hpassed, by omega,
        .take hx (.look hy (fun _ _ => rfl) (by omega) ?_)⟩
      rw [if_neg hstatic, if_neg hident]
      exact hcarries

/-- A parse of a whole rule, with what is known of it from the bounds of the rule. -/
theorem Parses.carries {rule : Rule} {s s' : State} {node : Node}
    (h : Parses rule.body [] s node s') :
    ∃ k, s.stream.Passed k s'.stream ∧ rule.least ≤ k ∧
      Carries rule.reach k rule.body [] s.stream node := by
  obtain ⟨k, hpassed, -, hleast, hcarries⟩ := h.transfer (within_body rule)
  exact ⟨k, hpassed, by omega, hcarries⟩

/-- What follows the name of an attribute: its arguments, if there are any, and a bracket. -/
theorem Parses.arguments_carries {kind : Kind} {cause : GrammarCause} {nodes : List Node}
    {s s' : State} {node : Node}
    (h : Parses (ifAt .leftParen (.call .attributeArgs (expect .rightBracket cause (.close kind)))
      (expect .rightBracket cause (.close kind))) nodes s node s') :
    NoPoint s.stream ∧ ∃ k, s.stream.Passed k s'.stream ∧ 1 ≤ k ∧
      Carries 0 k (ifAt .leftParen (.call .attributeArgs (expect .rightBracket cause (.close kind)))
        (expect .rightBracket cause (.close kind))) nodes s.stream node := by
  obtain ⟨x, hx, ⟨hparen, hargs⟩ | ⟨hparen, hclosing⟩⟩ := parses_ifAt.1 h
  · refine ⟨⟨x, hx, by rw [hparen]; decide⟩, ?_⟩
    cases hargs with | call args closing =>
    obtain ⟨-, hpassed, hcarries⟩ := closing.closing_carries
    obtain ⟨k, hpassed₁, hleast, hcarries₁⟩ := args.carries
    have htwo : 2 ≤ k := hleast
    rw [hpassed₁.1] at hcarries
    exact ⟨k + 1, hpassed₁.trans hpassed, by omega,
      .ifAt_pos _ hx hparen (by omega) (.call hcarries₁ (by omega) (by decide) hcarries)⟩
  · obtain ⟨⟨y, hy, hmark⟩, hpassed, hcarries⟩ := hclosing.closing_carries
    exact ⟨⟨y, hy, by rw [hmark]; decide⟩, 1, hpassed, by omega,
      .ifAt_neg _ hx hparen (by omega) hcarries⟩

/-- An attribute sees nothing behind its closing bracket. -/
theorem Parses.attributeSection_carries {s s' : State} {node : Node}
    (h : Parses Rule.attributeSection.body [] s node s') :
    ∃ k, s.stream.Passed k s'.stream ∧ 1 ≤ k ∧
      Carries 0 k Rule.attributeSection.body [] s.stream node := by
  obtain ⟨x, hx, hrest⟩ := parses_take.1 h
  cases hrest with | call called rest =>
  obtain ⟨hstop, k, hpassed, hone, hcarries⟩ := rest.arguments_carries
  obtain ⟨k₁, hpassed₁, hone₁, hcarries₁⟩ := called.qualifiedName_carries hstop
  rw [hpassed₁.1] at hcarries
  exact ⟨1 + (k₁ + k), (Stream.Passed.one hx).trans (hpassed₁.trans hpassed), by omega,
    .take hx (.call hcarries₁ hone₁ (by omega) hcarries)⟩

/-! ## Comments -/

/-- The blanks behind the last token are not among what is joined. -/
theorem innerChars_concat (us : List Token) (t : Token) (b : Trivia) :
    Token.innerChars (us ++ [{ t with trailing := b }]) = Token.innerChars (us ++ [t]) := by
  induction us with
  | nil => rfl
  | cons u us ih =>
    cases us with
    | nil => rfl
    | cons v us =>
      simp only [List.cons_append, Token.innerChars] at ih ⊢
      rw [ih]

/-- The blanks behind a fused token are those behind its last part. -/
theorem fuse_concat (kind : Kind) (us : List Token) (t : Token) (b : Trivia) :
    Token.fuse kind (us ++ [{ t with trailing := b }]) =
      { Token.fuse kind (us ++ [t]) with trailing := b } := by
  have hhead : ((us ++ [{ t with trailing := b }]).head?.map Token.leading) =
      (us ++ [t]).head?.map Token.leading := by
    cases us <;> rfl
  simp only [Token.fuse, innerChars_concat, hhead, List.getLast?_append, List.getLast?_singleton,
    Option.some_or, Option.map_some, Option.getD_some]

variable {b : Trivia} {n : Nat} {s t : Stream}

/-- A line that ends behind a terminal still does if only its blanks change, to such that end it. -/
theorem LineEnds.agree (hb : b.contains .newline = true) {x y : Terminal}
    (h : LineEnds x.token s.tail) (hagree : Agree b (1 + n) s t) (hx : s.ahead 0 = .ok x)
    (hy : t.ahead 0 = .ok y) : LineEnds y.token t.tail := by
  obtain ⟨x', y', hx', hy', hxy⟩ := hagree 0 (by omega)
  cases hx.symm.trans hx'
  cases hy.symm.trans hy'
  by_cases hn : n = 0
  · rw [if_pos (by omega)] at hxy
    rw [hxy]
    exact Or.inl hb
  · rw [if_neg (by omega)] at hxy
    rw [hxy]
    rcases h with h | ⟨z, hz, hk⟩
    · exact Or.inl h
    · -- The text ends behind the terminal, and the other stream agrees in that.
      obtain ⟨z', w, hz', hw, hzw⟩ := hagree 1 (by omega)
      rw [Stream.tail_eq_drop, Stream.ahead_drop] at hz
      cases hz.symm.trans hz'
      refine Or.inr ⟨w, ?_, ?_⟩
      · rw [Stream.tail_eq_drop, Stream.ahead_drop, hw]
      · rw [hzw]
        split <;> exact hk

/-- A comment text is still one if the blanks behind it change to such that end the line. -/
theorem CommentText.agree (hb : b.contains .newline = true) {ts : List Token}
    (h : CommentText s ts) :
    ∀ {t : Stream}, Agree b (ts.length + n) s t →
      ∃ us u, ts = us ++ [u] ∧
        CommentText t (us ++ [if n = 0 then { u with trailing := b } else u]) := by
  -- By induction on the text: only its last terminal may have other blanks behind it, and only if
  -- it is the last of what agrees.
  induction h with
  | @last s x seen kind ends =>
    intro t hagree
    rw [List.length_singleton] at hagree
    obtain ⟨x', y, hx', hy, hxy⟩ := hagree 0 (by omega)
    cases seen.symm.trans hx'
    refine ⟨[], x.token, rfl, ?_⟩
    have hlast : y.token = if n = 0 then { x.token with trailing := b } else x.token := by
      rw [hxy]
      simp only [Nat.zero_add, Nat.left_eq_add]
    have hkind : y.token.kind = x.token.kind := by
      rw [hlast]
      split <;> rfl
    rw [List.nil_append, ← hlast]
    exact .last hy (by rwa [hkind]) (ends.agree hb hagree seen hy)
  | @cons s x ts seen kind goes more ih =>
    intro t hagree
    have hpos := List.length_pos_iff.2 more.ne_nil
    rw [List.length_cons, Nat.add_comm ts.length 1, Nat.add_assoc] at hagree
    obtain ⟨x', y, hx', hy, hxy⟩ := hagree 0 (by omega)
    cases seen.symm.trans hx'
    rw [if_neg (by omega)] at hxy
    have hbehind := hagree.drop
    rw [← Stream.tail_eq_drop, ← Stream.tail_eq_drop] at hbehind
    obtain ⟨us, u, rfl, htext⟩ := ih hbehind
    refine ⟨x.token :: us, u, rfl, ?_⟩
    obtain ⟨z, hz, hend⟩ := htext.exists_ahead
    rw [List.cons_append, ← hxy]
    refine .cons hy (by rwa [hxy]) ⟨?_, z, hz, hend⟩ htext
    rw [hxy]
    exact goes.1

/-- The tokens of a comment are as many terminals of the stream. -/
theorem CommentText.passed {ts : List Token} (h : CommentText s ts) :
    s.Passed ts.length (s.drop ts.length) := by
  induction h with
  | @last s x seen kind ends =>
    have hone := Stream.Passed.one seen
    rw [Stream.tail_eq_drop] at hone
    exact hone
  | @cons s x ts seen kind goes more ih =>
    have hmore := (Stream.Passed.one seen).trans ih
    rw [Stream.tail_eq_drop, Stream.drop_drop, Nat.add_comm 1] at hmore
    exact hmore

/-- Other blanks behind the last token of a comment are other blanks behind the comment. -/
theorem renewed_commentNode (d : Token) (us : List Token) (u : Token) :
    Renewed b n [commentNode d (us ++ [u])]
      [commentNode d (us ++ [if n = 0 then { u with trailing := b } else u])] := by
  unfold Renewed
  split
  · simp [modifyLastTokenIn?, modifyLastToken?, commentNode, fuse_concat]
  · rfl

/-- A comment sees nothing behind it if its line ends there. -/
theorem Parses.lineComment_detached {s s' : State} {node : Node}
    (h : Parses Rule.lineComment.body [] s node s') :
    ∃ k, s.stream.Passed k s'.stream ∧ 1 ≤ k ∧ Detached .lineComment k s.stream node := by
  rw [lineComment_eq] at h
  -- The line ends behind the slashes, or a text stands between them and its end.
  obtain ⟨d, hd, ⟨hends, hclose⟩ | ⟨⟨hline, x, hx, hk⟩, hcall⟩⟩ := parses_takeInLine.1 h
  · cases hclose
    refine ⟨1, .one hd, Nat.le_refl 1, ⟨?_⟩⟩
    intro b n t log hb hagree
    obtain ⟨d', y, hd', hy, hxy⟩ := hagree 0 (by omega)
    cases hd.symm.trans hd'
    -- The slashes are the last terminal, so it is their blanks that are new.
    have hleaf : Renewed b n [leaf none d] [leaf none y] := by
      apply Renewed.leaf
      rw [hxy]
      simp only [Nat.zero_add, Nat.left_eq_add]
    refine ⟨.tree .comment [.token y.token], log, ?_, hleaf.tree .comment⟩
    rw [lineComment_eq, ← Stream.tail_eq_drop]
    exact parses_takeInLine.2 ⟨y, hy, Or.inl ⟨hends.agree hb hagree hd hy, .close⟩⟩
  · cases hcall with | call called rest =>
    obtain ⟨ts, htext, hs₁, rfl⟩ := called.exists_commentText hx hk
    cases rest
    have hnode : (Node.tree .comment [joined .commentText ([].reverse ++ ts.map Node.token),
        .token d.token].reverse) = commentNode d.token ts := by
      rw [List.reverse_nil, List.nil_append, joined_tokens .commentText htext.ne_nil]
      rfl
    have hpassed := (Stream.Passed.one hd).trans htext.passed
    rw [hnode]
    refine ⟨1 + ts.length, ?_, by omega, ⟨?_⟩⟩
    · rw [hs₁]
      exact hpassed
    · intro b n t log hb hagree
      have hpos := List.length_pos_iff.2 htext.ne_nil
      rw [Nat.add_assoc] at hagree
      obtain ⟨d', y, hd', hy, hxy⟩ := hagree 0 (by omega)
      cases hd.symm.trans hd'
      rw [if_neg (by omega)] at hxy
      have hbehind := hagree.drop
      rw [← Stream.tail_eq_drop, ← Stream.tail_eq_drop] at hbehind
      obtain ⟨us, u, rfl, htext'⟩ := htext.agree hb hbehind
      have hparse := parses_lineComment hy (by rw [hxy]; exact hline) htext' log
      rw [hxy, List.length_append, List.length_singleton] at hparse
      rw [List.length_append, List.length_singleton]
      exact ⟨_, log, hparse, renewed_commentNode d.token us u⟩

/-! ## Items in a row -/

/-- An item does not depend on what stands behind it. -/
theorem Parses.item_detached {g : Glimpse} {rule : Rule} (hrule : item? g = some rule)
    {s s' : State} {node : Node} (h : Parses rule.body [] s node s') :
    ∃ k, s.stream.Passed k s'.stream ∧ 1 ≤ k ∧ Detached rule k s.stream node := by
  have hmem := item?_mem hrule
  simp only [List.mem_cons, List.not_mem_nil, or_false] at hmem
  -- Only a comment looks behind itself, for the end of its line. The other items carry on as they
  -- are.
  rcases hmem with rfl | rfl | rfl | rfl | rfl | rfl
  · exact h.lineComment_detached
  · obtain ⟨k, hpassed, hleast, hcarries⟩ := h.carries
    have hone : 1 ≤ k := Nat.le_trans (by decide) hleast
    exact ⟨k, hpassed, hone, hcarries.detached hone⟩
  · obtain ⟨k, hpassed, hone, hcarries⟩ := h.attributeSection_carries
    exact ⟨k, hpassed, hone, hcarries.detached hone⟩
  · obtain ⟨k, hpassed, hone, hcarries⟩ := h.usingDirective_carries
    exact ⟨k, hpassed, hone, hcarries.detached hone⟩
  · obtain ⟨k, hpassed, hleast, hcarries⟩ := h.carries
    have hone : 1 ≤ k := Nat.le_trans (by decide) hleast
    exact ⟨k, hpassed, hone, hcarries.detached hone⟩
  · obtain ⟨k, hpassed, hleast, hcarries⟩ := h.carries
    have hone : 1 ≤ k := Nat.le_trans (by decide) hleast
    exact ⟨k, hpassed, hone, hcarries.detached hone⟩

/-- The nodes of items and other terminals in a row, from one stream to what is left of it. -/
inductive Items : Stream → List Node → Stream → Prop where
  | nil {s : Stream} : Items s [] s
  | item {s s₁ s' : Stream} {x : Terminal} {rule : Rule} {log log₁ : List Event} {node : Node}
      {ns : List Node} (seen : s.ahead 0 = .ok x) (start : item? (.ofTerminal x) = some rule)
      (parsed : Parses rule.body [] ⟨s, log⟩ node ⟨s₁, log₁⟩) (more : Items s₁ ns s') :
      Items s (node :: ns) s'
  | other {s s' : Stream} {x : Terminal} {ns : List Node} (seen : s.ahead 0 = .ok x)
      (start : item? (.ofTerminal x) = none) (finite : x.token.kind ≠ .endOfInput)
      (known : x.token.kind ≠ .ident) (more : Items s.tail ns s') :
      Items s (.token x.token :: ns) s'

namespace Items

variable {s₁ s₂ s₃ : Stream} {ns ms : List Node}

theorem append (h₁ : Items s₁ ns s₂) (h₂ : Items s₂ ms s₃) : Items s₁ (ns ++ ms) s₃ := by
  induction h₁ with
  | nil => exact h₂
  | item seen start parsed more ih => exact .item seen start parsed (ih h₂)
  | other seen start finite known more ih => exact .other seen start finite known (ih h₂)

end Items

/-- A change in the last of several nodes. -/
theorem Renewed.under {ns ms : List Node} (h : Renewed b n ns.reverse ms.reverse) (node : Node) :
    Renewed b n (node :: ns).reverse (node :: ms).reverse := by
  unfold Renewed at h ⊢
  split at h
  · rename_i hn
    rw [List.reverse_reverse, List.reverse_reverse] at h
    rw [if_pos hn, List.reverse_reverse, List.reverse_reverse, modifyLastTokenIn?, h]
  · rename_i hn
    rw [if_neg hn, List.reverse_inj.1 h]

/-- A node in front of nodes that are made of `k` terminals changes only if there are none. -/
theorem Renewed.front {k : Nat} {node m : Node} {ns ms : List Node} (hempty : ns = [] ↔ k = 0)
    (hnode : Renewed b (k + n) [node] [m]) (hnil : ns = [] → ms = [])
    (hmore : ns ≠ [] → Renewed b n ns.reverse ms.reverse) :
    Renewed b n (node :: ns).reverse (m :: ms).reverse := by
  by_cases hns : ns = []
  · obtain rfl := hnil hns
    rw [hempty.1 hns, Nat.zero_add] at hnode
    rw [hns]
    exact hnode
  · have hk : k ≠ 0 := fun hk => hns (hempty.2 hk)
    obtain rfl : m = node := by
      have hsame := hnode.eq_of_pos (by omega)
      exact (List.cons.inj hsame).1
    exact (hmore hns).under m

/-- Items in a row come out the same in front of any other text, except for the blanks behind the
last of them. -/
theorem Items.renewed {s s' : Stream} {ns : List Node} (h : Items s ns s') :
    ∃ k, s.Passed k s' ∧ (ns = [] ↔ k = 0) ∧
      ∀ {b : Trivia} {n : Nat} {t : Stream}, b.contains .newline = true → Agree b (k + n) s t →
        ∃ ms, Items t ms (t.drop k) ∧ (ns = [] → ms = []) ∧
          (ns ≠ [] → Renewed b n ns.reverse ms.reverse) := by
  induction h with
  | @nil s =>
    refine ⟨0, .zero s, by simp, ?_⟩
    intro b n t hb hagree
    exact ⟨[], .nil, fun _ => rfl, fun h => absurd rfl h⟩
  | @item s s₁ s' x rule log log₁ node ns seen start parsed more ih =>
    obtain ⟨k₁, hpassed₁, hone, hdetached⟩ := parsed.item_detached start
    obtain ⟨k, hpassed, hempty, hsim⟩ := ih
    refine ⟨k₁ + k, hpassed₁.trans hpassed, by simp only [List.cons_ne_nil, false_iff]; omega, ?_⟩
    intro b n t hb hagree
    rw [Nat.add_assoc] at hagree
    obtain ⟨m, log', hm, hnode⟩ := hdetached.renew [] hb hagree
    have hbehind := hagree.drop
    rw [← hpassed₁.1] at hbehind
    obtain ⟨ms, hms, hnil, hmore⟩ := hsim hb hbehind
    rw [Stream.drop_drop] at hms
    -- Where a line ends has no influence on what starts an item.
    obtain ⟨y, hy, hglimpse, -⟩ := hagree.look (by omega) seen
    have hstart : item? (.ofTerminal y) = some rule := by
      rw [hglimpse]
      exact start
    exact ⟨m :: ms, .item hy hstart hm hms, by simp, fun _ => .front hempty hnode hnil hmore⟩
  | @other s s' x ns seen start finite known more ih =>
    obtain ⟨k, hpassed, hempty, hsim⟩ := ih
    refine ⟨1 + k, (Stream.Passed.one seen).trans hpassed, by simp, ?_⟩
    intro b n t hb hagree
    rw [Nat.add_assoc] at hagree
    have hbehind := hagree.drop
    rw [← Stream.tail_eq_drop, ← Stream.tail_eq_drop] at hbehind
    obtain ⟨ms, hms, hnil, hmore⟩ := hsim hb hbehind
    rw [Stream.tail_eq_drop, Stream.drop_drop, ← Stream.tail_eq_drop] at hms
    obtain ⟨x', y, hx', hy, hxy⟩ := hagree 0 (by omega)
    cases seen.symm.trans hx'
    have hnode : Renewed b (k + n) [leaf none x] [leaf none y] := by
      apply Renewed.leaf
      rw [hxy]
      simp only [Nat.zero_add, Nat.left_eq_add]
    obtain ⟨y', hy', hglimpse, -⟩ := hagree.look (by omega) seen
    cases hy.symm.trans hy'
    have hkind : y.token.kind = x.token.kind := congrArg Glimpse.kind hglimpse
    have hstart : item? (.ofTerminal y) = none := by
      rw [hglimpse]
      exact start
    exact ⟨.token y.token :: ms,
      .other hy hstart (by rwa [hkind]) (by rwa [hkind]) hms, by simp,
      fun _ => .front hempty hnode hnil hmore⟩

/-- No item starts at the end of the text. -/
theorem item?_ofTerminal {x : Terminal} (h : x.token.kind = .endOfInput) :
    item? (.ofTerminal x) = none := by
  rw [Glimpse.ofTerminal, h]
  exact item?_end _ _

/-- A comment text ends behind a terminal of the text. -/
theorem CommentText.behind {ts : List Token} (h : CommentText s ts) :
    ∃ kind, kind ≠ .endOfInput ∧ Behind s (s.drop ts.length) kind := by
  induction h with
  | @last s x seen kind ends => exact ⟨_, kind, 0, x, seen, rfl, rfl⟩
  | @cons s x ts seen kind goes more ih =>
    obtain ⟨k, hk, hbehind⟩ := ih
    have hdrop : s.tail.drop ts.length = s.drop (ts.length + 1) := by
      rw [Stream.tail_eq_drop, Stream.drop_drop, Nat.add_comm]
    rw [hdrop] at hbehind
    exact ⟨k, hk, hbehind.of_drop (Stream.tail_eq_drop s)⟩

/-- A comment ends behind a terminal of the text. -/
theorem Parses.lineComment_behind {s s' : State} {node : Node} {x : Terminal}
    (h : Parses Rule.lineComment.body [] s node s') (hx : s.stream.ahead 0 = .ok x)
    (hk : x.token.kind ≠ .endOfInput) :
    ∃ kind, kind ≠ .endOfInput ∧ Behind s.stream s'.stream kind := by
  rw [lineComment_eq] at h
  obtain ⟨d, hd, ⟨-, hclose⟩ | ⟨⟨-, y, hy, hyk⟩, hcall⟩⟩ := parses_takeInLine.1 h
  · cases hclose
    cases hx.symm.trans hd
    exact ⟨_, hk, 0, x, hx, rfl, Stream.tail_eq_drop s.stream⟩
  · cases hcall with | call called rest =>
    obtain ⟨ts, htext, hs₁, -⟩ := called.exists_commentText hy hyk
    cases rest
    obtain ⟨kind, hkind, hbehind⟩ := htext.behind
    rw [hs₁]
    exact ⟨kind, hkind, hbehind.of_drop (Stream.tail_eq_drop s.stream)⟩

/-- An item ends behind a terminal of the text, so the one at the end is not part of it. -/
theorem Parses.item_behind {s s' : State} {node : Node} {x : Terminal} {rule : Rule}
    (h : Parses rule.body [] s node s') (hx : s.stream.ahead 0 = .ok x)
    (hrule : item? (.ofTerminal x) = some rule) :
    ∃ kind, kind ≠ .endOfInput ∧ Behind s.stream s'.stream kind := by
  have hmem := item?_mem hrule
  simp only [List.mem_cons, List.not_mem_nil, or_false] at hmem
  rcases hmem with rfl | rfl | rfl | rfl | rfl | rfl
  · refine h.lineComment_behind hx ?_
    intro hk
    rw [item?_ofTerminal hk] at hrule
    cases hrule
  all_goals exact ⟨_, by decide, h.behind_mark rfl⟩

/-- Items in a row end behind a terminal of the text. -/
theorem Items.behind {s s' : Stream} {ns : List Node} (h : Items s ns s') (hne : ns ≠ []) :
    ∃ kind, kind ≠ .endOfInput ∧ Behind s s' kind := by
  -- The last item tells; those before it only move the place.
  induction h with
  | nil => exact absurd rfl hne
  | @item s s₁ s' x rule log log₁ node ns seen start parsed more ih =>
    obtain ⟨kind, hkind, hbehind⟩ := parsed.item_behind seen start
    cases ns with
    | nil =>
      cases more
      exact ⟨kind, hkind, hbehind⟩
    | cons m ns =>
      obtain ⟨i, -, -, -, hs₁⟩ := hbehind
      obtain ⟨kind', hkind', hbehind'⟩ := ih (List.cons_ne_nil m ns)
      exact ⟨kind', hkind', hbehind'.of_drop hs₁⟩
  | @other s s' x ns seen start finite known more ih =>
    cases ns with
    | nil =>
      cases more
      exact ⟨_, finite, 0, x, seen, rfl, Stream.tail_eq_drop s⟩
    | cons m ns =>
      obtain ⟨kind', hkind', hbehind'⟩ := ih (List.cons_ne_nil m ns)
      exact ⟨kind', hkind', hbehind'.of_drop (Stream.tail_eq_drop s)⟩

/-! ## Units -/

/-- A unit consists of items and the terminal at the end of the text. -/
theorem Parses.exists_items {nodes : List Node} {s s' : State} {node : Node}
    (h : Parses Rule.unitItems.body nodes s node s') :
    ∃ ns s₁ e, Items s.stream ns s₁ ∧ s₁.ahead 0 = .ok e ∧ e.token.kind = .endOfInput ∧
      node = .tree .compilationUnit (nodes.reverse ++ ns ++ [.token e.token]) ∧
      s'.stream = s₁.tail := by
  -- What starts an item and what is kept is not the end of the text, so fewer terminals are left.
  induction hn : s.stream.terminals.length using Nat.strongRecOn generalizing nodes s with
  | ind n ih =>
    rw [Rule.body, unitItems_eq] at h
    obtain ⟨x, hx, hrest⟩ := parses_look.1 h
    cases hitem : item? (.ofTerminal x) with
    | some rule =>
      rw [hitem] at hrest
      cases hrest with | call called rest =>
      cases rest with | goto hmore =>
      have hend : x.token.kind ≠ .endOfInput := by
        intro hk
        rw [item?_ofTerminal hk] at hitem
        cases hitem
      obtain ⟨k, hpassed, hone, -⟩ := called.item_detached hitem
      have hlt := Stream.length_pos_of_ahead hx hend
      obtain ⟨ns, s₂, e, hitems, he, hk, rfl, hs'⟩ := ih _ (by
        rw [hpassed.1]
        simp only [Stream.drop, List.length_drop]
        omega) hmore rfl
      exact ⟨_ :: ns, s₂, e, .item hx hitem called hitems, he, hk, by simp, hs'⟩
    | none =>
      rw [hitem, Option.elim_none] at hrest
      split at hrest
      · rename_i hend
        obtain ⟨x', hx', hclose⟩ := parses_take.1 hrest
        cases hx.symm.trans hx'
        cases hclose
        exact ⟨[], s.stream, x, .nil, hx, hend, by simp, rfl⟩
      · rename_i hend
        split at hrest
        · cases hrest
        · rename_i hident
          obtain ⟨x', hx', hgoto⟩ := parses_take.1 hrest
          cases hx.symm.trans hx'
          cases hgoto with | goto hmore =>
          have hlt := Stream.length_pos_of_ahead hx hend
          obtain ⟨ns, s₂, e, hitems, he, hk, rfl, hs'⟩ := ih _ (by
            simp only [Stream.tail, List.length_tail]
            omega) hmore rfl
          exact ⟨_ :: ns, s₂, e, .other hx hitem hend hident hitems, he, hk, by simp, hs'⟩

namespace Items

variable {s s₁ : Stream} {ns : List Node}

/-- Items in a row in front of the end of the text are a unit. -/
theorem parses (h : Items s ns s₁) {e : Terminal} (he : s₁.ahead 0 = .ok e)
    (hk : e.token.kind = .endOfInput) (nodes : List Node) (log : List Event) :
    ∃ log', Parses Rule.unitItems.body nodes ⟨s, log⟩
      (.tree .compilationUnit (nodes.reverse ++ ns ++ [.token e.token])) ⟨s₁.tail, log'⟩ := by
  -- By induction on the items, with the nodes that have been collected before them.
  induction h generalizing nodes log with
  | nil =>
    have hend : (Glimpse.ofTerminal e).kind = .endOfInput := hk
    have hclose : Parses (.take none (.close .compilationUnit)) nodes ⟨_, log⟩ _ _ :=
      .take he .close
    rw [List.reverse_cons] at hclose
    rw [Rule.body, unitItems_eq, List.append_nil]
    refine ⟨log, .look he ?_⟩
    rw [item?_ofTerminal hk, Option.elim_none, if_pos hend]
    exact hclose
  | @item s s₂ s₁ x rule log₁ log₂ node ns seen start parsed more ih =>
    obtain ⟨log₃, hparsed⟩ := parsed.relog log
    obtain ⟨log', hmore⟩ := ih he (node :: nodes) log₃
    rw [List.reverse_cons, List.append_assoc nodes.reverse] at hmore
    refine ⟨log', ?_⟩
    rw [Rule.body, unitItems_eq]
    refine .look seen ?_
    rw [start]
    exact .call hparsed (.goto hmore)
  | @other s s₁ x ns seen start finite known more ih =>
    have hend : ¬(Glimpse.ofTerminal x).kind = .endOfInput := finite
    have hident : ¬(Glimpse.ofTerminal x).kind = .ident := known
    obtain ⟨log', hmore⟩ := ih he (.token x.token :: nodes) log
    rw [List.reverse_cons, List.append_assoc nodes.reverse] at hmore
    refine ⟨log', ?_⟩
    rw [Rule.body, unitItems_eq]
    refine .look seen ?_
    rw [start, Option.elim_none, if_neg hend, if_neg hident]
    exact .take seen (.goto hmore)

/-- A unit fails behind items in a row as it fails without them. -/
theorem fails (h : Items s ns s₁) {f : Failure}
    (hf : ∀ nodes log, ∃ log', Fails Rule.unitItems.body nodes ⟨s₁, log⟩ f log')
    (nodes : List Node) (log : List Event) :
    ∃ log', Fails Rule.unitItems.body nodes ⟨s, log⟩ f log' := by
  -- As for a unit that is parsed, with the failure in the place of the end.
  induction h generalizing nodes log with
  | nil => exact hf nodes log
  | @item s s₂ s₁ x rule log₁ log₂ node ns seen start parsed more ih =>
    obtain ⟨log₃, hparsed⟩ := parsed.relog log
    obtain ⟨log', hmore⟩ := ih hf (node :: nodes) log₃
    refine ⟨log', ?_⟩
    rw [Rule.body, unitItems_eq]
    refine .look seen ?_
    rw [start]
    exact .call hparsed (.goto hmore)
  | @other s s₁ x ns seen start finite known more ih =>
    have hend : ¬(Glimpse.ofTerminal x).kind = .endOfInput := finite
    have hident : ¬(Glimpse.ofTerminal x).kind = .ident := known
    obtain ⟨log', hmore⟩ := ih hf (.token x.token :: nodes) log
    refine ⟨log', ?_⟩
    rw [Rule.body, unitItems_eq]
    refine .look seen ?_
    rw [start, Option.elim_none, if_neg hend, if_neg hident]
    exact .take seen (.goto hmore)

end Items

end Lossless.Grammar
