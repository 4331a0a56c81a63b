import Lossless.Proofs.Concatenation
import Lossless.Proofs.Items
import Lossless.Proofs.Layout

/-!
# Units side by side

If a text ends in a line feed, the unit of this text and another one side by side is made of the
units of both: the items of the first come in front of those of the second, and only the blanks
between them move (`splice?`). An error of the second text is the same error further on.

The items of the first text do not depend on what follows them (`Items.renewed`). The second text is
parsed with other blanks in front of its first terminal, which is a likeness of streams
(`Likeness.relead`), so its unit has the other blanks too and nothing else changes.
-/

namespace Lossless

open Text Lexer

/-! ## The first token of a tree -/

namespace Node

mutual

/-- The tree with its first token changed, if it has a token. -/
def modifyFirstToken? (f : Token → Token) : Node → Option Node
  | .token t => some (.token (f t))
  | .tree k cs => (modifyFirstTokenIn? f cs).map (.tree k)

def modifyFirstTokenIn? (f : Token → Token) : List Node → Option (List Node)
  | [] => none
  | n :: ns =>
    match n.modifyFirstToken? f with
    | some m => some (m :: ns)
    | none => (modifyFirstTokenIn? f ns).map (n :: ·)

end

/-- The items of a unit in front of the children of another one. The blanks between them belong to
the last token in front, or to the first one behind if the first unit is nothing but its end `e`. -/
def splice? (items : List Node) (e : Token) (children : List Node) : Option (List Node) :=
  match items with
  | [] => modifyFirstTokenIn? (fun v => { v with leading := e.leading ++ v.leading }) children
  | _ :: _ => do
    let v ← firstTokenIn? children
    let front ← modifyLastTokenIn? (fun z => { z with trailing := z.trailing ++ v.leading }) items
    let back ← modifyFirstTokenIn? (fun v => { v with leading := .empty }) children
    return front ++ back

mutual

/-- A tree without a token has no first token. -/
theorem firstToken?_eq_none {f : Token → Token} : (n : Node) → n.tokens = [] →
    n.firstToken? = none ∧ n.modifyFirstToken? f = none
  | .token t, h => by cases h
  | .tree k cs, h => by
    have hcs := firstTokenIn?_eq_none (f := f) cs (by rwa [tokens] at h)
    simp [firstToken?, modifyFirstToken?, hcs]

/-- Nodes without a token have no first token to read or to change. -/
theorem firstTokenIn?_eq_none {f : Token → Token} : (ns : List Node) → tokensIn ns = [] →
    firstTokenIn? ns = none ∧ modifyFirstTokenIn? f ns = none
  | [], _ => ⟨rfl, rfl⟩
  | n :: ns, h => by
    rw [tokensIn, List.append_eq_nil_iff] at h
    have hn := firstToken?_eq_none (f := f) n h.1
    have hns := firstTokenIn?_eq_none (f := f) ns h.2
    simp [firstTokenIn?, modifyFirstTokenIn?, hn, hns]

end

/-- The nodes are the same, but for the blanks in front of their first token: these are `old` in the
first list and `new` in the second. -/
inductive Relead (old new : Trivia) : List Node → List Node → Prop where
  | here {t : Token} (blanks : t.leading = old) (ns : List Node) :
      Relead old new (.token t :: ns) (.token { t with leading := new } :: ns)
  | inside {cs ds : List Node} (kind : Kind) (more : Relead old new cs ds) (ns : List Node) :
      Relead old new (.tree kind cs :: ns) (.tree kind ds :: ns)
  | skip {n : Node} {ns ms : List Node} (none : n.tokens = []) (more : Relead old new ns ms) :
      Relead old new (n :: ns) (n :: ms)

namespace Relead

variable {old new : Trivia} {ns ms : List Node}

theorem append (h : Relead old new ns ms) (ks : List Node) :
    Relead old new (ns ++ ks) (ms ++ ks) := by
  induction h with
  | here blanks ns => exact .here blanks (ns ++ ks)
  | inside kind more ns _ => exact .inside kind more (ns ++ ks)
  | skip none more ih => exact .skip none ih

theorem behind {ks : List Node} (hks : tokensIn ks = []) (h : Relead old new ns ms) :
    Relead old new (ks ++ ns) (ks ++ ms) := by
  induction ks with
  | nil => exact h
  | cons k ks ih =>
    rw [tokensIn, List.append_eq_nil_iff] at hks
    exact .skip hks.1 (ih hks.2)

/-- The blanks in front of the first token before. -/
theorem exists_first (h : Relead old new ns ms) :
    ∃ v, firstTokenIn? ns = some v ∧ v.leading = old := by
  induction h with
  | @here t blanks ns => exact ⟨t, rfl, blanks⟩
  | inside kind more ns ih =>
    obtain ⟨v, hv, hlead⟩ := ih
    exact ⟨v, by simp [firstTokenIn?, firstToken?, hv], hlead⟩
  | @skip n ns ms none more ih =>
    obtain ⟨v, hv, hlead⟩ := ih
    exact ⟨v, by simp [firstTokenIn?, firstToken?_eq_none (f := id) n none, hv], hlead⟩

/-- The blanks in front of the first token are changed by any function that does so. -/
theorem modify (h : Relead old new ns ms) {f : Token → Token}
    (hf : ∀ v : Token, v.leading = old → f v = { v with leading := new }) :
    modifyFirstTokenIn? f ns = some ms := by
  induction h with
  | @here t blanks ns => simp [modifyFirstTokenIn?, modifyFirstToken?, hf t blanks]
  | inside kind more ns ih => simp [modifyFirstTokenIn?, modifyFirstToken?, ih]
  | @skip n ns ms none more ih =>
    simp [modifyFirstTokenIn?, firstToken?_eq_none (f := f) n none, ih]

end Relead

mutual

/-- Only the last token matters for the change. -/
theorem modifyLastToken?_congr {f g : Token → Token} :
    (n : Node) → (∀ t, n.lastToken? = some t → f t = g t) →
      n.modifyLastToken? f = n.modifyLastToken? g
  | .token t, h => by rw [modifyLastToken?, modifyLastToken?, h t rfl]
  | .tree k cs, h => by
    rw [modifyLastToken?, modifyLastToken?, modifyLastTokenIn?_congr cs h]

/-- What is done to the last token depends on its value there only. -/
theorem modifyLastTokenIn?_congr {f g : Token → Token} :
    (ns : List Node) → (∀ t, lastTokenIn? ns = some t → f t = g t) →
      modifyLastTokenIn? f ns = modifyLastTokenIn? g ns
  | [], _ => rfl
  | n :: ns, h => by
    have hns := modifyLastTokenIn?_congr (f := f) (g := g) ns
      fun t ht => h t (by rw [lastTokenIn?, ht, Option.some_or])
    rw [modifyLastTokenIn?, modifyLastTokenIn?, ← hns]
    cases hmod : modifyLastTokenIn? f ns with
    | some ms => rfl
    | none =>
      have hlast := (modifyLastTokenIn?_eq_none ns).1 hmod
      have hn : ∀ t, n.lastToken? = some t → f t = g t := by
        intro t ht
        exact h t (by rw [lastTokenIn?, hlast, Option.none_or, ht])
      rw [modifyLastToken?_congr n hn]

end

end Node

namespace Token

/-- The blanks in front of the first token are not among what is joined. -/
theorem fuse_cons (kind : Kind) (t : Token) (blanks : Trivia) (us : List Token) :
    fuse kind ({ t with leading := blanks } :: us) =
      { fuse kind (t :: us) with leading := blanks } := by
  cases us <;> rfl

end Token

/-! ## Other blanks in front of a stream -/

namespace Grammar

open Node

/-- The nodes made from the terminals `i` up to `j`, the newest first, are the same but for the
blanks in front of terminal 0, if it is among these. -/
structure Led (old new : Trivia) (i j : Nat) (ns ms : List Node) : Prop where
  le : i ≤ j
  untaken : j = 0 → ms = ns ∧ tokensIn ns.reverse = []
  first : i = 0 → 0 < j → Relead old new ns.reverse ms.reverse
  later : 0 < i → ms = ns

namespace Led

variable {old new : Trivia} {i j k : Nat} {ns ms : List Node}

theorem nil (i : Nat) : Led old new i i [] [] where
  le := Nat.le_refl i
  untaken _ := ⟨rfl, rfl⟩
  first h hpos := by omega
  later _ := rfl

/-- One more node in front keeps the two lists apart in their first token at most. -/
theorem cons {n m : Node} (h : Led old new i j ns ms) (hnew : Led old new j k [n] [m]) :
    Led old new i k (n :: ns) (m :: ms) := by
  have hle := hnew.le
  constructor
  · exact Nat.le_trans h.le hle
  · intro hk
    obtain ⟨rfl, hns⟩ := h.untaken (by omega)
    obtain ⟨hnode, hn⟩ := hnew.untaken hk
    cases hnode
    rw [List.reverse_cons, tokensIn_append, hns]
    exact ⟨rfl, hn⟩
  · intro hi hk
    rw [List.reverse_cons, List.reverse_cons]
    -- The first token is in the new node if the others have taken none.
    by_cases hj : j = 0
    · obtain ⟨rfl, hns⟩ := h.untaken hj
      exact (hnew.first hj hk).behind hns
    · cases hnew.later (by omega)
      exact (h.first hi (by omega)).append [n]
  · intro hi
    have hj := h.le
    cases hnew.later (by omega)
    rw [h.later hi]

/-- Closing both lists to a tree of one kind keeps them apart in their first token at most. -/
theorem tree (h : Led old new i j ns ms) (kind : Kind) :
    Led old new i j [.tree kind ns.reverse] [.tree kind ms.reverse] := by
  constructor
  · exact h.le
  · intro hj
    obtain ⟨rfl, hns⟩ := h.untaken hj
    refine ⟨rfl, ?_⟩
    rw [List.reverse_singleton, tokensIn, tokens, hns]
    rfl
  · intro hi hj
    exact .inside kind (h.first hi hj) []
  · intro hi
    rw [h.later hi]

/-- Joined terminals have the blanks in front of the first of them. -/
theorem join {S : Stream} {kind : Kind} (h : Led old new i j ns ms) (hjoin : Joinable S i kind ns) :
    Led old new i j [joined kind ns.reverse] [joined kind ms.reverse] := by
  have hflat : ∀ n ∈ ns.reverse, n.isToken = true := by simpa using hjoin.flat
  have hne : ns.reverse ≠ [] := by simpa using hjoin.ne_nil
  -- The first of the nodes is a token.
  obtain ⟨t, us, hns⟩ : ∃ t us, ns.reverse = .token t :: us := by
    cases hrev : ns.reverse with
    | nil => exact absurd hrev hne
    | cons n us =>
      have hn := hflat n (by rw [hrev]; exact List.mem_cons_self)
      cases n with
      | token t => exact ⟨t, us, rfl⟩
      | tree k cs => cases hn
  constructor
  · exact h.le
  · intro hj
    have hnone := (h.untaken hj).2
    rw [hns] at hnone
    cases hnone
  · intro hi hj
    have hfirst := h.first hi hj
    rw [hns] at hfirst hflat
    rw [hns]
    generalize hms : ms.reverse = vs at hfirst
    cases hfirst with
    | here blanks =>
      have hflat' : ∀ n ∈ Node.token { t with leading := new } :: us, n.isToken = true := by
        intro n hn
        rcases List.mem_cons.1 hn with rfl | hn
        · rfl
        · exact hflat n (List.mem_cons_of_mem _ hn)
      rw [joined_flat (List.cons_ne_nil _ _) hflat, joined_flat (List.cons_ne_nil _ _) hflat']
      simp only [tokensIn, tokens, List.singleton_append, Token.fuse_cons]
      have hlead : (Token.fuse kind (t :: tokensIn us)).leading = old := blanks
      exact .here hlead []
    | skip none => cases none
  · intro hi
    rw [h.later hi]

end Led

variable {x : Terminal} {xs : List Terminal} {ending : Ending} {blanks : Trivia}

/-- Behind the first terminal, other blanks in front of it are not seen. -/
theorem ahead_withLeading (i : Nat) :
    (⟨x.withLeading blanks :: xs, ending⟩ : Stream).ahead (i + 1) =
      (⟨x :: xs, ending⟩ : Stream).ahead (i + 1) := rfl

/-- Being the same but for the blanks in front of the first terminal, as a likeness. -/
def Likeness.relead (x : Terminal) (xs : List Terminal) (ending : Ending) (blanks : Trivia) :
    Likeness ⟨x :: xs, ending⟩ ⟨x.withLeading blanks :: xs, ending⟩ where
  Rel := Led x.token.leading blanks
  nil := .nil
  leaf := by
    intro j y z tag hy hz
    refine ⟨Nat.le_succ j, by omega, ?_, ?_⟩
    · rintro rfl -
      cases hy
      cases hz
      have hlead : (Token.leading { x.token with kind := tag.getD x.token.kind }) =
        x.token.leading := rfl
      exact .here hlead []
    · intro hj
      obtain ⟨j, rfl⟩ := Nat.exists_eq_succ_of_ne_zero (Nat.ne_of_gt hj)
      rw [ahead_withLeading, hy] at hz
      cases hz
      rfl
  cons := .cons
  tree kind h := h.tree kind
  join := .join

theorem resembles_withLeading :
    (⟨x :: xs, ending⟩ : Stream).Resembles ⟨x.withLeading blanks :: xs, ending⟩ := by
  intro i y hy
  cases i with
  | zero =>
    cases hy
    exact ⟨_, rfl, rfl⟩
  | succ i => exact ⟨y, hy, rfl⟩

theorem withLeading_resembles :
    (⟨x.withLeading blanks :: xs, ending⟩ : Stream).Resembles ⟨x :: xs, ending⟩ :=
  @resembles_withLeading (x.withLeading blanks) xs ending x.token.leading

/-- A failure has the same range whatever blanks stand in front of the first terminal. -/
theorem Failure.Mirrored.eq_of_withLeading {e e' : Failure}
    (h : e.Mirrored ⟨x :: xs, ending⟩ ⟨x.withLeading blanks :: xs, ending⟩ e') : e' = e := by
  cases h with
  | @lexical i f f' here there =>
    cases i with
    | zero => cases here
    | succ i =>
      cases here.symm.trans there
      rfl
  | @grammar i y z cause here there =>
    cases i with
    | zero =>
      cases here
      cases there
      rfl
    | succ i =>
      cases here.symm.trans there
      rfl

/-! ## Units -/

/-- A unit consists of items and the terminal at the end of the text. -/
theorem exists_items {s : Stream} {B : Node} (h : (parse .unitItems rfl s).result = .ok B) :
    ∃ ns s₁ e, Items s ns s₁ ∧ s₁.ahead 0 = .ok e ∧ e.token.kind = .endOfInput ∧
      B = .tree .compilationUnit (ns ++ [.token e.token]) := by
  obtain ⟨s', hB⟩ := parse_ok_iff.1 h
  obtain ⟨ns, s₁, e, hitems, he, hk, rfl, -⟩ := hB.exists_items
  exact ⟨ns, s₁, e, hitems, he, hk, rfl⟩

/-- A unit with other blanks in front of its first terminal. -/
theorem parse_withLeading_ok {B : Node}
    (h : (parse .unitItems rfl ⟨x :: xs, ending⟩).result = .ok B) (blanks : Trivia) :
    ∃ bs cs, B = .tree .compilationUnit bs ∧ Relead x.token.leading blanks bs cs ∧
      (parse .unitItems rfl ⟨x.withLeading blanks :: xs, ending⟩).result =
        .ok (.tree .compilationUnit cs) := by
  have halike := parse_alike (.relead x xs ending blanks) resembles_withLeading
    withLeading_resembles .unitItems rfl
  rw [h] at halike
  cases hC : (parse .unitItems rfl ⟨x.withLeading blanks :: xs, ending⟩).result with
  | error e =>
    rw [hC] at halike
    exact halike.elim
  | ok C =>
    rw [hC] at halike
    obtain ⟨k, hled⟩ := halike
    obtain ⟨ns, -, e, -, -, -, rfl⟩ := exists_items h
    have hk : 0 < k := by
      -- The unit has the terminal at the end, so a terminal has been taken.
      apply Nat.pos_of_ne_zero
      intro hk
      have hnone := (hled.untaken hk).2
      simp [tokensIn, tokens] at hnone
    have hfirst := hled.first rfl hk
    rw [List.reverse_singleton, List.reverse_singleton] at hfirst
    cases hfirst with
    | inside kind more => exact ⟨_, _, rfl, more, rfl⟩
    | skip none => simp [tokensIn, tokens] at none

/-- Other blanks in front of the first terminal make no other error. -/
theorem parse_withLeading_error {e : Error}
    (h : (parse .unitItems rfl ⟨x :: xs, ending⟩).result = .error e) (blanks : Trivia) :
    (parse .unitItems rfl ⟨x.withLeading blanks :: xs, ending⟩).result = .error e := by
  have halike := parse_alike (.relead x xs ending blanks) resembles_withLeading
    withLeading_resembles .unitItems rfl
  rw [h] at halike
  cases hC : (parse .unitItems rfl ⟨x.withLeading blanks :: xs, ending⟩).result with
  | ok C =>
    rw [hC] at halike
    exact halike.elim
  | error e' =>
    rw [hC] at halike
    obtain ⟨f, f', rfl, rfl, hmirror⟩ := halike
    rw [hmirror.eq_of_withLeading]

/-- The same stream makes the same error. -/
theorem Failure.Mirrored.eq_of_same {S : Stream} {e e' : Failure} (h : e.Mirrored S S e') :
    e' = e := by
  cases h with
  | lexical here there =>
    cases here.symm.trans there
    rfl
  | grammar cause here there =>
    cases here.symm.trans there
    rfl

namespace Items

variable {s t : Stream} {ns : List Node}

/-- A unit behind items. -/
theorem parse_ok (h : Items t ns s) {bs : List Node}
    (hs : (parse .unitItems rfl s).result = .ok (.tree .compilationUnit bs)) :
    (parse .unitItems rfl t).result = .ok (.tree .compilationUnit (ns ++ bs)) := by
  obtain ⟨ms, s₁, e, hitems, he, hk, hbs⟩ := exists_items hs
  cases hbs
  obtain ⟨log, hparses⟩ := (h.append hitems).parses he hk [] []
  rw [List.reverse_nil, List.nil_append, List.append_assoc] at hparses
  exact parse_ok_iff.2 ⟨_, hparses⟩

/-- An error behind items. -/
theorem parse_error (h : Items t ns s) {e : Error}
    (hs : (parse .unitItems rfl s).result = .error e) :
    (parse .unitItems rfl t).result = .error e := by
  obtain ⟨f, log, hf, rfl⟩ := parse_error_iff.1 hs
  have hsame : s.Resembles s := fun i x hx => ⟨x, hx, rfl⟩
  obtain ⟨log', hfails⟩ := h.fails (f := f) (by
    intro nodes log
    obtain ⟨f', log', hf', hmirror⟩ := hf.alike hsame hsame (j := 0) nodes log rfl
    rw [hmirror.eq_of_same] at hf'
    exact ⟨log', hf'⟩) [] []
  exact parse_error_iff.2 ⟨f, log', hfails, rfl⟩

end Items

/-- A stream that begins with an error is no unit. -/
theorem parse_fault (f : Fault) :
    (parse .unitItems rfl ⟨[], .fault f⟩).result = .error (.lexical f.diagnostic) := by
  refine parse_error_iff.2 ⟨.lexical f, [], ?_, rfl⟩
  rw [Rule.body, unitItems_eq]
  exact .lookFault rfl

end Grammar

/-! ## Texts -/

open Grammar Node Terminal

/-- The terminals of a text are `us` and `z`, and they make some items. The items come out the same
if another text follows, as long as a line ends behind `z`. -/
structure Itemized (a : List Char) (items : List Node) (us : List Terminal) (z : Terminal) :
    Prop where
  yielding : Yielding 0 a (us ++ [z]) []
  taken : Items (.ofLexer (fresh 0 a)) items ((Stream.ofLexer (fresh 0 a)).drop (us.length + 1))
  renew : ∀ {b : Trivia} (rest : List Terminal) (ending : Ending), b.contains .newline = true →
    ∃ items', modifyLastTokenIn? (fun t => { t with trailing := b }) items = some items' ∧
      Items ⟨us ++ z.withTrailing b :: rest, ending⟩ items' ⟨rest, ending⟩

/-- The stream of a text that ends behind a terminal. -/
theorem Yielding.exists_stream {a : List Char} {us : List Terminal} {z : Terminal}
    (h : Yielding 0 a (us ++ [z]) []) :
    ∃ p, Stream.ofLexer (fresh 0 a) = ⟨us ++ [z, .finish p []], .finish p⟩ := by
  have hstream := h.stream_eq
  rw [Stream.ofLexer_of_blank .nil .nil, List.append_assoc] at hstream
  exact ⟨_, hstream⟩

/-- The stream behind the first terminals. -/
theorem Stream.drop_concat (us : List Terminal) (z : Terminal) (rest : List Terminal)
    (ending : Ending) : drop ⟨us ++ z :: rest, ending⟩ (us.length + 1) = ⟨rest, ending⟩ := by
  simp [drop]

/-- If a text ends behind items, they are made of all its terminals. -/
theorem Grammar.Items.exists_itemized {a : List Char} {items : List Node} {s : Stream}
    {e : Terminal} (h : Items (.ofLexer (fresh 0 a)) items s) (hne : items ≠ [])
    (he : s.ahead 0 = .ok e) (hk : e.token.kind = .endOfInput) :
    ∃ us z, Itemized a items us z := by
  obtain ⟨kind, hkind, i, z, hz, rfl, rfl⟩ := h.behind hne
  obtain ⟨us, m, r, rfl, hus, hyz⟩ := Stream.yields_of_ahead hz hkind
  have hall := hus.append (.cons hyz .nil)
  -- The last item ends with a terminal behind which the text has nothing more.
  have hr : r = [] := by
    have hdrop := Stream.drop_of_yielding hall
    rw [List.length_append, List.length_singleton] at hdrop
    rw [hdrop] at he
    exact Stream.eq_nil_of_end hyz.sharp he hk
  subst hr
  obtain ⟨k, hpassed, -, hsim⟩ := h.renewed
  obtain rfl := taken_eq hus hyz hpassed
  obtain ⟨p, hstream⟩ := hall.exists_stream
  refine ⟨us, z, hall, h, ?_⟩
  intro b rest ending hb
  -- The second stream has the same terminals, but for the blanks behind the last one.
  have hagree : Agree b (us.length + 1) (.ofLexer (fresh 0 a))
      ⟨us ++ z.withTrailing b :: rest, ending⟩ := by
    rw [hstream]
    refine .append ?_ us _ _ _ _
    rfl
  obtain ⟨items', hitems', -, hmod⟩ := hsim (n := 0) hb hagree
  rw [Stream.drop_concat] at hitems'
  have hmod := hmod hne
  unfold Renewed at hmod
  rw [if_pos rfl, List.reverse_reverse, List.reverse_reverse] at hmod
  exact ⟨items', hmod, hitems'⟩

namespace Itemized

variable {a : List Char} {items : List Node} {us : List Terminal} {z : Terminal}

/-- The items on the stream of their text, where the terminal at the end follows `z`. -/
theorem exists_end (h : Itemized a items us z) :
    ∃ p, Items ⟨us ++ [z, .finish p []], .finish p⟩ items ⟨[.finish p []], .finish p⟩ := by
  obtain ⟨p, hstream⟩ := h.yielding.exists_stream
  have hitems := h.taken
  rw [hstream, Stream.drop_concat] at hitems
  exact ⟨p, hitems⟩

/-- The blanks behind the items are those behind their last terminal. -/
theorem trailing_eq (h : Itemized a items us z) (hlast : a.getLast? = some '\n') {t : Token}
    (ht : lastTokenIn? items = some t) : t.trailing = z.token.trailing := by
  -- With the blanks behind `z` for new ones, the items come out as they are.
  obtain ⟨p, hitems⟩ := h.exists_end
  obtain ⟨items', hmod, hitems'⟩ := h.renew [.finish p []] (.finish p) (h.yielding.endsLine hlast)
  obtain ⟨log, hparses⟩ := hitems.parses rfl rfl [] []
  obtain ⟨log', hparses'⟩ := hitems'.parses rfl rfl [] []
  have hold : (parse .unitItems rfl _).result = .ok _ := parse_ok_iff.2 ⟨_, hparses⟩
  have hsame := hold.symm.trans (parse_ok_iff.2 ⟨_, hparses'⟩)
  simp only [List.reverse_nil, List.nil_append, Except.ok.injEq, Node.tree.injEq, true_and,
    List.append_cancel_right_eq] at hsame
  subst hsame
  have hmodified := lastTokenIn?_modify items hmod
  rw [ht, Option.map_some] at hmodified
  rw [Option.some.inj hmodified]

/-- More blanks behind the items. -/
theorem extend (h : Itemized a items us z) (hlast : a.getLast? = some '\n') (blanks : Trivia)
    (rest : List Terminal) (ending : Ending) :
    ∃ items', modifyLastTokenIn? (fun t => { t with trailing := t.trailing ++ blanks }) items =
        some items' ∧
      Items ⟨us ++ z.withTrailing (z.token.trailing ++ blanks) :: rest, ending⟩ items'
        ⟨rest, ending⟩ := by
  have hcontains : Trivia.contains (z.token.trailing ++ blanks) .newline = true := by
    have hline := h.yielding.endsLine hlast
    simp only [Trivia.contains, Trivia.pieces_append, List.any_append, Bool.or_eq_true] at hline ⊢
    exact Or.inl hline
  obtain ⟨items', hmod, hitems'⟩ := h.renew rest ending hcontains
  refine ⟨items', ?_, hitems'⟩
  rw [← hmod]
  apply modifyLastTokenIn?_congr
  intro t ht
  rw [h.trailing_eq hlast ht]

/-- If the last terminal is lost to an error, the unit fails with it. -/
theorem parse_lost (h : Itemized a items us z) (f : Fault) :
    (parse .unitItems rfl ⟨us, .fault f⟩).result = .error (.lexical f.diagnostic) := by
  obtain ⟨p, hitems⟩ := h.exists_end
  obtain ⟨log, hparses⟩ := hitems.parses rfl rfl [] []
  rcases hparses.cut_short [] (.append us _ _) with ⟨k, log', hle, hs', -⟩ | ⟨log', hf⟩
  · -- The unit takes `z` and the terminal at the end, which are missing.
    have hlen := congrArg (fun s : Stream => s.terminals.length) hs'
    simp [Stream.tail, Stream.drop] at hlen
    omega
  · exact parse_error_iff.2 ⟨.lexical f, log', hf, rfl⟩

end Itemized

/-- The outcome on a stream from that on another one, which `items` have been put in front of; `e`
is the end of their unit. -/
def Spliced (items : List Node) (e : Token) : Except Error Node → Except Error Node → Prop
  | .ok B, result => ∃ bs cs, B = .tree .compilationUnit bs ∧ splice? items e bs = some cs ∧
      result = .ok (.tree .compilationUnit cs)
  | .error error, result => result = .error error

/-- Behind items another unit goes on. -/
theorem Itemized.spliced {a : List Char} {items : List Node} {us : List Terminal} {z : Terminal}
    (h : Itemized a items us z) (hlast : a.getLast? = some '\n') (hne : items ≠ []) {S T : Stream}
    (hjoins : Stream.Joins us z S T) (e : Token) :
    Spliced items e (parse .unitItems rfl S).result (parse .unitItems rfl T).result := by
  -- At the seam the blanks of the first terminal are drawn back, or an error comes first, behind
  -- the last terminal or in the place of it.
  cases hjoins with
  | @drawn v vs ending =>
    obtain ⟨front, hfront, hitems⟩ :=
      h.extend hlast v.token.leading (v.withLeading .empty :: vs) ending
    cases hB : (parse .unitItems rfl ⟨v :: vs, ending⟩).result with
    | error error => exact hitems.parse_error (parse_withLeading_error hB .empty)
    | ok B =>
      obtain ⟨bs, back, rfl, hrelead, hC⟩ := parse_withLeading_ok hB .empty
      refine ⟨bs, front ++ back, rfl, ?_, hitems.parse_ok hC⟩
      -- The splice finds these blanks in front of the first token and moves them to the last item.
      obtain ⟨w, hw, hlead⟩ := hrelead.exists_first
      have hback := hrelead.modify (f := fun v => { v with leading := .empty }) fun _ _ => rfl
      cases items with
      | nil => exact absurd rfl hne
      | cons n ns => simp [splice?, hw, hlead, hfront, hback]
  | @kept blanks f =>
    obtain ⟨front, -, hitems⟩ := h.extend hlast blanks [] (.fault f)
    rw [parse_fault]
    exact hitems.parse_error (parse_fault f)
  | @lost f =>
    rw [parse_fault]
    exact h.parse_lost f

/-- In front of a unit there are only blanks. -/
theorem spliced_blank (p : Nat) (b : List Char) (e : Token) :
    Spliced [] e (parse .unitItems rfl (.ofLexer (fresh p b))).result
      (parse .unitItems rfl ((Stream.ofLexer (fresh p b)).behind e.leading)).result := by
  cases hs : Stream.ofLexer (fresh p b) with | mk terminals ending =>
  cases terminals with
  -- Without a terminal there is an error, which blanks in front do not change.
  | nil =>
    have hnil : (Stream.ofLexer (fresh p b)).terminals = [] := by rw [hs]
    obtain ⟨f, hf⟩ := Stream.exists_fault hnil
    cases hs.symm.trans hf
    rw [Stream.behind, parse_fault]
    rfl
  | cons x xs =>
    rw [Stream.behind]
    cases hB : (parse .unitItems rfl ⟨x :: xs, ending⟩).result with
    | error error => exact parse_withLeading_error hB _
    | ok B =>
      -- The blanks of the first text join those of the first terminal.
      obtain ⟨bs, cs, rfl, hrelead, hC⟩ := parse_withLeading_ok hB (e.leading ++ x.token.leading)
      refine ⟨bs, cs, rfl, hrelead.modify ?_, hC⟩
      intro v hv
      rw [hv]

/-- A text behind another one is parsed as it is alone, with errors further on. -/
theorem parse_fresh (n : Nat) (text : String) :
    (parse .unitItems rfl (.ofLexer (fresh n text.toList))).result =
      match parseUnit text with
      | .ok node => .ok node
      | .error error => .error (error.shift n) := by
  have hshift : fresh n text.toList = (Lexer.new text.toList).shift n := by
    simp [fresh, Lexer.new, Lexer.shift]
  rw [hshift, Stream.ofLexer_shift]
  exact parse_shift n _

/-- The items of a unit do not depend on what stands around them. If a text that ends in a line feed
is a unit, then this text and any other one side by side are the unit that is spliced of both, or
there is the error of the second text, as many bytes further on as the first one has. -/
theorem parseUnit_append {a b : String} {A : Node} (hlast : a.toList.getLast? = some '\n')
    (hA : parseUnit a = .ok A) :
    ∃ items e, A = .tree .compilationUnit (items ++ [.token e]) ∧ e.kind = .endOfInput ∧
      match parseUnit b with
      | .ok B => ∃ bs cs, B = .tree .compilationUnit bs ∧ splice? items e bs = some cs ∧
          parseUnit (a ++ b) = .ok (.tree .compilationUnit cs)
      | .error error => parseUnit (a ++ b) = .error (error.shift (width a.toList)) := by
  obtain ⟨items, s, e, hitems, he, hk, rfl⟩ := exists_items hA
  refine ⟨items, e.token, rfl, hk, ?_⟩
  have hspliced : Spliced items e.token
      (parse .unitItems rfl (.ofLexer (fresh (width a.toList) b.toList))).result
      (parseUnit (a ++ b)) := by
    rw [parseUnit, reportUnit, String.toList_append, new_eq_fresh]
    -- A unit without items is blank; otherwise the seam lies behind its last item.
    by_cases hne : items = []
    · subst hne
      cases hitems
      rw [Stream.ofLexer_append_blank he hk hlast]
      exact spliced_blank _ _ e.token
    · obtain ⟨us, z, h⟩ := hitems.exists_itemized hne he hk
      exact h.spliced hlast hne (Stream.ofLexer_append h.yielding hlast) e.token
  -- So far the second text is parsed where it stands; at the beginning it gives the same,
  -- unshifted.
  rw [parse_fresh] at hspliced
  cases hb : parseUnit b with
  | ok B =>
    rw [hb] at hspliced
    exact hspliced
  | error error =>
    rw [hb] at hspliced
    exact hspliced

/-- A directive and a comment that ends with the text. -/
def commented : String := "using A;\n// c\n"

/-- A class with blanks in front. -/
def indented : String := "  class C \x7b\x7d\n"

/-- A word that starts no item. -/
def stray : String := " x"

/-- Behind the comment line the items of the class are spliced in, and the stray word fails 14 bytes
further on. -/
theorem parseUnit_append_commented :
    commented.toList.getLast? = some '\n' ∧
      ∃ items e, parseUnit commented = .ok (.tree .compilationUnit (items ++ [.token e])) ∧
        (∃ bs cs, parseUnit indented = .ok (.tree .compilationUnit bs) ∧
          splice? items e bs = some cs ∧
          parseUnit (commented ++ indented) = .ok (.tree .compilationUnit cs)) ∧
        ∃ error, parseUnit stray = .error error ∧
          parseUnit (commented ++ stray) = .error (error.shift 14) := by
  have hlast : commented.toList.getLast? = some '\n' := by decide +kernel
  have hok : (parseUnit commented).isOk = true := by decide +kernel
  have hindented : (parseUnit indented).isOk = true := by decide +kernel
  have hstray : (parseUnit stray).isOk = false := by decide +kernel
  obtain ⟨A, hA⟩ := exists_of_isOk hok
  obtain ⟨B, hb⟩ := exists_of_isOk hindented
  obtain ⟨error, hc⟩ := exists_of_not_isOk hstray
  -- Which texts are parsed is evaluated; how they go together is the theorem, used once for each.
  obtain ⟨items, e, rfl, -, hB⟩ := parseUnit_append (b := indented) hlast hA
  obtain ⟨items', e', -, -, hC⟩ := parseUnit_append (b := stray) hlast hA
  rw [hb] at hB
  rw [hc] at hC
  obtain ⟨bs, cs, rfl, hcs⟩ := hB
  exact ⟨hlast, items, e, hA, ⟨bs, cs, hb, hcs⟩, error, hc, hC⟩

end Lossless
