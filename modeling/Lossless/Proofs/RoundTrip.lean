import Lossless.Proofs.Decisions
import Lossless.Proofs.Derivation
import Lossless.Proofs.Terminals

/-!
# Parsing loses nothing

Every terminal that a rule takes goes into the tree once, in its place. Two things could still
change the text: a terminal that is taken under another kind gets or loses quotation marks if one of
the kinds is that of strings, and terminals that are joined vanish if a non-terminal is among them.
`Keeps` states for the steps of a rule that neither happens, and `Parses.chars_eq` concludes that a
node has the text of the terminals that were taken for it. A unit ends with the terminal at the end
of the text (`Parses.behind_mark`), so nothing is left behind it.
-/

namespace Lossless

/-! ## Streams -/

namespace Stream

/-- The text of the terminals still to come. -/
def chars (s : Stream) : List Char := Terminal.charsOf s.terminals

/-- The stream behind its first `n` terminals. -/
def drop (s : Stream) (n : Nat) : Stream := ⟨s.terminals.drop n, s.ending⟩

@[simp] theorem drop_zero (s : Stream) : s.drop 0 = s := rfl

theorem drop_drop (s : Stream) (m n : Nat) : (s.drop m).drop n = s.drop (m + n) := by
  simp only [drop, List.drop_drop]

theorem tail_eq_drop (s : Stream) : s.tail = s.drop 1 := by
  simp only [tail, drop, List.drop_one]

theorem tail_drop (s : Stream) (n : Nat) : (s.drop n).tail = s.drop (n + 1) := by
  rw [tail_eq_drop, drop_drop]

theorem ahead_drop (s : Stream) (m n : Nat) : (s.drop m).ahead n = s.ahead (m + n) := by
  simp only [ahead, drop, List.getElem?_drop]

/-- The next terminal and the text behind it make up the text. Past the end both are empty. -/
theorem chars_of_ahead {s : Stream} {t : Terminal} (h : s.ahead 0 = .ok t) :
    s.chars = t.token.chars ++ s.tail.chars := by
  rcases s with ⟨terminals, ending⟩
  cases terminals with
  | nil =>
    cases ending with
    | finish position =>
      cases h
      rfl
    | fault f => cases h
  | cons u us =>
    cases h
    rfl

/-- The second stream is what is left of the first behind `n` terminals, all of which are there. -/
def Passed (s : Stream) (n : Nat) (s' : Stream) : Prop :=
  s' = s.drop n ∧ ∀ i < n, ∃ t, s.ahead i = .ok t

theorem Passed.zero (s : Stream) : s.Passed 0 s := by
  refine ⟨rfl, ?_⟩
  intro i hi
  exact absurd hi (Nat.not_lt_zero i)

/-- Stretches of passed terminals compose. -/
theorem Passed.trans {s s₁ s₂ : Stream} {m n : Nat} (h₁ : s.Passed m s₁) (h₂ : s₁.Passed n s₂) :
    s.Passed (m + n) s₂ := by
  rcases h₁ with ⟨rfl, h₁⟩
  rcases h₂ with ⟨rfl, h₂⟩
  refine ⟨drop_drop s m n, ?_⟩
  intro i hi
  by_cases him : i < m
  · exact h₁ i him
  · rcases h₂ (i - m) (by omega) with ⟨t, ht⟩
    rw [ahead_drop, show m + (i - m) = i by omega] at ht
    exact ⟨t, ht⟩

theorem Passed.one {s : Stream} {t : Terminal} (h : s.ahead 0 = .ok t) : s.Passed 1 s.tail := by
  refine ⟨tail_eq_drop s, ?_⟩
  intro i hi
  rw [show i = 0 by omega]
  exact ⟨t, h⟩

end Stream

def Node.charsIn (ns : List Node) : List Char := (tokensIn ns).flatMap Token.chars

namespace Node

@[simp] theorem charsIn_nil : charsIn [] = [] := rfl

@[simp] theorem charsIn_append (as bs : List Node) :
    charsIn (as ++ bs) = charsIn as ++ charsIn bs := by
  simp [charsIn]

@[simp] theorem charsIn_singleton (n : Node) : charsIn [n] = n.chars := by
  simp [charsIn, tokensIn, chars]

@[simp] theorem chars_tree (k : Kind) (cs : List Node) : (Node.tree k cs).chars = charsIn cs := by
  simp [chars, tokens, charsIn]

@[simp] theorem chars_token (t : Token) : (Node.token t).chars = t.chars := by
  simp [chars, tokens]

end Node

namespace Grammar

open Node

/-! ## The text of leaves and joins -/

/-- Taking a word under another kind keeps its text. -/
theorem chars_leaf {tag : Option Kind} {t : Terminal}
    (h : tag = none ∨ (t.token.kind = .ident ∧ tag ≠ some .stringLit)) :
    (leaf tag t).chars = t.token.chars := by
  rcases h with rfl | ⟨hk, htag⟩
  · simp [leaf]
  · cases tag with
    | none => simp [leaf]
    | some k =>
      have hk' : k ≠ .stringLit := by
        rintro rfl
        exact htag rfl
      simp [leaf, Token.chars, Token.ownChars, hk, hk']

/-- Nodes that are all tokens are read back as their tokens. -/
theorem mapM_token? {ns : List Node} (h : ∀ n ∈ ns, n.isToken = true) :
    ns.mapM token? = some (tokensIn ns) := by
  induction ns with
  | nil => rfl
  | cons n ns ih =>
    have hn := h n List.mem_cons_self
    have hns := ih fun m hm => h m (List.mem_cons_of_mem n hm)
    cases n with
    | token t => simp [List.mapM_cons, token?, hns, tokensIn, tokens]
    | tree k cs => cases hn

/-- Terminals that are joined keep their text. -/
theorem chars_joined {kind : Kind} {ns : List Node} (hk : kind ≠ .stringLit)
    (h : ∀ n ∈ ns, n.isToken = true) : (joined kind ns).chars = charsIn ns := by
  cases ns with
  | nil => simp [joined, merge?, Token.chars, Token.ownChars, hk, tokensIn, charsIn]
  | cons n ns =>
    have hm := mapM_token? h
    cases n with
    | tree k cs => cases h _ List.mem_cons_self
    | token t =>
      simp only [joined, merge?, List.isEmpty_cons, Bool.false_eq_true, if_false, hm,
        Option.map_some, Option.getD_some, chars_token, tokensIn, tokens, List.cons_append,
        List.nil_append]
      exact Token.chars_fuse hk t (tokensIn ns)

/-! ## Steps that keep the text -/

/-- The rules that join terminals. All they collect are terminals. -/
@[simp] def Rule.joins : Rule → Bool
  | .commentText | .ctorMark => true
  | _ => false

/-- A step loses no text. `word` says that the next terminal is known to be a word, `flat` that all
nodes collected so far are terminals. -/
@[simp] def Keeps : Step → (word flat : Bool) → Prop
  | .look n next, word, flat =>
    ∀ g, Keeps (next g) (if n.val = 0 then g.kind == .ident else word) flat
  | .take tag next, word, flat =>
    (tag = none ∨ (word = true ∧ tag ≠ some .stringLit)) ∧ Keeps next false flat
  | .call _ next, _, _ => Keeps next false false
  | .goto r, _, flat => r.joins = true → flat = true
  | .gather _ next, word, _ => Keeps next word false
  | .note _ next, word, flat => Keeps next word flat
  | .join kind, _, flat => kind ≠ .stringLit ∧ flat = true
  | .close _, _, _ | .fail _, _, _ => True

theorem keeps_ite {c : Prop} [Decidable c] {a b : Step} {word flat : Bool} :
    Keeps (if c then a else b) word flat ↔ (c → Keeps a word flat) ∧ (¬c → Keeps b word flat) := by
  split <;> simp_all

theorem keeps_elim {α : Type} {o : Option α} {a : Step} {f : α → Step} {word flat : Bool} :
    Keeps (o.elim a f) word flat ↔
      (o = none → Keeps a word flat) ∧ ∀ x, o = some x → Keeps (f x) word flat := by
  cases o <;> simp

/-- A word that is taken under the kind given by a table keeps its text if no word of the table is
taken as a string. -/
theorem keeps_tagged {g : Glimpse} {tag? : String → Option Kind} {other next : Step} {flat : Bool}
    (htag : ∀ word, tag? word ≠ some .stringLit) (hother : Keeps other (g.kind == .ident) flat)
    (hnext : Keeps next false flat) :
    Keeps ((g.word?.bind tag?).elim other fun tag => .take (some tag) next) (g.kind == .ident)
      flat := by
  refine keeps_elim.2 ⟨fun _ => hother, ?_⟩
  intro k hk
  rcases word?_bind hk with ⟨hident, hword⟩
  refine ⟨Or.inr ⟨by simp [hident], ?_⟩, hnext⟩
  intro hk'
  rw [hk'] at hword
  exact htag _ hword

/-- No rule loses text. -/
theorem keeps_body (rule : Rule) : Keeps rule.body false rule.joins := by
  -- Only the rules that take words under other kinds need to know what they look at.
  cases rule with
  | usingDirective => simp +contextual [keeps_ite, Glimpse.is_iff]
  | classDecl =>
    simp only [Rule.body, classDecl_eq, Keeps]
    intro g
    exact keeps_tagged (fun _ h => absurd (classModifier?_mem h) (by decide)) (by simp [keeps_ite])
      (by simp)
  | member name => simp +contextual [keeps_ite, word?_any_iff]
  | memberModifiers name =>
    simp only [Rule.body, memberModifiers_eq, Keeps]
    intro g
    exact keeps_tagged (fun _ h => absurd (memberModifier?_mem h) (by decide)) (by simp [keeps_ite])
      (by simp)
  | parameter => simp +contextual [keeps_ite, Glimpse.is_iff]
  | _ => simp [keeps_ite, keeps_elim]

/-! ## Runs that keep the text -/

/-- A step loses no text in a given state: what it takes for granted about the next terminal and the
nodes collected so far is true. -/
def Faithful (step : Step) (nodes : List Node) (s : State) : Prop :=
  ∃ word flat, Keeps step word flat ∧
    (word = true → ∀ t, s.stream.ahead 0 = .ok t → t.token.kind = .ident) ∧
    (flat = true → ∀ n ∈ nodes, n.isToken = true)

namespace Faithful

variable {nodes : List Node} {s : State} {next : Step}

/-- Any rule can be called. -/
theorem body (rule : Rule) (s : State) : Faithful rule.body [] s := by
  refine ⟨false, rule.joins, keeps_body rule, by simp, ?_⟩
  intro _ n hn
  exact absurd hn List.not_mem_nil

/-- A look ahead takes nothing: what is faithful before it is faithful after it. -/
theorem look {n : Fin 3} {next : Glimpse → Step} {t : Terminal}
    (h : Faithful (.look n next) nodes s) (seen : s.stream.ahead n = .ok t) :
    Faithful (next (.ofTerminal t)) nodes s := by
  rcases h with ⟨word, flat, hk, hword, hflat⟩
  refine ⟨_, flat, hk (.ofTerminal t), ?_, hflat⟩
  intro hw u hu
  split at hw
  · -- The terminal that is looked at is the next one.
    rename_i hn
    rw [← hn, seen] at hu
    cases hu
    exact eq_of_beq hw
  · exact hword hw u hu

/-- A terminal that is taken moves its text from the stream to the nodes. -/
theorem take {tag : Option Kind} {t : Terminal} (h : Faithful (.take tag next) nodes s)
    (seen : s.stream.ahead 0 = .ok t) :
    charsIn (leaf tag t :: nodes).reverse ++ s.stream.tail.chars =
        charsIn nodes.reverse ++ s.stream.chars ∧
      Faithful next (leaf tag t :: nodes) { s with stream := s.stream.tail } := by
  rcases h with ⟨word, flat, ⟨htag, hnext⟩, hword, hflat⟩
  constructor
  · have hleaf : (leaf tag t).chars = t.token.chars := by
      apply chars_leaf
      rcases htag with htag | ⟨hw, htag⟩
      · exact Or.inl htag
      · exact Or.inr ⟨hword hw t seen, htag⟩
    rw [List.reverse_cons, charsIn_append, charsIn_singleton, hleaf, List.append_assoc,
      ← Stream.chars_of_ahead seen]
  · -- Nothing is known of the next terminal any more, but a terminal is what was collected.
    refine ⟨false, flat, hnext, by simp, ?_⟩
    intro hf n hn
    rcases List.mem_cons.1 hn with rfl | hn
    · rfl
    · exact hflat hf n hn

theorem call {r : Rule} (h : Faithful (.call r next) nodes s) (inner : Node) (s₁ : State) :
    Faithful next (inner :: nodes) s₁ := by
  rcases h with ⟨word, flat, hk, -, -⟩
  exact ⟨false, false, hk, by simp, by simp⟩

theorem goto {r : Rule} (h : Faithful (.goto r) nodes s) : Faithful r.body nodes s := by
  rcases h with ⟨word, flat, hk, -, hflat⟩
  exact ⟨false, r.joins, keeps_body r, by simp, fun hj => hflat (hk hj)⟩

theorem gather {kind : Kind} (h : Faithful (.gather kind next) nodes s) :
    Faithful next [.tree kind nodes.reverse] s := by
  rcases h with ⟨word, flat, hk, hword, -⟩
  exact ⟨word, false, hk, hword, by simp⟩

theorem note {event : Nat → Event} (h : Faithful (.note event next) nodes s) (log : List Event) :
    Faithful next nodes { s with log := log } := h

/-- Joining the gathered nodes to one tree keeps their text. -/
theorem join {kind : Kind} (h : Faithful (.join kind) nodes s) :
    (joined kind nodes.reverse).chars = charsIn nodes.reverse := by
  rcases h with ⟨word, flat, ⟨hkind, hf⟩, -, hflat⟩
  exact chars_joined hkind (by simpa using hflat hf)

end Faithful

/-- A node has the text of the nodes that were there and of the terminals that were taken. -/
theorem Parses.chars_eq {step : Step} {nodes : List Node} {s s' : State} {node : Node}
    (h : Parses step nodes s node s') (hf : Faithful step nodes s) :
    node.chars ++ s'.stream.chars = charsIn nodes.reverse ++ s.stream.chars := by
  -- Each step moves text from the stream to the nodes, or nothing at all.
  induction h with
  | look seen _ ih => exact ih (hf.look seen)
  | take seen _ ih =>
    rcases hf.take seen with ⟨hchars, hnext⟩
    rw [ih hnext, hchars]
  | @call rule next nodes s s₁ s' inner node called rest ihc ih =>
    have hinner := ihc (.body rule s)
    rw [ih (hf.call inner s₁), List.reverse_cons, charsIn_append, charsIn_singleton,
      List.append_assoc, hinner]
    simp
  | goto _ ih => exact ih hf.goto
  | gather _ ih =>
    rw [ih hf.gather]
    simp
  | note _ ih => exact ih (hf.note _)
  | close => simp
  | join => rw [hf.join]

/-- A rule that is called makes a node with the text of the terminals that it takes. -/
theorem Parses.chars_of_call {rule : Rule} {s s' : State} {node : Node}
    (h : Parses rule.body [] s node s') : node.chars ++ s'.stream.chars = s.stream.chars := by
  rw [h.chars_eq (.body rule s)]
  simp

/-! ## Where rules end -/

/-- The kind of the last terminal that a rule takes, for the rules that end at a fixed mark. -/
@[simp] def Rule.mark? : Rule → Option Kind
  | .unitItems => some .endOfInput
  | .usingDirective => some .semicolon
  | .namespaceDecl | .namespaceItems | .passing _ => some .rightBrace
  | .blockComment => some .blockCommentEnd
  | .upToClose what => some what.mark
  | .attributeSection => some .rightBracket
  | .attributeArgs | .argumentItems | .argumentTail .. => some .rightParen
  | .ctorInitializer | .ctorArguments => some .rightParen
  | .classDecl | .classTail _ | .classBlock _ | .classItems _ => some .rightBrace
  | .typeList list | .typeItems list => some list.mark
  | _ => none

/-- The steps of `rule` end behind its mark. `known` is the kind of the next terminal and `last`
that of the terminal taken last, as far as they are known. -/
@[simp] def Marked (rule : Rule) : Step → (known last : Option Kind) → Prop
  | .look n next, known, last =>
    ∀ g, Marked rule (next g) (if n.val = 0 then some g.kind else known) last
  | .take _ next, known, _ => Marked rule next none known
  | .call r next, _, _ => Marked rule next none r.mark?
  | .goto r, _, _ => rule.mark? = none ∨ r.mark? = rule.mark?
  | .gather _ next, known, last => Marked rule next known last
  | .note _ next, known, last => Marked rule next known last
  | .close _, _, last => rule.mark? = none ∨ last = rule.mark?
  | .join _, _, last => rule.mark? = none ∨ last = rule.mark?
  | .fail _, _, _ => True

theorem marked_ite {rule : Rule} {c : Prop} [Decidable c] {a b : Step} {known last : Option Kind} :
    Marked rule (if c then a else b) known last ↔
      (c → Marked rule a known last) ∧ (¬c → Marked rule b known last) := by
  split <;> simp_all

theorem marked_elim {rule : Rule} {α : Type} {o : Option α} {a : Step} {f : α → Step}
    {known last : Option Kind} :
    Marked rule (o.elim a f) known last ↔
      (o = none → Marked rule a known last) ∧ ∀ x, o = some x → Marked rule (f x) known last := by
  cases o <;> simp

/-- Every rule that has a mark ends behind it. -/
theorem marked_body (rule : Rule) (last : Option Kind) : Marked rule rule.body none last := by
  -- The mark of a block comment is that of the verbatim text with which it goes on.
  cases rule with
  | blockComment => exact Or.inr rfl
  | _ => simp [marked_ite, marked_elim]

/-- A parse only moves forward. -/
theorem Parses.exists_passed {step : Step} {nodes : List Node} {s s' : State} {node : Node}
    (h : Parses step nodes s node s') : ∃ n, s.stream.Passed n s'.stream := by
  induction h with
  | look _ _ ih => exact ih
  | take seen _ ih =>
    rcases ih with ⟨n, hn⟩
    exact ⟨1 + n, (Stream.Passed.one seen).trans hn⟩
  | call _ _ ihc ih =>
    rcases ihc with ⟨m, hm⟩
    rcases ih with ⟨n, hn⟩
    exact ⟨m + n, hm.trans hn⟩
  | goto _ ih => exact ih
  | gather _ ih => exact ih
  | note _ ih => exact ih
  | close => exact ⟨0, .zero _⟩
  | join => exact ⟨0, .zero _⟩

/-- The stream `s` goes on behind a terminal of the given kind of the stream `all`. -/
def Behind (all s : Stream) (kind : Kind) : Prop :=
  ∃ i t, all.ahead i = .ok t ∧ t.token.kind = kind ∧ s = all.drop (i + 1)

theorem Behind.of_drop {all s s' : Stream} {kind : Kind} {n : Nat} (hs : s = all.drop n)
    (h : Behind s s' kind) : Behind all s' kind := by
  rcases h with ⟨i, t, ht, hk, rfl⟩
  refine ⟨n + i, t, ?_, hk, ?_⟩
  · rw [← ht, hs, Stream.ahead_drop]
  · rw [hs, Stream.drop_drop, Nat.add_assoc]

/-- A parse of a rule that has a mark ends behind a terminal of that kind. The terminals up to there
are counted from the beginning of the stream `all`. -/
theorem Parses.behind_of_marked {rule : Rule} {all : Stream} {step : Step} {nodes : List Node}
    {s s' : State} {node : Node} (h : Parses step nodes s node s') :
    ∀ {n : Nat} {known last : Option Kind}, s.stream = all.drop n → Marked rule step known last →
      (∀ k, known = some k → ∀ t, s.stream.ahead 0 = .ok t → t.token.kind = k) →
      (∀ k, last = some k → Behind all s.stream k) →
      ∀ {kind : Kind}, rule.mark? = some kind → Behind all s'.stream kind := by
  -- The invariant is what `known` and `last` claim about the stream. A rule that is called has
  -- bounds of its own, so the rule varies in the induction.
  induction h generalizing rule with
  | @look i next nodes s s' t node seen rest ih =>
    intro n known last hs hm hknown hlast kind hkind
    refine ih hs (hm (.ofTerminal t)) ?_ hlast hkind
    -- A look at the next terminal makes its kind known.
    intro k hk u hu
    split at hk
    · rename_i hi
      rw [← hi, seen] at hu
      cases hu
      cases hk
      rfl
    · exact hknown k hk u hu
  | @take tag next nodes s s' t node seen rest ih =>
    intro n known last hs hm hknown hlast kind hkind
    refine ih (n := n + 1) ?_ hm (by simp) ?_ hkind
    · show s.stream.tail = all.drop (n + 1)
      rw [hs, Stream.tail_drop]
    · -- What was known of the next terminal is now known of the last one.
      intro k hk
      refine Behind.of_drop hs ⟨0, t, seen, hknown k hk t seen, ?_⟩
      exact Stream.tail_eq_drop s.stream
  | @call r next nodes s s₁ s' inner node called rest ihc ih =>
    intro n known last hs hm hknown hlast kind hkind
    rcases called.exists_passed with ⟨m, hm₁, -⟩
    refine ih (n := n + m) ?_ hm (by simp) ?_ hkind
    · rw [hm₁, hs, Stream.drop_drop]
    · -- The terminal taken last is the mark of the rule that was called.
      intro k hk
      exact ihc hs (marked_body r none) (by simp) (by simp) hk
  | @goto r nodes s s' node rest ih =>
    intro n known last hs hm hknown hlast kind hkind
    have hr : r.mark? = some kind := by
      rcases hm with hm | hm
      · rw [hkind] at hm
        cases hm
      · rw [hm, hkind]
    exact ih hs (marked_body r none) (by simp) (by simp) hr
  | gather rest ih =>
    intro n known last hs hm hknown hlast kind hkind
    exact ih hs hm hknown hlast hkind
  | note rest ih =>
    intro n known last hs hm hknown hlast kind hkind
    exact ih hs hm hknown hlast hkind
  | close =>
    intro n known last hs hm hknown hlast kind hkind
    rcases hm with hm | hm
    · rw [hkind] at hm
      cases hm
    · exact hlast kind (hm.trans hkind)
  | join =>
    intro n known last hs hm hknown hlast kind hkind
    rcases hm with hm | hm
    · rw [hkind] at hm
      cases hm
    · exact hlast kind (hm.trans hkind)

/-- A rule that has a mark ends behind it. -/
theorem Parses.behind_mark {rule : Rule} {s s' : State} {node : Node} {kind : Kind}
    (h : Parses rule.body [] s node s') (hkind : rule.mark? = some kind) :
    Behind s.stream s'.stream kind :=
  h.behind_of_marked (n := 0) rfl (marked_body rule none) (by simp) (by simp) hkind

end Grammar

/-! ## Whole texts -/

/-- A terminal of a stream that is not the one at the end stands for a stretch of the text, and so
do the terminals in front of it. -/
theorem Stream.yields_of_ahead {p i : Nat} {cs : List Char} {t : Terminal}
    (h : (ofLexer (.fresh p cs)).ahead i = .ok t) (hk : t.token.kind ≠ .endOfInput) :
    ∃ us m r, us.length = i ∧ Yielding p cs us m ∧
      Yields (p + Text.width (Terminal.charsOf us)) m t r := by
  rcases exists_yielding p cs with ⟨ts, r, hts, hend⟩
  by_cases hi : i < ts.length
  · -- The terminal is one of `ts`, which is cut in front of it.
    have ht : t = ts[i] := by
      rw [hts.stream_eq] at h
      simp only [ahead, List.getElem?_append_left hi, List.getElem?_eq_getElem hi] at h
      cases h
      rfl
    have hsplit : ts.take i ++ t :: ts.drop (i + 1) = ts := by
      rw [ht, ← List.drop_eq_getElem_cons hi, List.take_append_drop]
    rw [← hsplit] at hts
    rcases hts.split with ⟨m, hus, hrest⟩
    cases hrest with
    | cons first more => exact ⟨ts.take i, m, _, by simp; omega, hus, first⟩
  · -- Behind the terminals of the text comes only the terminal at the end, or an error.
    exfalso
    rw [hts.stream_eq] at h
    simp only [ahead, List.getElem?_append_right (Nat.le_of_not_lt hi)] at h
    rcases hend with ⟨xs, hxs, hblank⟩ | ⟨f, hf⟩
    · rw [ofLexer_of_blank hxs hblank] at h
      cases hj : i - ts.length with
      | zero =>
        rw [hj] at h
        cases h
        exact hk rfl
      | succ j =>
        rw [hj] at h
        cases h
        exact hk rfl
    · rw [hf] at h
      cases h

/-- The kind of a terminal is that of a lexeme or of the end of the text. -/
theorem Stream.kind_le_of_ahead {p i : Nat} {cs : List Char} {t : Terminal}
    (h : (ofLexer (.fresh p cs)).ahead i = .ok t) :
    t.token.kind.number ≤ Kind.endOfInput.number := by
  by_cases hk : t.token.kind = .endOfInput
  · exact Nat.le_of_eq (congrArg Kind.number hk)
  · rcases yields_of_ahead h hk with ⟨us, m, r, -, -, hy⟩
    exact Nat.le_of_lt hy.kind_lt

/-- Nothing comes behind the terminal at the end of a text, and with it the terminals of the text
are complete. -/
theorem Stream.chars_of_behind_end {p : Nat} {cs : List Char} {s : Stream}
    (h : Grammar.Behind (ofLexer (.fresh p cs)) s .endOfInput) :
    (ofLexer (.fresh p cs)).chars = cs ∧ s.chars = [] := by
  rcases exists_yielding p cs with ⟨ts, r, hts, hend⟩
  rcases h with ⟨i, t, ht, hk, rfl⟩
  have hstream := hts.stream_eq
  -- The kind of the terminal tells that it is none of those that stand for a lexeme.
  have hi : ts.length ≤ i := by
    apply Nat.le_of_not_lt
    intro hlt
    have hget : (ofLexer (.fresh p cs)).terminals[i]? = ts[i]? := by
      rw [hstream]
      exact List.getElem?_append_left hlt
    rw [List.getElem?_eq_getElem hlt] at hget
    have hget' : t = ts[i] := by
      simp only [ahead, hget] at ht
      cases ht
      rfl
    have hnum := hts.kind_lt ts[i] (List.getElem_mem hlt)
    rw [← hget', hk] at hnum
    exact absurd hnum (Nat.lt_irrefl _)
  rcases hend with ⟨xs, hxs, hblank⟩ | ⟨f, hf⟩
  · rw [ofLexer_of_blank hxs hblank] at hstream
    have hpieces := Lexeme.chars_piecesOf hxs.genuine hblank
    have hr := hxs.text_eq
    rw [List.append_nil] at hr
    constructor
    · rw [hstream]
      simp only [chars, Terminal.charsOf_append, Terminal.charsOf_cons, Terminal.charsOf_nil,
        Terminal.finish, Token.chars, Token.ownChars, hpieces]
      rw [hts.text_eq, hr]
      simp
    · rw [hstream]
      simp only [chars, drop]
      rw [List.drop_eq_nil_of_le]
      · rfl
      · simp
        omega
  · -- Behind an error there is no terminal.
    rw [hf] at hstream
    rw [hstream] at ht
    simp only [ahead, List.append_nil, List.getElem?_eq_none hi] at ht
    cases ht

/-- A class is parsed behind the first part of a text from the stream of the second part. -/
theorem parseDeclarationAt_width {text : String} {front rest : List Char}
    (h : text.toList = front ++ rest) :
    parseDeclarationAt text (Text.width front) =
      (Grammar.parse .classDecl rfl
        (Stream.ofLexer (.fresh (Text.width front) rest))).result := by
  simp only [parseDeclarationAt, reportDeclarationAt, Lexer.at?, h, Text.dropBytes?_width_append,
    Option.map_some]
  rfl

/-- What is parsed from a whole text has that text. -/
theorem reconstruct_of_parseUnit {text : String} {tree : Node} (h : parseUnit text = .ok tree) :
    tree.reconstruct = text := by
  rcases Grammar.parse_ok_iff.1 h with ⟨s', hparses⟩
  have hkeep := hparses.chars_of_call
  -- The mark of a unit is the end of the text, so the stream behind it has no text.
  have hend := hparses.behind_mark rfl
  rw [Lexer.new_eq_fresh] at hkeep hend
  rcases Stream.chars_of_behind_end hend with ⟨hall, hnone⟩
  rw [hnone, List.append_nil] at hkeep
  rw [Node.reconstruct, hkeep, hall, String.ofList_toList]

/-- A text with a statement that is passed over, words that become modifiers, a comment and a
constructor mark that are joined, and strings, one of them with a brace. -/
def manyPaths : String :=
  "namespace N \x7b enum E \x7b X \x7d\n sealed class C \x7b // a  b\n" ++
    " [T(\"s\")] void . ctor() \x7b \"\x7d\" \x7d \x7d \x7d\n"

/-- The text with all of these is reconstructed from its tree. -/
theorem reconstruct_manyPaths :
    ∃ tree, parseUnit manyPaths = .ok tree ∧ tree.reconstruct = manyPaths := by
  have hok : (parseUnit manyPaths).isOk = true := by decide +kernel
  obtain ⟨tree, h⟩ := exists_of_isOk hok
  exact ⟨tree, h, reconstruct_of_parseUnit h⟩

end Lossless
