import Lossless.Proofs.RoundTrip

/-!
# What a parse sees in front of a comment

Two slashes hide what stands behind them. A rule looks past a terminal only when it has seen that
this terminal is no pair of slashes, or else it goes on in a way that slashes make fail. `Shy`
states this for the steps of a rule, with `Barred` for the steps that slashes make fail.

* `Parses.same`: a parse comes out the same on every stream with the same tokens;
* `Parses.up_to_slashes`: a parse that ends in front of two slashes comes out the same on every
  stream that has the same tokens up to these slashes.
-/

namespace Lossless

/-! ## Streams with the same tokens -/

namespace Stream

/-- The second stream has the tokens of the first. -/
def Same (s t : Stream) : Prop :=
  ∀ i x, s.ahead i = .ok x → ∃ y, t.ahead i = .ok y ∧ y.token = x.token

theorem Same.drop {s t : Stream} (h : s.Same t) (n : Nat) : (s.drop n).Same (t.drop n) := by
  intro i x hx
  rw [ahead_drop] at hx
  rcases h (n + i) x hx with ⟨y, hy, hxy⟩
  refine ⟨y, ?_, hxy⟩
  rw [ahead_drop]
  exact hy

theorem Same.tail {s t : Stream} (h : s.Same t) : s.tail.Same t.tail := by
  rw [tail_eq_drop, tail_eq_drop]
  exact h.drop 1

/-- Two slashes stand behind the first `n` terminals of a stream, and the second stream has the same
tokens up to these slashes. -/
structure SameToSlashes (n : Nat) (s t : Stream) : Prop where
  slashes : ∃ x, s.ahead n = .ok x ∧ x.token.kind = .doubleSlash
  same : ∀ i ≤ n, ∀ x, s.ahead i = .ok x → ∃ y, t.ahead i = .ok y ∧ y.token = x.token

/-- In front of the slashes terminals can be passed in both streams. -/
theorem SameToSlashes.drop {k n : Nat} {s t : Stream} (h : SameToSlashes (k + n) s t) :
    SameToSlashes n (s.drop k) (t.drop k) := by
  refine ⟨?_, ?_⟩
  · rw [ahead_drop]
    exact h.slashes
  · intro i hi x hx
    rw [ahead_drop] at hx ⊢
    exact h.same (k + i) (by omega) x hx

end Stream

namespace Grammar

theorem glimpse_eq {x y : Terminal} (h : y.token = x.token) :
    Glimpse.ofTerminal y = Glimpse.ofTerminal x := by
  simp only [Glimpse.ofTerminal, h]

theorem leaf_eq {x y : Terminal} (h : y.token = x.token) (tag : Option Kind) :
    leaf tag y = leaf tag x := by
  simp only [leaf, h]

/-- A parse depends on tokens only. -/
theorem Parses.same {step : Step} {nodes : List Node} {s s' : State} {node : Node}
    (h : Parses step nodes s node s') :
    ∀ {t : Stream} (log : List Event), s.stream.Same t →
      ∃ t' log', Parses step nodes ⟨t, log⟩ node ⟨t', log'⟩ ∧ s'.stream.Same t' := by
  -- By induction on the parse: a look and a leaf show a token, and the two streams have the same.
  induction h with
  | look seen rest ih =>
    intro t log hst
    rcases hst _ _ seen with ⟨y, hy, hxy⟩
    rcases ih log hst with ⟨t', log', hp, hst'⟩
    refine ⟨t', log', .look hy ?_, hst'⟩
    rw [glimpse_eq hxy]
    exact hp
  | take seen rest ih =>
    intro t log hst
    rcases hst _ _ seen with ⟨y, hy, hxy⟩
    rcases ih log hst.tail with ⟨t', log', hp, hst'⟩
    refine ⟨t', log', .take hy ?_, hst'⟩
    rw [leaf_eq hxy]
    exact hp
  | call called rest ihc ih =>
    intro t log hst
    rcases ihc log hst with ⟨t₁, log₁, hc, hst₁⟩
    rcases ih log₁ hst₁ with ⟨t', log', hp, hst'⟩
    exact ⟨t', log', .call hc hp, hst'⟩
  | goto rest ih =>
    intro t log hst
    rcases ih log hst with ⟨t', log', hp, hst'⟩
    exact ⟨t', log', .goto hp, hst'⟩
  | gather rest ih =>
    intro t log hst
    rcases ih log hst with ⟨t', log', hp, hst'⟩
    exact ⟨t', log', .gather hp, hst'⟩
  | note rest ih =>
    intro t log hst
    rcases ih _ hst with ⟨t', log', hp, hst'⟩
    exact ⟨t', log', .note hp, hst'⟩
  | close =>
    intro t log hst
    exact ⟨t, log, .close, hst⟩
  | join =>
    intro t log hst
    exact ⟨t, log, .join, hst⟩

/-! ## Slashes hide what is behind them -/

/-- The rules that two slashes make fail, as far as others rely on it. -/
@[simp] def Rule.bars : Rule → Bool
  | .typeRef | .plainType | .qualifiedName => true
  | _ => false

/-- If two slashes come next, the steps come to no end. -/
@[simp] def Barred : Step → Prop
  | .look n next => ∀ g, (n.val = 0 → g.kind = .doubleSlash) → Barred (next g)
  | .call r _ | .goto r => r.bars = true
  | .gather _ next | .note _ next => Barred next
  | .take _ _ | .close _ | .join _ => False
  | .fail _ => True

theorem barred_ite {c : Prop} [Decidable c] {a b : Step} :
    Barred (if c then a else b) ↔ (c → Barred a) ∧ (¬c → Barred b) := by
  split <;> simp_all

/-- The rules that are said to fail do. -/
theorem barred_body {rule : Rule} (h : rule.bars = true) : Barred rule.body := by
  cases rule with
  | typeRef => simp +contextual [Glimpse.is_iff]
  | plainType => simp +contextual
  | qualifiedName => simp +contextual
  | _ => cases h

/-- Barred steps come to no end in front of two slashes. -/
theorem Parses.not_barred {step : Step} {nodes : List Node} {s s' : State} {node : Node}
    (h : Parses step nodes s node s') {x : Terminal} (hx : s.stream.ahead 0 = .ok x)
    (hk : x.token.kind = .doubleSlash) : ¬Barred step := by
  -- By induction on the parse: a barred step neither takes a terminal nor ends a rule.
  induction h with
  | @look n next nodes s s' t node seen rest ih =>
    intro hb
    refine ih hx (hb (.ofTerminal t) ?_)
    -- A look at the next terminal meets the slashes.
    intro hn
    rw [hn, hx] at seen
    cases seen
    exact hk
  | take seen rest ih => exact id
  | call called rest ihc ih =>
    intro hb
    exact ihc hx (barred_body hb)
  | goto rest ih =>
    intro hb
    exact ih hx (barred_body hb)
  | gather rest ih => exact ih hx
  | note rest ih => exact ih hx
  | close => exact id
  | join => exact id

/-- The steps look past no slashes. `known` is the number of terminals ahead that are known to be
none. -/
@[simp] def Shy : Step → (known : Nat) → Prop
  | .look n next, known =>
    n.val ≤ known ∧ ∀ g,
      (g.kind ≠ .doubleSlash → Shy (next g) (if n.val = known then known + 1 else known)) ∧
      (g.kind = .doubleSlash → n.val = 0 ∧ Barred (next g) ∨ Shy (next g) known)
  | .take _ next, known => Shy next (known - 1)
  | .call _ next, _ => Shy next 0
  | .gather _ next, known | .note _ next, known => Shy next known
  | .goto _, _ | .close _, _ | .join _, _ | .fail _, _ => True

theorem shy_ite {c : Prop} [Decidable c] {a b : Step} {known : Nat} :
    Shy (if c then a else b) known ↔ (c → Shy a known) ∧ (¬c → Shy b known) := by
  split <;> simp_all

theorem shy_elim {α : Type} {o : Option α} {a : Step} {f : α → Step} {known : Nat} :
    Shy (o.elim a f) known ↔
      (o = none → Shy a known) ∧ ∀ x, o = some x → Shy (f x) known := by
  cases o <;> simp

/-- Only a word that can start a class lets a rule look past it. -/
theorem shy_ifNestedClass {g : Glimpse} {yes no : Step} (hyes : ∀ known, Shy yes known)
    (hno : ∀ known, Shy no known) : Shy (ifNestedClass g yes no) 1 := by
  refine shy_ite.2 ⟨fun _ => hyes 1, fun _ => shy_ite.2 ⟨fun _ => ?_, fun _ => hno 1⟩⟩
  refine ⟨by decide, fun h => ⟨fun _ => ?_, fun hslash => Or.inr ?_⟩⟩
  · refine shy_ite.2 ⟨fun _ => hyes _, fun _ => shy_ite.2 ⟨fun _ => ?_, fun _ => hno _⟩⟩
    refine ⟨by decide, fun i => ⟨fun _ => ?_, fun _ => Or.inr ?_⟩⟩
    · exact shy_ite.2 ⟨fun _ => hyes _, fun _ => hno _⟩
    · exact shy_ite.2 ⟨fun _ => hyes _, fun _ => hno _⟩
  · refine shy_ite.2 ⟨fun _ => hyes _, fun _ => shy_ite.2 ⟨fun hword => ?_, fun _ => hno _⟩⟩
    have hident := (word?_any_iff.1 hword).1
    rw [hslash] at hident
    cases hident

/-- No rule looks past slashes. -/
theorem shy_body (rule : Rule) : Shy rule.body 0 := by
  cases rule with
  | classItems name =>
    have hcall : ∀ (r : Rule) (known : Nat), Shy (.call r (.goto (.classItems name))) known := by
      simp
    simp only [Rule.body, classItems_eq]
    refine ⟨by decide, fun g => ⟨fun _ => ?_, fun hslash => Or.inr ?_⟩⟩
    · simp [shy_ite, -ifNestedClass, shy_ifNestedClass (hcall _) (hcall _)]
    · simp [hslash]
  | memberModifiers name =>
    -- Here a look past slashes does no harm, since no type begins with them.
    simp only [Rule.body, memberModifiers_eq]
    refine ⟨by decide, fun g => ⟨fun _ => ?_, fun hslash => Or.inl ⟨rfl, ?_⟩⟩⟩
    · simp +contextual [shy_ite, shy_elim]
    · simp [Glimpse.word?, Glimpse.is_iff, hslash, barred_ite]
  | _ => simp +contextual [shy_ite, shy_elim, Glimpse.is_iff]

/-! ## Parses in front of slashes -/

/-- None of the next `n` terminals is a pair of slashes. -/
def NoSlashes (n : Nat) (s : Stream) : Prop :=
  ∀ i < n, ∀ x, s.ahead i = .ok x → x.token.kind ≠ .doubleSlash

theorem NoSlashes.zero (s : Stream) : NoSlashes 0 s := by
  intro i hi
  exact absurd hi (Nat.not_lt_zero i)

theorem NoSlashes.tail {n : Nat} {s : Stream} (h : NoSlashes n s) : NoSlashes (n - 1) s.tail := by
  intro i hi x hx
  rw [Stream.tail_eq_drop, Stream.ahead_drop] at hx
  exact h (1 + i) (by omega) x hx

/-- The slashes behind `k` terminals stand behind all that are known to be none. -/
theorem NoSlashes.le {n k : Nat} {s t : Stream} (h : NoSlashes n s)
    (hst : s.SameToSlashes k t) : n ≤ k := by
  apply Nat.le_of_not_lt
  intro hlt
  rcases hst.slashes with ⟨x, hx, hk⟩
  exact h k hlt x hx hk

/-- A terminal that is looked at is not behind slashes, and what comes next is again shy. -/
theorem Shy.look {n : Fin 3} {next : Glimpse → Step} {known : Nat} {nodes : List Node}
    {s s' : State} {x : Terminal} {node : Node} (h : Shy (.look n next) known)
    (hknown : NoSlashes known s.stream) (seen : s.stream.ahead n = .ok x)
    (rest : Parses (next (.ofTerminal x)) nodes s node s') :
    n.val ≤ known ∧ ∃ known', Shy (next (.ofTerminal x)) known' ∧ NoSlashes known' s.stream := by
  rcases h with ⟨hn, hnext⟩
  refine ⟨hn, ?_⟩
  by_cases hk : x.token.kind = .doubleSlash
  · rcases (hnext (.ofTerminal x)).2 hk with ⟨hzero, hbarred⟩ | hshy
    · rw [hzero] at seen
      exact absurd hbarred (rest.not_barred seen hk)
    · exact ⟨known, hshy, hknown⟩
  · refine ⟨_, (hnext (.ofTerminal x)).1 hk, ?_⟩
    intro i hi y hy
    -- Either the terminal was known before or it is the one that is looked at.
    by_cases hin : i < known
    · exact hknown i hin y hy
    · split at hi
      · rename_i heq
        have hi' : i = n.val := by omega
        rw [hi', seen] at hy
        cases hy
        exact hk
      · exact absurd hi hin

/-- A parse that ends in front of two slashes depends on the tokens up to them only. -/
theorem Parses.up_to_slashes {step : Step} {nodes : List Node} {s s' : State} {node : Node}
    (h : Parses step nodes s node s') :
    ∃ j, s'.stream = s.stream.drop j ∧ ∀ {known : Nat}, Shy step known →
      NoSlashes known s.stream → ∀ {k : Nat} {t : Stream} (log : List Event),
        s.stream.SameToSlashes (j + k) t →
        ∃ log', Parses step nodes ⟨t, log⟩ node ⟨t.drop j, log'⟩ := by
  -- By induction on the parse. Shyness says that no look goes past terminals that are known to be
  -- no slashes, so all that is seen lies in front of the slashes, or is the slashes.
  induction h with
  | @look n next nodes s s' x node seen rest ih =>
    rcases ih with ⟨j, hs', hsim⟩
    refine ⟨j, hs', ?_⟩
    intro known hshy hknown k t log hst
    rcases hshy.look hknown seen rest with ⟨hn, known', hshy', hknown'⟩
    -- The terminal stands no further than the slashes, so the other stream has its token.
    rcases hst.same n (Nat.le_trans hn (hknown.le hst)) x seen with ⟨y, hy, hxy⟩
    rcases hsim hshy' hknown' log hst with ⟨log', hp⟩
    refine ⟨log', .look hy ?_⟩
    rw [glimpse_eq hxy]
    exact hp
  | @take tag next nodes s s' x node seen rest ih =>
    rcases ih with ⟨j, hs', hsim⟩
    refine ⟨1 + j, ?_, ?_⟩
    · rw [hs', Stream.tail_eq_drop, Stream.drop_drop]
    · intro known hshy hknown k t log hst
      rcases hst.same 0 (Nat.zero_le _) x seen with ⟨y, hy, hxy⟩
      rw [Nat.add_assoc] at hst
      have htail := hst.drop
      rw [← Stream.tail_eq_drop, ← Stream.tail_eq_drop] at htail
      rcases hsim hshy hknown.tail log htail with ⟨log', hp⟩
      refine ⟨log', .take hy ?_⟩
      rw [leaf_eq hxy, ← Stream.drop_drop, ← Stream.tail_eq_drop]
      exact hp
  | @call r next nodes s s₁ s' inner node called rest ihc ih =>
    rcases ihc with ⟨i, hs₁, hsim₁⟩
    rcases ih with ⟨j, hs', hsim⟩
    refine ⟨i + j, ?_, ?_⟩
    · rw [hs', hs₁, Stream.drop_drop]
    · intro known hshy hknown k t log hst
      rw [Nat.add_assoc] at hst
      -- The called rule knows nothing of what is ahead, and neither do the steps behind it.
      rcases hsim₁ (shy_body r) (.zero _) log hst with ⟨log₁, hc⟩
      have hdrop := hst.drop
      rw [← hs₁] at hdrop
      rcases hsim hshy (.zero _) log₁ hdrop with ⟨log', hp⟩
      refine ⟨log', .call hc ?_⟩
      rw [← Stream.drop_drop]
      exact hp
  | @goto r nodes s s' node rest ih =>
    rcases ih with ⟨j, hs', hsim⟩
    refine ⟨j, hs', ?_⟩
    intro known hshy hknown k t log hst
    rcases hsim (shy_body r) (.zero _) log hst with ⟨log', hp⟩
    exact ⟨log', .goto hp⟩
  | gather rest ih =>
    rcases ih with ⟨j, hs', hsim⟩
    refine ⟨j, hs', ?_⟩
    intro known hshy hknown k t log hst
    rcases hsim hshy hknown log hst with ⟨log', hp⟩
    exact ⟨log', .gather hp⟩
  | note rest ih =>
    rcases ih with ⟨j, hs', hsim⟩
    refine ⟨j, hs', ?_⟩
    intro known hshy hknown k t log hst
    rcases hsim hshy hknown _ hst with ⟨log', hp⟩
    exact ⟨log', .note hp⟩
  | close =>
    refine ⟨0, rfl, ?_⟩
    intro known hshy hknown k t log hst
    exact ⟨log, .close⟩
  | join =>
    refine ⟨0, rfl, ?_⟩
    intro known hshy hknown k t log hst
    exact ⟨log, .join⟩

end Grammar

end Lossless
