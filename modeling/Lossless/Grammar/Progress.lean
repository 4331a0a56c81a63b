import Lossless.Grammar.Run

/-!
# Every parse ends

Between two visits to the same rule at least one terminal is taken. To see this, rules are ranked:
a rule that calls another before it has taken a terminal has the higher rank. `Guarded` states that
for the steps of one rule, together with how many terminals are known to be there, since only a
terminal that is there is used up by taking it. `run_ne_exhausted` concludes that the depth that
`depthFor` allows is always enough.
-/

namespace Lossless.Grammar

namespace Rule

/-- A rule can call or continue with rules of a lower rank before it has taken a terminal. -/
@[simp] def rank : Rule → Nat
  | .classItems _ => 4
  | .member _ | .parameterItems => 3
  | .memberModifiers _ | .parameter | .typeItems _ | .passing _ => 2
  | .unitItems | .namespaceItems | .argumentTail .. | .classTail _ | .memberTail _ | .ctorName
  | .typeRef | .plainType => 1
  | _ => 0

/-- How many terminals in front of the end of input a rule finds when it begins. -/
@[simp] def needs : Rule → Nat
  | .usingDirective | .namespaceDecl | .lineComment | .commentText | .blockComment
  | .attributeSection | .attributeArgs | .plainName | .inheritance | .classBlock _
  | .fieldInitializer | .methodBody | .ctorInitializer | .parameterDefault | .typeList _ => 1
  | .arrayMark => 2
  | _ => 0

/-- Whether a rule takes a terminal itself before it ends. The others go on with what a rule that
does has begun. -/
@[simp] def takes : Rule → Bool
  | .unitItems | .passing _ | .namespaceItems | .argumentTail .. | .qualifiedTail
  | .classTail _ | .inheritanceTail | .memberTail _ | .memberNameTail | .initializerTail => false
  | _ => true

theorem rank_le (r : Rule) : r.rank ≤ 4 := by
  cases r <;> simp

end Rule

/-- The steps of `rule` keep to its rank, its needs and its promise to take a terminal. `taken` says
that a terminal has been taken already, `known` how many more are known to be there. -/
@[simp] def Guarded (rule : Rule) : Step → (taken : Bool) → (known : Nat) → Prop
  | .look n next, taken, known =>
    (∀ text line, Guarded rule (next ⟨.endOfInput, text, line⟩) taken known) ∧
      ∀ g, g.kind ≠ .endOfInput → Guarded rule (next g) taken (max known (n + 1))
  | .take _ next, taken, known => Guarded rule next (taken || 0 < known) (known - 1)
  | .call r next, taken, known =>
    (taken = true ∨ r.rank < rule.rank) ∧ r.needs ≤ known ∧ r.takes = true ∧
      Guarded rule next true 0
  | .goto r, taken, known =>
    (taken = true ∨ r.rank < rule.rank) ∧ r.needs ≤ known ∧
      (rule.takes = true → taken = true ∨ r.takes = true)
  | .gather _ next, taken, known => Guarded rule next taken known
  | .note _ next, taken, known => Guarded rule next taken known
  | .close _, taken, _ => rule.takes = true → taken = true
  | .join _, taken, _ => rule.takes = true → taken = true
  | .fail _, _, _ => True

/-! ## The rules are guarded -/

/-- A choice is guarded if each branch is, under the condition that leads there. -/
theorem guarded_ite {rule : Rule} {c : Prop} [Decidable c] {a b : Step} {taken : Bool}
    {known : Nat} :
    Guarded rule (if c then a else b) taken known ↔
      (c → Guarded rule a taken known) ∧ (¬c → Guarded rule b taken known) := by
  split <;> simp_all

theorem Glimpse.is_iff {g : Glimpse} {word : String} :
    g.is word = true ↔ g.kind = .ident ∧ g.text = word := by
  simp [Glimpse.is, Glimpse.word?]

theorem values_contains (k : Kind) :
    values.contains k = [.stringLit, .numberLit, .ident].contains k :=
  KindSet.contains_ofList _ k

theorem nameParts_contains (k : Kind) :
    nameParts.contains k = [.ident, .less, .greater].contains k :=
  KindSet.contains_ofList _ k

/-- The rules that items start. -/
theorem item?_mem {g : Glimpse} {r : Rule} (h : item? g = some r) :
    r ∈ [Rule.lineComment, .blockComment, .attributeSection, .usingDirective, .namespaceDecl,
      .classDecl] := by
  unfold item? at h
  repeat' split at h
  all_goals simp_all

/-- The rules that items start take a terminal at once, which is known to be there. -/
theorem item?_rule {g : Glimpse} {r : Rule} (h : item? g = some r) :
    r.rank = 0 ∧ r.needs ≤ 1 ∧ r.takes = true := by
  have hmem := item?_mem h
  simp only [List.mem_cons, List.not_mem_nil, or_false] at hmem
  rcases hmem with rfl | rfl | rfl | rfl | rfl | rfl <;> decide

/-- The end of the text starts no item. -/
theorem item?_end (text : String) (line : Bool) : item? ⟨.endOfInput, text, line⟩ = none := rfl

/-- A loop over items is guarded if it is so at the end of the text and in front of what starts no
item: an item takes a terminal before the loop goes on. -/
theorem guarded_items {loop : Rule} {next : Glimpse → Step} (hrank : 0 < loop.rank)
    (hneeds : loop.needs = 0) (htakes : loop.takes = false)
    (hitem : ∀ g r, item? g = some r → next g = .call r (.goto loop))
    (hend : ∀ text line, Guarded loop (next ⟨.endOfInput, text, line⟩) false 0)
    (hother : ∀ g, g.kind ≠ .endOfInput → item? g = none → Guarded loop (next g) false 1) :
    Guarded loop (.look 0 next) false 0 := by
  refine ⟨hend, fun g hg => ?_⟩
  cases hr : item? g with
  | none => exact hother g hg hr
  | some r =>
    obtain ⟨hlow, hknown, htaken⟩ := item?_rule hr
    rw [hitem g r hr]
    refine ⟨.inr (by omega), hknown, htaken, .inl rfl, Nat.le_of_eq hneeds, fun hloop => ?_⟩
    rw [htakes] at hloop
    cases hloop

theorem guarded_unitItems : Guarded .unitItems unitItems false 0 := by
  refine guarded_items (by decide) rfl rfl (fun g r hr => by simp only [hr]) ?_ ?_
  · intro text line
    simp [item?_end, bump]
  · intro g hg hnone
    simp [hnone, guarded_ite, bump, hg]

/-- What is passed over is taken, and it is known to be there. -/
theorem guarded_passOver {rule : Rule} (depth : Nat) (g : Glimpse) (taken : Bool) (known : Nat) :
    Guarded rule (passOver depth g) taken (known + 1) := by
  simp only [passOver, bump, Guarded]
  split
  all_goals simp [guarded_ite]

theorem guarded_namespaceItems : Guarded .namespaceItems namespaceItems false 0 := by
  refine guarded_items (by decide) rfl rfl (fun g r hr => by simp only [hr]) ?_ ?_
  · intro text line
    simp [item?_end]
  · intro g hg hnone
    simp [hnone, guarded_ite, bump, hg, guarded_passOver _ _ _ 0]

theorem guarded_passing (depth : Nat) : Guarded (.passing depth) (passing depth) false 0 := by
  refine ⟨fun text line => ?_, fun g hg => ?_⟩
  · simp [guarded_ite]
  · simp [guarded_ite, hg, guarded_passOver _ _ _ 0]

/-- A class goes on with itself only behind a modifier that it has taken. -/
theorem guarded_classDecl : Guarded .classDecl classDecl false 0 := by
  refine ⟨fun text line => ?_, fun g hg => ?_⟩
  · simp [Glimpse.word?, Glimpse.is_iff]
  · dsimp only
    split
    · simp
    · simp [guarded_ite, bump]

theorem guarded_ifNestedClass {rule : Rule} {g : Glimpse} {yes no : Step} {taken : Bool}
    (hyes : ∀ known, Guarded rule yes taken known) (hno : ∀ known, Guarded rule no taken known)
    (known : Nat) : Guarded rule (ifNestedClass g yes no) taken known := by
  simp [ifNestedClass, guarded_ite, hyes, hno]

/-- The items of a class call only rules of a lower rank before they take a terminal. -/
theorem guarded_classItems (name : String) :
    Guarded (.classItems name) (classItems name) false 0 := by
  have hclass : ∀ known, Guarded (.classItems name) (.call .classDecl (.goto (.classItems name)))
      false known := by
    simp
  have hmember : ∀ known, Guarded (.classItems name)
      (.call (.member name) (.goto (.classItems name))) false known := by
    simp
  refine ⟨fun text line => ?_, fun g hg => ?_⟩
  · simp
  · dsimp only
    split
    case h_6 => exact guarded_ifNestedClass hclass hmember _
    all_goals simp [bump]

/-- A modifier is taken before the next one is looked for; the type and the name that follow have
lower ranks. -/
theorem guarded_memberModifiers (name : String) :
    Guarded (.memberModifiers name) (memberModifiers name) false 0 := by
  refine ⟨fun text line => ?_, fun g hg => ?_⟩
  · simp [guarded_ite, Glimpse.word?]
  · dsimp only
    split
    · simp
    · simp [guarded_ite]

theorem guarded_member (name : String) : Guarded (.member name) (member name) false 0 := by
  refine ⟨fun text line => ?_, fun g hg => ?_⟩
  · simp [Glimpse.word?]
  · simp [guarded_ite]

theorem guarded_memberTail (isCtor : Bool) :
    Guarded (.memberTail isCtor) (memberTail isCtor) false 0 := by
  refine ⟨fun text line => ?_, fun g hg => ?_⟩
  · simp
  · dsimp only
    split
    all_goals simp [guarded_ite, bump, expect]

theorem guarded_typeItems (list : TypeList) :
    Guarded (.typeItems list) (typeItems list) false 0 := by
  have hmark : Kind.endOfInput ≠ list.mark := by cases list <;> decide
  simp [typeItems, guarded_ite, bump, hmark]

/-- Every rule keeps to its rank, its needs and its promise. -/
theorem guarded_body (rule : Rule) : Guarded rule rule.body false rule.needs := by
  cases rule with
  | unitItems => exact guarded_unitItems
  | namespaceItems => exact guarded_namespaceItems
  | passing depth => exact guarded_passing depth
  | classDecl => exact guarded_classDecl
  | classItems name => exact guarded_classItems name
  | member name => exact guarded_member name
  | memberModifiers name => exact guarded_memberModifiers name
  | memberTail isCtor => exact guarded_memberTail isCtor
  | typeItems list => exact guarded_typeItems list
  | _ =>
    simp [guarded_ite, Glimpse.is_iff, values_contains, nameParts_contains, Rule.body, bump, expect,
      ifAt, usingDirective, namespaceDecl, lineComment, commentText, upToClose, attributeSection,
      argumentItems, argumentTail, argumentValue, qualifiedName, qualifiedTail, typeRef, plainType,
      classTail, inheritance, inheritanceTail, memberName, memberNameTail, ctorMark,
      initializerTail, parameterItems, ctorInitializer, ctorArguments, parameter,
      parameterDefault]

/-! ## Runs of guarded steps -/

/-- The outcome of a run that began with `length` terminals: it is not exhausted, and what is left
is no more than before and, if a terminal was promised to be taken, less. -/
def Ends (takes : Bool) (length : Nat) : Outcome → Prop
  | .done _ s =>
    s.stream.terminals.length ≤ length ∧ (takes = true → s.stream.terminals.length < length)
  | .failed _ _ => True
  | .exhausted => False

/-- What guarded steps leave. The induction is on the steps; a call may use `ih`, since it has
either taken a terminal or gone into a lower rank, and so runs with less depth than allowed here. -/
theorem exec_ends {rule : Rule} {depth entry : Nat}
    (ih : ∀ (r : Rule) (nodes : List Node) (s : State),
      5 * s.stream.terminals.length + r.rank < depth → r.needs ≤ s.stream.terminals.length →
      Ends r.takes s.stream.terminals.length (run depth r nodes s))
    (hdepth : 5 * entry + rule.rank ≤ depth) (step : Step) :
    ∀ (taken : Bool) (known : Nat) (nodes : List Node) (s : State), Guarded rule step taken known →
      known ≤ s.stream.terminals.length → s.stream.terminals.length ≤ entry →
      (taken = true → s.stream.terminals.length < entry) →
      Ends rule.takes entry (exec (run depth) step nodes s) := by
  -- A call is allowed once a terminal has been taken or into a lower rank.
  have enough : ∀ (r : Rule) (taken : Bool) (length : Nat), (taken = true ∨ r.rank < rule.rank) →
      length ≤ entry → (taken = true → length < entry) → 5 * length + r.rank < depth := by
    intro r taken length hcall hle htaken
    have := r.rank_le
    rcases hcall with h | h
    · have := htaken h
      omega
    · omega
  induction step with
  | look n next ihs =>
    intro taken known nodes s hg hknown hle htaken
    simp only [exec, Stream.ahead]
    cases ht : s.stream.terminals[n.val]? with
    | some t =>
      have hn : n.val < s.stream.terminals.length := (List.getElem?_eq_some_iff.1 ht).1
      by_cases hk : (Glimpse.ofTerminal t).kind = .endOfInput
      · have hend : Glimpse.ofTerminal t =
            ⟨.endOfInput, t.token.text, t.token.endsLine⟩ := by
          rw [← hk]
          rfl
        simp only [hend]
        exact ihs _ taken known nodes s (hg.1 _ _) hknown hle htaken
      · exact ihs _ taken _ nodes s (hg.2 _ hk) (by omega) hle htaken
    | none =>
      cases s.stream.ending with
      | finish position => exact ihs _ taken known nodes s (hg.1 _ _) hknown hle htaken
      | fault f => trivial
  | take tag next ihs =>
    intro taken known nodes s hg hknown hle htaken
    simp only [exec]
    split
    · refine ihs _ _ _ _ hg ?_ ?_ ?_ <;> simp only [Stream.tail, List.length_tail]
      · omega
      · omega
      · simp only [Bool.or_eq_true, decide_eq_true_eq]
        rintro (h | h)
        · have := htaken h
          omega
        · omega
    · trivial
  | call r next ihs =>
    intro taken known nodes s hg hknown hle htaken
    obtain ⟨hcall, hneeds, htakes, hnext⟩ := hg
    have hr := ih r [] s (enough r taken _ hcall hle htaken) (Nat.le_trans hneeds hknown)
    simp only [exec]
    split
    · rename_i node s' hs'
      rw [hs'] at hr
      have := hr.2 htakes
      exact ihs _ _ _ _ hnext (Nat.zero_le _) (by omega) (fun _ => by omega)
    · trivial
    · rename_i hs'
      rw [hs'] at hr
      exact hr
  | goto r =>
    intro taken known nodes s hg hknown hle htaken
    obtain ⟨hcall, hneeds, htakes⟩ := hg
    have hr := ih r nodes s (enough r taken _ hcall hle htaken) (Nat.le_trans hneeds hknown)
    simp only [exec]
    cases hs : run depth r nodes s with
    | done node s' =>
      rw [hs] at hr
      refine ⟨Nat.le_trans hr.1 hle, fun h => ?_⟩
      rcases htakes h with h' | h'
      · exact Nat.lt_of_le_of_lt hr.1 (htaken h')
      · exact Nat.lt_of_lt_of_le (hr.2 h') hle
    | failed e log => trivial
    | exhausted =>
      rw [hs] at hr
      exact hr
  | gather kind next ihs =>
    intro taken known nodes s hg hknown hle htaken
    exact ihs _ _ _ s hg hknown hle htaken
  | note event next ihs =>
    intro taken known nodes s hg hknown hle htaken
    exact ihs _ _ _ _ hg hknown hle htaken
  | close kind =>
    intro taken known nodes s hg hknown hle htaken
    exact ⟨hle, fun h => htaken (hg h)⟩
  | join kind =>
    intro taken known nodes s hg hknown hle htaken
    exact ⟨hle, fun h => htaken (hg h)⟩
  | fail cause =>
    intro taken known nodes s hg hknown hle htaken
    simp only [exec]
    split <;> trivial

/-- A rule that finds the terminals it needs ends, given enough depth for them. -/
theorem run_ends (depth : Nat) (rule : Rule) (nodes : List Node) (s : State)
    (hdepth : 5 * s.stream.terminals.length + rule.rank < depth)
    (hneeds : rule.needs ≤ s.stream.terminals.length) :
    Ends rule.takes s.stream.terminals.length (run depth rule nodes s) := by
  induction depth generalizing rule nodes s with
  | zero => omega
  | succ depth ih =>
    exact exec_ends ih (by omega) rule.body false rule.needs nodes s (guarded_body rule) hneeds
      (Nat.le_refl _) (by simp)

/-- The allowed depth is enough for a rule that needs no terminals. -/
theorem run_ne_exhausted {rule : Rule} (hneeds : rule.needs = 0) (nodes : List Node) (s : State) :
    run (depthFor s.stream) rule nodes s ≠ .exhausted := by
  have hrank := rule.rank_le
  have h := run_ends (depthFor s.stream) rule nodes s (by unfold depthFor; omega) (by omega)
  intro he
  rw [he] at h
  exact h

end Lossless.Grammar
