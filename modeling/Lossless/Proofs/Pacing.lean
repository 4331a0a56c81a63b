import Lossless.Proofs.Decisions
import Lossless.Proofs.Tokens

/-!
# Parses go on by reading terminals

A run of the grammar enters rules and reads terminals; `record` runs it and writes both down. What
it does between two terminals that it reads, the end of the text apart, is bounded: rules have a
height, and without such a read each rule that is entered is lower than the one entered before it,
even if rules have ended in the meantime. `Steady` states this for the steps of one rule;
`Rule.ceiling` is what the rules that follow may rely on when a rule has ended.

* `record_snd`: the record is one of the run that a parse makes;
* `Paced`: the heights in a record fall from read to read, and nothing follows a read that finds the
  end of the text or an error;
* `record_accounted`: every record is paced;
* `record_consumed`: what is read in front of the end is taken off the stream.
-/

namespace Lossless

namespace Grammar

/-! ## Heights -/

namespace Rule

/-- Without reading a terminal in between, a run enters only lower and lower rules. -/
@[simp] def height : Rule → Nat
  | .qualifiedTail | .memberNameTail | .initializerTail => 5
  | .inheritanceTail | .classItems _ => 4
  | .typeItems _ | .member _ | .parameterItems => 3
  | .memberModifiers _ | .parameter | .passing _ => 2
  | .unitItems | .namespaceItems | .argumentTail .. | .classTail _ | .memberTail _ | .ctorName
  | .typeRef | .plainType => 1
  | _ => 0

/-- When a rule has ended, rules below this height may be entered. Rules that end with a terminal
that they read allow all. -/
@[simp] def ceiling : Rule → Nat
  | .qualifiedName | .qualifiedTail | .typeRef | .memberName | .memberNameTail | .fieldInitializer
  | .initializerTail => 5
  | .inheritance | .inheritanceTail => 4
  | _ => 6

end Rule

/-- The steps of `rule` keep to the heights. They may enter rules below `bound`, and `known` many
terminals in front of the end are known to be there. Only the end of a unit is read. -/
@[simp] def Steady (rule : Rule) : Step → (bound known : Nat) → Prop
  | .look n next, bound, known =>
    (∀ text line, Steady rule (next ⟨.endOfInput, text, line⟩) bound known) ∧
      ∀ g, g.kind ≠ .endOfInput → Steady rule (next g) bound (max known (n + 1))
  | .take _ next, _, known =>
    (0 < known ∧ Steady rule next 6 (known - 1)) ∨ rule = .unitItems ∧ ∃ kind, next = .close kind
  | .call r next, bound, known =>
    r.height < bound ∧ r.needs ≤ known ∧ r ≠ .unitItems ∧ Steady rule next r.ceiling 0
  | .goto r, bound, known =>
    r.height < bound ∧ r.needs ≤ known ∧ rule.ceiling ≤ r.ceiling ∧
      (r = .unitItems → rule = .unitItems)
  | .gather _ next, bound, known | .note _ next, bound, known => Steady rule next bound known
  | .close _, bound, _ | .join _, bound, _ => rule ≠ .unitItems → rule.ceiling ≤ bound
  | .fail _, _, _ => True

/-- A choice keeps to the heights iff each branch does, under the condition that leads there. -/
theorem steady_ite {rule : Rule} {c : Prop} [Decidable c] {a b : Step} {bound known : Nat} :
    Steady rule (if c then a else b) bound known ↔
      (c → Steady rule a bound known) ∧ (¬c → Steady rule b bound known) := by
  split <;> simp_all

theorem steady_elim {rule : Rule} {α : Type} {o : Option α} {a : Step} {f : α → Step}
    {bound known : Nat} :
    Steady rule (o.elim a f) bound known ↔
      (o = none → Steady rule a bound known) ∧
        ∀ x, o = some x → Steady rule (f x) bound known := by
  cases o <;> simp

/-- A loop over items keeps to the heights if what it does in front of no item does. The rules that
items start are low, and all end with a terminal that they read, so the loop goes on from there. -/
theorem steady_items {loop : Rule} {other : Glimpse → Step} {bound : Nat}
    (hheight : loop.height < 6) (hneeds : loop.needs = 0) (hbound : 0 < bound)
    (hend : ∀ text line, Steady loop (other ⟨.endOfInput, text, line⟩) bound 0)
    (hother : ∀ g, g.kind ≠ .endOfInput → Steady loop (other g) bound 1) :
    Steady loop (.look 0 fun g => (item? g).elim (other g) fun r => .call r (.goto loop))
      bound 0 := by
  constructor
  · intro text line
    exact hend text line
  · intro g hg
    refine steady_elim.2 ⟨fun _ => hother g hg, fun r hr => ?_⟩
    -- The rules of items are the lowest, and each ends with a read, behind which any rule may come.
    have hitem : r.height = 0 ∧ r.needs ≤ 1 ∧ r ≠ .unitItems ∧ r.ceiling = 6 := by
      have hmem := item?_mem hr
      simp only [List.mem_cons, List.not_mem_nil, or_false] at hmem
      rcases hmem with rfl | rfl | rfl | rfl | rfl | rfl <;> simp
    rcases hitem with ⟨hlow, hknown, hunit, hceiling⟩
    refine ⟨by omega, hknown, hunit, ?_, ?_, Nat.le_refl _, id⟩
    · rw [hceiling]
      exact hheight
    · exact Nat.le_of_eq hneeds

/-- Every rule keeps to the heights. -/
theorem steady_body (rule : Rule) : Steady rule rule.body rule.height rule.needs := by
  cases rule with
  | unitItems =>
    rw [Rule.body, unitItems_eq]
    exact steady_items (by simp) rfl (by simp) (by simp) fun g hg => by simp [steady_ite, hg]
  | namespaceItems =>
    rw [Rule.body, namespaceItems_eq]
    exact steady_items (by simp) rfl (by simp) (by simp) fun g hg => by simp [steady_ite, hg]
  | typeItems list =>
    have hmark : Kind.endOfInput ≠ list.mark := by cases list <;> decide
    simp [steady_ite, hmark]
  | member name => simp [steady_ite, word?_any_iff]
  | _ =>
    simp [steady_ite, steady_elim, Glimpse.is_iff, Glimpse.word?, values_contains,
      nameParts_contains]

/-- Whatever is seen, the steps that follow keep to the heights, and what is known of the terminals
ahead is right. -/
theorem Steady.look {rule : Rule} {n : Fin 3} {next : Glimpse → Step} {bound known : Nat}
    {s : Stream} {t : Terminal} (h : Steady rule (.look n next) bound known) (hends : s.EndsOnce)
    (hknown : s.Holds known) (ht : s.ahead n = .ok t) :
    ∃ known', Steady rule (next (.ofTerminal t)) bound known' ∧ s.Holds known' := by
  by_cases hk : t.token.kind = .endOfInput
  · have hnext := h.1 t.token.text t.token.endsLine
    rw [← hk] at hnext
    exact ⟨known, hnext, hknown⟩
  · exact ⟨_, h.2 (.ofTerminal t) hk, hknown.max (hends.holds ht hk)⟩

/-! ## Records -/

/-- What a run does: it enters a rule, or it reads a terminal for one. -/
inductive Action where
  | enter (rule : Rule)
  | read (rule : Rule) (found : Except Fault Terminal)

namespace Action

/-- The rule that is entered or read for. -/
def rule : Action → Rule
  | .enter rule | .read rule _ => rule

def isRead : Action → Bool
  | .enter _ => false
  | .read _ _ => true

/-- Whether a terminal in front of the end of the text is read. -/
def consumes : Action → Bool
  | .read _ (.ok t) => t.token.kind != .endOfInput
  | _ => false

end Action

/-- Runs a step of `rule` as `exec` does and records it; `record` runs the rules that it calls. -/
def execRecord (record : Rule → List Node → State → List Action × Outcome) (rule : Rule) :
    Step → List Node → State → List Action × Outcome
  | .look n next, nodes, s =>
    match s.stream.ahead n with
    | .ok t => execRecord record rule (next (.ofTerminal t)) nodes s
    | .error f => ([], .failed (.lexical f) s.log)
  | .take tag next, nodes, s =>
    match s.stream.ahead 0 with
    | .ok t =>
      let rest := execRecord record rule next (leaf tag t :: nodes)
        { s with stream := s.stream.tail }
      (.read rule (.ok t) :: rest.1, rest.2)
    | .error f => ([.read rule (.error f)], .failed (.lexical f) s.log)
  | .call r next, nodes, s =>
    match record r [] s with
    | (called, .done node s') =>
      let rest := execRecord record rule next (node :: nodes) s'
      (called ++ rest.1, rest.2)
    | (called, .failed e log) => (called, .failed e log)
    | (called, .exhausted) => (called, .exhausted)
  | .goto r, nodes, s => record r nodes s
  | .gather kind next, nodes, s => execRecord record rule next [.tree kind nodes.reverse] s
  | .note event next, nodes, s =>
    execRecord record rule next nodes { s with log := event nodes.length :: s.log }
  | .close kind, nodes, s => ([], .done (.tree kind nodes.reverse) s)
  | .join kind, nodes, s => ([], .done (joined kind nodes.reverse) s)
  | .fail cause, _, s =>
    match s.stream.ahead 0 with
    | .ok t => ([], .failed (.grammar cause t.span) s.log)
    | .error f => ([], .failed (.lexical f) s.log)

/-- Runs a rule as `run` does and records what is done. -/
def record : Nat → Rule → List Node → State → List Action × Outcome
  | 0, _, _, _ => ([], .exhausted)
  | depth + 1, rule, nodes, s =>
    let body := execRecord (record depth) rule rule.body nodes s
    (.enter rule :: body.1, body.2)

/-- To record the steps of a run changes nothing in it. The induction is on the steps. -/
theorem execRecord_snd {depth : Nat} (rule : Rule)
    (ih : ∀ r nodes s, (record depth r nodes s).2 = run depth r nodes s) (step : Step) :
    ∀ nodes s, (execRecord (record depth) rule step nodes s).2 = exec (run depth) step nodes s := by
  induction step with
  | look n next ihs =>
    intro nodes s
    simp only [execRecord, exec]
    cases s.stream.ahead n with
    | ok t => exact ihs _ nodes s
    | error f => rfl
  | take tag next ihs =>
    intro nodes s
    simp only [execRecord, exec]
    cases s.stream.ahead 0 with
    | ok t => exact ihs _ _
    | error f => rfl
  -- A call is the only step at which two records are put together; the outcome is that of the run.
  | call r next ihs =>
    intro nodes s
    simp only [execRecord, exec, ← ih]
    rcases record depth r [] s with ⟨called, outcome⟩
    cases outcome with
    | done node s' => exact ihs _ _
    | failed e log => rfl
    | exhausted => rfl
  | goto r =>
    intro nodes s
    exact ih r nodes s
  | gather kind next ihs =>
    intro nodes s
    exact ihs _ _
  | note event next ihs =>
    intro nodes s
    exact ihs _ _
  | close kind =>
    intro nodes s
    rfl
  | join kind =>
    intro nodes s
    rfl
  | fail cause =>
    intro nodes s
    simp only [execRecord, exec]
    cases s.stream.ahead 0 <;> rfl

/-- The outcome of a recorded run is that of the run. -/
theorem record_snd (depth : Nat) (rule : Rule) (nodes : List Node) (s : State) :
    (record depth rule nodes s).2 = run depth rule nodes s := by
  induction depth generalizing rule nodes s with
  | zero => rfl
  | succ depth ih => exact execRecord_snd rule ih rule.body nodes s

/-! ## Paced records -/

/-- Below what height rules may be entered behind an action. -/
def Action.bound : Nat → Action → Nat
  | _, .enter rule => rule.height
  | _, .read _ _ => 6

/-- From one terminal that is read to the next, only lower and lower rules are entered, at first
below `bound`. Nothing follows a read that finds no terminal in front of the end, and only a unit
reads the end. -/
def Paced : (bound : Nat) → List Action → Prop
  | _, [] => True
  | bound, .enter rule :: rest => rule.height < bound ∧ Paced rule.height rest
  | _, .read rule found :: rest =>
    if (Action.read rule found).consumes then Paced 6 rest
    else rest = [] ∧ ∀ t, found = .ok t → rule = .unitItems

/-- All terminals that are read are in front of the end of the text. -/
def Open (actions : List Action) : Prop := ∀ a ∈ actions, a.isRead = true → a.consumes = true

/-- What is paced below a bound is paced below a higher one. -/
theorem Paced.mono {b c : Nat} {as : List Action} (h : Paced b as) (hle : b ≤ c) : Paced c as := by
  cases as with
  | nil => trivial
  | cons a as =>
    cases a with
    | enter r => exact ⟨Nat.lt_of_lt_of_le h.1 hle, h.2⟩
    | read r found => exact h

/-- A higher bound stays a higher bound. -/
theorem bound_mono {b c : Nat} (as : List Action) (hle : b ≤ c) :
    as.foldl Action.bound b ≤ as.foldl Action.bound c := by
  cases as with
  | nil => exact hle
  | cons a as => cases a <;> exact Nat.le_refl _

/-- Paced records can be put one after the other if no read in the first one has found the end, and
the second starts below the height at which the first one stops. -/
theorem Paced.append {b : Nat} {as bs : List Action} (hopen : Open as) (ha : Paced b as)
    (hb : Paced (as.foldl Action.bound b) bs) : Paced b (as ++ bs) := by
  induction as generalizing b with
  | nil => exact hb
  | cons a as ih =>
    rcases List.forall_mem_cons.1 hopen with ⟨hread, hrest⟩
    cases a with
    | enter r => exact ⟨ha.1, ih hrest ha.2 hb⟩
    | read r found =>
      have hconsumes := hread rfl
      rw [List.cons_append, Paced, if_pos hconsumes]
      rw [Paced, if_pos hconsumes] at ha
      exact ih hrest ha hb

/-- What comes behind some actions is paced as well. -/
theorem Paced.behind {b : Nat} {as bs : List Action} (h : Paced b (as ++ bs)) (hne : bs ≠ []) :
    ∃ c, Paced c bs := by
  induction as generalizing b with
  | nil => exact ⟨b, h⟩
  | cons a as ih =>
    cases a with
    | enter r => exact ih h.2
    | read r found =>
      rw [List.cons_append, Paced] at h
      split at h
      · exact ih h
      · exact absurd (List.append_eq_nil_iff.1 h.1).2 hne

/-- Without a terminal in between that is read, a rule that is entered is below the bound. -/
theorem Paced.lower {b : Nat} {between after : List Action} {r : Rule}
    (h : Paced b (between ++ .enter r :: after)) (hnone : ∀ a ∈ between, a.consumes = false) :
    r.height < b := by
  induction between generalizing b with
  | nil => exact h.1
  | cons a as ih =>
    rcases List.forall_mem_cons.1 hnone with ⟨ha, hrest⟩
    cases a with
    | enter q => exact Nat.lt_trans (ih h.2 hrest) h.1
    | read q found =>
      rw [List.cons_append, Paced, if_neg (by simp [ha])] at h
      exact absurd h.1 (by simp)

/-! ## Runs are paced -/

/-- What is known of the record of some steps of `rule`: it is paced, and if the steps have come to
an end, the rules that follow may rely on the ceiling of the rule. -/
structure Accounted (rule : Rule) (bound : Nat) (recorded : List Action × Outcome) : Prop where
  paced : Paced bound recorded.1
  rules : rule ≠ .unitItems → ∀ a ∈ recorded.1, a.rule ≠ .unitItems
  ended : ∀ node s', recorded.2 = .done node s' →
    s'.stream.EndsOnce ∧ (rule ≠ .unitItems →
      Open recorded.1 ∧ rule.ceiling ≤ recorded.1.foldl Action.bound bound)

/-- Where nothing is done, the bound stays. -/
theorem Accounted.nothing {rule : Rule} {bound : Nat} {outcome : Outcome}
    (h : ∀ node s', outcome = .done node s' →
      s'.stream.EndsOnce ∧ (rule ≠ .unitItems → rule.ceiling ≤ bound)) :
    Accounted rule bound ([], outcome) := by
  refine ⟨trivial, fun _ a ha => absurd ha List.not_mem_nil, ?_⟩
  intro node s' hdone
  rcases h node s' hdone with ⟨hends, hceiling⟩
  exact ⟨hends, fun hrule => ⟨fun a ha => absurd ha List.not_mem_nil, hceiling hrule⟩⟩

/-- The record of steady steps is accounted for. The induction is on the steps; what is known of the
terminals ahead tells which reads find one in front of the end. -/
theorem execRecord_accounted {rule : Rule} {depth : Nat}
    (ih : ∀ (r : Rule) (nodes : List Node) (s : State) (bound : Nat), r.height < bound →
      s.stream.EndsOnce → s.stream.Holds r.needs → Accounted r bound (record depth r nodes s))
    (step : Step) :
    ∀ (bound known : Nat) (nodes : List Node) (s : State), Steady rule step bound known →
      s.stream.EndsOnce → s.stream.Holds known →
      Accounted rule bound (execRecord (record depth) rule step nodes s) := by
  induction step with
  | look n next ihs =>
    intro bound known nodes s hsteady hends hknown
    simp only [execRecord]
    cases ht : s.stream.ahead n with
    | error f => exact .nothing nofun
    | ok t =>
      rcases hsteady.look hends hknown ht with ⟨known', hnext, hknown'⟩
      exact ihs _ bound known' nodes s hnext hends hknown'
  | take tag next ihs =>
    intro bound known nodes s hsteady hends hknown
    simp only [execRecord]
    rcases hsteady with ⟨hpos, hnext⟩ | ⟨hunit, kind, hnext⟩
    · rcases hknown 0 hpos with ⟨t, ht, hk⟩
      rw [ht]
      have hconsumes : (Action.read rule (.ok t)).consumes = true := bne_iff_ne.2 hk
      have hrest := ihs 6 (known - 1) (leaf tag t :: nodes) { s with stream := s.stream.tail } hnext
        hends.tail hknown.tail
      refine ⟨?_, ?_, ?_⟩
      · rw [Paced, if_pos hconsumes]
        exact hrest.paced
      · intro hrule
        exact List.forall_mem_cons.2 ⟨hrule, hrest.rules hrule⟩
      · intro node s' hdone
        rcases hrest.ended node s' hdone with ⟨hends', hceiling⟩
        refine ⟨hends', fun hrule => ⟨?_, (hceiling hrule).2⟩⟩
        exact List.forall_mem_cons.2 ⟨fun _ => hconsumes, (hceiling hrule).1⟩
    · -- The end of a unit is read, and the unit is complete.
      have hrule : ¬rule ≠ .unitItems := not_not_intro hunit
      rw [hnext]
      cases ht : s.stream.ahead 0 with
      | error f =>
        refine ⟨?_, fun h => absurd h hrule, nofun⟩
        exact ⟨rfl, fun t ht => absurd ht nofun⟩
      | ok t =>
        refine ⟨?_, fun h => absurd h hrule, ?_⟩
        · rw [Paced]
          split
          · trivial
          · exact ⟨rfl, fun _ _ => hunit⟩
        · intro node s' hdone
          cases hdone
          exact ⟨hends.tail, fun h => absurd h hrule⟩
  | call r next ihs =>
    intro bound known nodes s hsteady hends hknown
    rcases hsteady with ⟨hheight, hneeds, hunit, hnext⟩
    have hcalled := ih r [] s bound hheight hends (hknown.le hneeds)
    simp only [execRecord]
    generalize record depth r [] s = recorded at hcalled
    rcases recorded with ⟨called, outcome⟩
    cases outcome with
    | failed e log => exact ⟨hcalled.paced, fun _ => hcalled.rules hunit, nofun⟩
    | exhausted => exact ⟨hcalled.paced, fun _ => hcalled.rules hunit, nofun⟩
    | done node s₁ =>
      rcases hcalled.ended node s₁ rfl with ⟨hends₁, hceiling⟩
      rcases hceiling hunit with ⟨hopen, hle⟩
      have hrest := ihs r.ceiling 0 (node :: nodes) s₁ hnext hends₁ (Stream.holds_zero _)
      refine ⟨.append hopen hcalled.paced (hrest.paced.mono hle), ?_, ?_⟩
      · intro hrule
        exact List.forall_mem_append.2 ⟨hcalled.rules hunit, hrest.rules hrule⟩
      · intro node' s' hdone
        rcases hrest.ended node' s' hdone with ⟨hends', hceiling'⟩
        refine ⟨hends', fun hrule => ⟨?_, ?_⟩⟩
        · exact List.forall_mem_append.2 ⟨hopen, (hceiling' hrule).1⟩
        · rw [List.foldl_append]
          exact Nat.le_trans (hceiling' hrule).2 (bound_mono _ hle)
  | goto r =>
    intro bound known nodes s hsteady hends hknown
    rcases hsteady with ⟨hheight, hneeds, hceiling, hunit⟩
    have hcalled := ih r nodes s bound hheight hends (hknown.le hneeds)
    refine ⟨hcalled.paced, fun hrule => hcalled.rules (mt hunit hrule), ?_⟩
    intro node s' hdone
    rcases hcalled.ended node s' hdone with ⟨hends', hrest⟩
    refine ⟨hends', fun hrule => ?_⟩
    rcases hrest (mt hunit hrule) with ⟨hopen, hle⟩
    exact ⟨hopen, Nat.le_trans hceiling hle⟩
  | gather kind next ihs =>
    intro bound known nodes s hsteady hends hknown
    exact ihs bound known _ s hsteady hends hknown
  | note event next ihs =>
    intro bound known nodes s hsteady hends hknown
    exact ihs bound known nodes _ hsteady hends hknown
  | close kind =>
    intro bound known nodes s hsteady hends hknown
    refine .nothing ?_
    intro node s' hdone
    cases hdone
    exact ⟨hends, hsteady⟩
  | join kind =>
    intro bound known nodes s hsteady hends hknown
    refine .nothing ?_
    intro node s' hdone
    cases hdone
    exact ⟨hends, hsteady⟩
  | fail cause =>
    intro bound known nodes s hsteady hends hknown
    simp only [execRecord]
    cases s.stream.ahead 0 with
    | ok t => exact .nothing nofun
    | error f => exact .nothing nofun

/-- Every record is paced. -/
theorem record_accounted (depth : Nat) (rule : Rule) (nodes : List Node) (s : State) (bound : Nat)
    (hheight : rule.height < bound) (hends : s.stream.EndsOnce)
    (hneeds : s.stream.Holds rule.needs) :
    Accounted rule bound (record depth rule nodes s) := by
  induction depth generalizing rule nodes s bound with
  | zero => exact .nothing nofun
  | succ depth ih =>
    have hbody := execRecord_accounted (fun r nodes s bound hh he hn => ih r nodes s bound hh he hn)
      rule.body rule.height rule.needs nodes s (steady_body rule) hends hneeds
    refine ⟨⟨hheight, hbody.paced⟩, ?_, ?_⟩
    · intro hrule
      exact List.forall_mem_cons.2 ⟨hrule, hbody.rules hrule⟩
    · intro node s' hdone
      rcases hbody.ended node s' hdone with ⟨hends', hceiling⟩
      refine ⟨hends', fun hrule => ⟨?_, (hceiling hrule).2⟩⟩
      exact List.forall_mem_cons.2 ⟨nofun, (hceiling hrule).1⟩

/-! ## Counting reads -/

/-- How many terminals an outcome leaves in front of the end. -/
def Outcome.left : Outcome → Nat
  | .done _ s => s.stream.left
  | .failed _ _ | .exhausted => 0

/-- Each terminal that is read in front of the end is one less that is left. The induction is on the
steps. -/
theorem execRecord_consumed (rule : Rule) {depth : Nat}
    (ih : ∀ (r : Rule) (nodes : List Node) (s : State),
      (record depth r nodes s).1.countP Action.consumes + (record depth r nodes s).2.left ≤
        s.stream.left) (step : Step) :
    ∀ (nodes : List Node) (s : State),
      (execRecord (record depth) rule step nodes s).1.countP Action.consumes +
        (execRecord (record depth) rule step nodes s).2.left ≤ s.stream.left := by
  induction step with
  | look n next ihs =>
    intro nodes s
    simp only [execRecord]
    cases s.stream.ahead n with
    | error f => exact Nat.zero_le _
    | ok t => exact ihs _ nodes s
  | take tag next ihs =>
    intro nodes s
    simp only [execRecord]
    cases ht : s.stream.ahead 0 with
    | error f => exact Nat.zero_le _
    | ok t =>
      have hrest := ihs (leaf tag t :: nodes) { s with stream := s.stream.tail }
      -- The end may be taken too, but it does not count and takes nothing from what is left.
      by_cases hk : t.token.kind = .endOfInput
      · have hle := s.stream.left_tail_le
        rw [List.countP_cons_of_neg (by simp [Action.consumes, hk])]
        exact Nat.le_trans hrest hle
      · have hleft := Stream.left_tail ht hk
        rw [List.countP_cons_of_pos (by simp [Action.consumes, hk])]
        dsimp only at hrest ⊢
        omega
  | call r next ihs =>
    intro nodes s
    have hcalled := ih r [] s
    simp only [execRecord]
    generalize record depth r [] s = recorded at hcalled
    rcases recorded with ⟨called, outcome⟩
    cases outcome with
    | failed e log => exact hcalled
    | exhausted => exact hcalled
    | done node s₁ =>
      have hrest := ihs (node :: nodes) s₁
      -- The called rule and the steps behind it share what was left at the call.
      have hfirst : called.countP Action.consumes + s₁.stream.left ≤ s.stream.left := hcalled
      dsimp only
      rw [List.countP_append]
      omega
  | goto r =>
    intro nodes s
    exact ih r nodes s
  | gather kind next ihs =>
    intro nodes s
    exact ihs _ s
  | note event next ihs =>
    intro nodes s
    exact ihs nodes { s with log := event nodes.length :: s.log }
  | close kind =>
    intro nodes s
    exact Nat.le_of_eq (Nat.zero_add _)
  | join kind =>
    intro nodes s
    exact Nat.le_of_eq (Nat.zero_add _)
  | fail cause =>
    intro nodes s
    simp only [execRecord]
    cases s.stream.ahead 0 with
    | ok t => exact Nat.zero_le _
    | error f => exact Nat.zero_le _

/-- What a run reads in front of the end is taken off the stream. -/
theorem record_consumed (depth : Nat) (rule : Rule) (nodes : List Node) (s : State) :
    (record depth rule nodes s).1.countP Action.consumes + (record depth rule nodes s).2.left ≤
      s.stream.left := by
  induction depth generalizing rule nodes s with
  | zero => exact Nat.zero_le _
  | succ depth ih =>
    have hbody := execRecord_consumed rule ih rule.body nodes s
    rw [record, List.countP_cons_of_neg (by simp [Action.consumes])]
    exact hbody

/-- At most one read, the last action, finds no terminal in front of the end. -/
theorem Paced.reads_le {b : Nat} {as : List Action} (h : Paced b as) :
    as.countP Action.isRead ≤ as.countP Action.consumes + 1 := by
  induction as generalizing b with
  | nil => exact Nat.zero_le _
  | cons a as ih =>
    cases a with
    | enter r =>
      rw [List.countP_cons_of_neg (by simp [Action.isRead]),
        List.countP_cons_of_neg (by simp [Action.consumes])]
      exact ih h.2
    | read r found =>
      rw [List.countP_cons_of_pos (by simp [Action.isRead])]
      rw [Paced] at h
      split at h
      · rename_i hconsumes
        rw [List.countP_cons_of_pos hconsumes]
        exact Nat.succ_le_succ (ih h)
      · rw [h.1, List.countP_nil]
        exact Nat.le_add_left 1 _

/-! ## Parses of texts -/

/-- What is reported of an outcome. -/
def Outcome.report? : Outcome → Option Report
  | .done node s => some ⟨s.log.reverse, .ok node⟩
  | .failed e log => some ⟨log.reverse, .error e.error⟩
  | .exhausted => none

/-- The record of the parse that begins with a rule, of all that a lexer has in front of it. -/
def recordOf (rule : Rule) (l : Lexer) : List Action × Outcome :=
  record (depthFor (Stream.ofLexer l)) rule [] ⟨Stream.ofLexer l, []⟩

/-- The recorded run ends, and what it reports is what the parse reports. -/
theorem report?_recordOf (rule : Rule) (entry : rule.needs = 0) (l : Lexer) :
    (recordOf rule l).2.report? = some (parse rule entry (Stream.ofLexer l)) := by
  rw [recordOf, record_snd]
  cases h : run (depthFor (Stream.ofLexer l)) rule [] ⟨Stream.ofLexer l, []⟩ with
  | done node s =>
    rw [parse_of_done h]
    rfl
  | failed e log =>
    rw [parse_of_failed h]
    rfl
  | exhausted => exact absurd h (run_ne_exhausted entry [] ⟨Stream.ofLexer l, []⟩)

/-- A rule without the names and numbers that it is entered with. -/
def Rule.head : Rule → Rule
  | .passing _ => .passing 0
  | .upToClose _ => .upToClose .blockComment
  | .argumentTail _ _ => .argumentTail false false
  | .classTail _ => .classTail ""
  | .classBlock _ => .classBlock ""
  | .classItems _ => .classItems ""
  | .member _ => .member ""
  | .memberModifiers _ => .memberModifiers ""
  | .memberTail _ => .memberTail false
  | .typeList _ => .typeList .tuple
  | .typeItems _ => .typeItems .tuple
  | r => r

/-- To enter the second rule is another round of the loop, or another call of the rule, that was
entered with the first. Of the loops over a statement that is passed over and over the parts of a
member name, the first round is made by the rule in front. -/
inductive Rule.Again : Rule → Rule → Prop where
  | same {r r' : Rule} (h : r'.head = r.head) : Again r r'
  | passing (depth : Nat) : Again .namespaceItems (.passing depth)
  | memberName : Again .memberName .memberNameTail

theorem Rule.height_head (r : Rule) : r.head.height = r.height := by
  cases r <;> rfl

/-- A rule that goes on as another is at most as high. -/
theorem Rule.Again.height_le {r r' : Rule} (h : r.Again r') : r.height ≤ r'.height := by
  cases h with
  | same h =>
    have heq : r.height = r'.height := by rw [← height_head r, ← height_head r', h]
    exact Nat.le_of_eq heq
  | passing depth => simp
  | memberName => simp

/-- A record goes on by reading, from a text with this many tokens. -/
structure Progresses (actions : List Action) (tokens : Nat) : Prop where
  /-- From one round of a loop or call of a rule to the next, a terminal in front of the end of the
  text is read. -/
  separated : ∀ before r between r' after,
    actions = before ++ .enter r :: (between ++ .enter r' :: after) → r.Again r' →
      ∃ a ∈ between, a.consumes = true
  /-- A read that finds the end of the text, or an error, is the last action of all. -/
  last : ∀ before a after, actions = before ++ a :: after → a.isRead = true →
    a.consumes = false → after = []
  /-- Only the rule for units reads the end of the text. -/
  ends : ∀ rule t, .read rule (.ok t) ∈ actions → t.token.kind = .endOfInput → rule = .unitItems
  /-- There is at most one read more than there are tokens. -/
  reads : actions.countP Action.isRead ≤ tokens + 1

/-- Between two reads in a paced record the heights fall, so there are at most six entries, and no
rule is entered twice. -/
theorem Paced.progresses {bound tokens : Nat} {actions : List Action} (h : Paced bound actions)
    (hcount : actions.countP Action.consumes ≤ tokens) : Progresses actions tokens where
  separated := by
    intro before r between r' after hsplit hagain
    rw [hsplit] at h
    -- The entries of one stretch fall in height, and the same rule is not lower than itself.
    rcases h.behind (by simp) with ⟨c, hc⟩
    by_cases hnone : ∀ a ∈ between, a.consumes = false
    · exact absurd (hc.2.lower hnone) (Nat.not_lt.2 hagain.height_le)
    · simpa using hnone
  last := by
    intro before a after hsplit hread hconsumes
    rw [hsplit] at h
    rcases h.behind (by simp) with ⟨c, hc⟩
    cases a with
    | enter r => cases hread
    | read r found =>
      rw [Paced, if_neg (by simp [hconsumes])] at hc
      exact hc.1
  ends := by
    intro rule t hmem hk
    rcases List.append_of_mem hmem with ⟨before, after, hsplit⟩
    rw [hsplit] at h
    rcases h.behind (by simp) with ⟨c, hc⟩
    rw [Paced, if_neg (by simp [Action.consumes, hk])] at hc
    exact hc.2 t rfl
  reads := Nat.le_trans h.reads_le (Nat.succ_le_succ hcount)

/-- The record of a parse goes on by reading. -/
theorem recordOf_progresses (rule : Rule) (entry : rule.needs = 0) (l : Lexer) :
    Progresses (recordOf rule l).1 l.allTokens.length ∧
      (rule ≠ .unitItems → ∀ a ∈ (recordOf rule l).1, a.rule ≠ .unitItems) := by
  have hneeds : (Stream.ofLexer l).Holds rule.needs := by
    rw [entry]
    exact Stream.holds_zero _
  have haccounted := record_accounted (depthFor (Stream.ofLexer l)) rule [] ⟨Stream.ofLexer l, []⟩
    (rule.height + 1) (Nat.lt_succ_self _) (Stream.ofLexer_endsOnce l) hneeds
  have hconsumed := record_consumed (depthFor (Stream.ofLexer l)) rule [] ⟨Stream.ofLexer l, []⟩
  have hleft := Stream.left_ofLexer l
  refine ⟨haccounted.paced.progresses ?_, haccounted.rules⟩
  exact Nat.le_trans (Nat.le_of_add_right_le hconsumed) hleft

end Grammar

open Grammar

/-- Every parse ends by reading on. Of a whole text and of a class at an offset, from one round of a
loop or call of a rule to the next a terminal in front of the end of the text is read; the end is
read at most once and only for a unit; and then the parse ends with what it reports, after at most
one read more than there are tokens. These are the tokens from the offset on, which are tokens of
the text if one of its lexemes starts at the offset. -/
theorem parse_progresses (text : String) :
    (Progresses (recordOf .unitItems (Lexer.new text.toList)).1
        (Lexer.new text.toList).allTokens.length ∧
      (recordOf .unitItems (Lexer.new text.toList)).2.report? = some (reportUnit text)) ∧
    ∀ offset l, Lexer.at? text.toList offset = some l →
      Progresses (recordOf .classDecl l).1 l.allTokens.length ∧
        (∀ a ∈ (recordOf .classDecl l).1, a.rule ≠ .unitItems) ∧
        ((recordOf .classDecl l).2.report?.map fun report =>
          { report with events := .declaration offset :: report.events }) =
            some (reportDeclarationAt text offset) ∧
        ∀ n, l = (Lexer.new text.toList).skip n →
          l.allTokens.length ≤ (Lexer.new text.toList).allTokens.length := by
  -- The same holds of both entry rules; a class takes no rule of units, so it never takes the end.
  constructor
  · exact ⟨(recordOf_progresses .unitItems rfl _).1, report?_recordOf .unitItems rfl _⟩
  · intro offset l hl
    rcases recordOf_progresses .classDecl rfl l with ⟨hprogresses, hrules⟩
    refine ⟨hprogresses, hrules (by simp), ?_, ?_⟩
    · rw [report?_recordOf .classDecl rfl l, reportDeclarationAt, hl]
      rfl
    · rintro n rfl
      exact Lexer.length_allTokens_skip _ n

/-- Namespaces and types inside each other, and a statement that is passed over. -/
def nestedText : String :=
  "namespace A \x7b namespace B \x7b x \x7b ; \x7d " ++
    "class C : (D, E<F>) \x7b int f = 1; \x7d \x7d \x7d"

/-- Five types are entered, all tokens of the text and its end are read, and of the class all up to
its closing brace. -/
theorem nestedText_progresses :
    (((recordOf .unitItems (Lexer.new nestedText.toList)).1.filterMap fun a =>
          if a.isRead then none else some a.rule).count .typeRef = 5 ∧
        (recordOf .unitItems (Lexer.new nestedText.toList)).1.countP Action.isRead =
          (Lexer.new nestedText.toList).allTokens.length + 1 ∧
        Progresses (recordOf .unitItems (Lexer.new nestedText.toList)).1
          (Lexer.new nestedText.toList).allTokens.length) ∧
      ∃ l, Lexer.at? nestedText.toList 36 = some l ∧
        l = (Lexer.new nestedText.toList).skip 20 ∧
        (recordOf .classDecl l).1.countP Action.isRead + 2 = l.allTokens.length ∧
        Progresses (recordOf .classDecl l).1 l.allTokens.length ∧
        l.allTokens.length ≤ (Lexer.new nestedText.toList).allTokens.length := by
  -- The counts are evaluated on the record; the progress is an instance.
  constructor
  · exact ⟨by decide +kernel, by decide +kernel, (parse_progresses nestedText).1.1⟩
  · have hat : ∃ l ∈ Lexer.at? nestedText.toList 36, l = (Lexer.new nestedText.toList).skip 20 ∧
        (recordOf .classDecl l).1.countP Action.isRead + 2 = l.allTokens.length := by
      decide +kernel
    rcases hat with ⟨l, hl, hskip, hreads⟩
    rcases (parse_progresses nestedText).2 36 l hl with ⟨hprogresses, -, -, htokens⟩
    exact ⟨l, hl, hskip, hreads, hprogresses, htokens 20 hskip⟩

/-- A class inside a string, and another string behind it. -/
def stringClass : String := "\"class A \x7b \x7d \"\" \""

/-- At an offset inside a string there may be more to read than the text has tokens: here the four
terminals of a class, in a text of two strings. -/
theorem stringClass_reads :
    (parseDeclarationAt stringClass 1).isOk = true ∧
      (Lexer.new stringClass.toList).allTokens.length = 2 ∧
      ∃ l, Lexer.at? stringClass.toList 1 = some l ∧
        (Lexer.new stringClass.toList).allTokens.length + 1 <
          (recordOf .classDecl l).1.countP Action.isRead := by
  have hreads : ∃ l ∈ Lexer.at? stringClass.toList 1,
      (Lexer.new stringClass.toList).allTokens.length + 1 <
        (recordOf .classDecl l).1.countP Action.isRead := by
    decide +kernel
  exact ⟨by decide +kernel, by decide +kernel, hreads⟩

end Lossless
