import Lossless.Proofs.Terminals
import Lossless.Reader

/-!
# Readers keep to one sequence

A reader that is only read gives one sequence of terminals and lexical errors (`Reader.nth`). Looks
ahead may come in between, at any distance, and may meet errors; the reader still keeps to that
sequence. The proof has two parts:

* `Serves` is an invariant of every use of a reader: the first results of the sequence have been
  made, their errors have been reported, and their terminals have been handed out or wait in the
  queue, all of it in order;
* `Reader.Looks` says what a look ahead gives and what it leaves to be read, by nothing but the
  results still to come. Readers with the same results to come can therefore not be told apart
  (`Reader.transcript_congr`), and a look that succeeds changes none of them.

`Reader.keeps_to_sequence` puts the two together.
-/

namespace Lossless

/-- A call of a reader. -/
inductive Request where
  | read
  | peek (n : Nat)
  | range (n : Nat)
deriving DecidableEq, Repr

/-- What a call gives if it succeeds. -/
inductive Answer where
  | terminal (t : Terminal)
  | range (s : Span)
deriving DecidableEq, Repr

/-- A call and what it gave. -/
structure Exchange where
  request : Request
  answer : Except Fault Answer

/-- The terminal that a call has handed out. -/
def Exchange.read? : Exchange → Option Terminal
  | ⟨.read, .ok (.terminal t)⟩ => some t
  | _ => none

/-- The error that a call has reported. -/
def Exchange.fault? : Exchange → Option Fault
  | ⟨_, .error f⟩ => some f
  | _ => none

namespace Reader

/-- The answer to a call and the reader behind it. -/
def perform (r : Reader) : Request → Except Fault Answer × Reader
  | .read => (r.read.1.map .terminal, r.read.2)
  | .peek n => ((r.peek n).1.map .terminal, (r.peek n).2)
  | .range n => ((r.range n).1.map .range, (r.range n).2)

/-- The reader behind some calls. -/
def after (r : Reader) : List Request → Reader
  | [] => r
  | q :: qs => (r.perform q).2.after qs

/-- Some calls and what they gave. -/
def transcript (r : Reader) : List Request → List Exchange
  | [] => []
  | q :: qs => ⟨q, (r.perform q).1⟩ :: (r.perform q).2.transcript qs

/-- The reader behind `n` reads. -/
def skip (r : Reader) : Nat → Reader
  | 0 => r
  | n + 1 => (r.skip n).read.2

/-- The result with number `n` of a reader that is only read. -/
def nth (r : Reader) (n : Nat) : Except Fault Terminal := (r.skip n).read.1

/-- The terminals among the first `n` results of a reader that is only read. -/
def successes (r : Reader) (n : Nat) : List Terminal :=
  (List.range n).filterMap fun i => (r.nth i).toOption

/-- The error that a result is. -/
def fault? : Except Fault Terminal → Option Fault
  | .ok _ => none
  | .error f => some f

/-- The errors among the first `n` results of a reader that is only read. -/
def failures (r : Reader) (n : Nat) : List Fault :=
  (List.range n).filterMap fun i => fault? (r.nth i)

/-! ## One more terminal -/

/-- A terminal that is made is not put into the queue by that. -/
@[simp] theorem advance_queue (r : Reader) : r.advance.2.queue = r.queue := by
  unfold advance
  split <;> rfl

@[simp] theorem advance_position (r : Reader) : r.advance.2.position = r.position := by
  unfold advance
  split <;> rfl

theorem queue_of_advance {r next : Reader} {a : Except Fault Terminal} (h : r.advance = (a, next)) :
    next.queue = r.queue := by
  rw [← r.advance_queue, h]

/-- What waits in the queue has no influence on the next terminal that is made. -/
theorem advance_withQueue (r : Reader) (ts : List Terminal) :
    advance { r with queue := ts } = (r.advance.1, { r.advance.2 with queue := ts }) := by
  unfold advance
  dsimp only
  split <;> rfl

/-- If nothing waits, a read makes the next terminal. -/
theorem read_of_nil {r : Reader} (h : r.queue = []) : r.read = r.advance := by
  unfold read
  rw [h]

/-- If a terminal waits, a read hands it out and makes none. -/
theorem read_of_cons {r : Reader} {t : Terminal} {ts : List Terminal} (h : r.queue = t :: ts) :
    r.read = (.ok t, { r with queue := ts }) := by
  unfold read
  rw [h]

theorem skip_read (r : Reader) (n : Nat) : r.read.2.skip n = r.skip (n + 1) := by
  induction n with
  | zero => rfl
  | succ n ih =>
    show (r.read.2.skip n).read.2 = (r.skip (n + 1)).read.2
    rw [ih]

@[simp] theorem nth_zero (r : Reader) : r.nth 0 = r.read.1 := rfl

theorem nth_read (r : Reader) (n : Nat) : r.read.2.nth n = r.nth (n + 1) := by
  unfold nth
  rw [skip_read]

/-- A terminal at the head of the queue comes first. -/
theorem nth_cons (r : Reader) (t : Terminal) (ts : List Terminal) (n : Nat) :
    nth { r with queue := t :: ts } (n + 1) = nth { r with queue := ts } n := by
  rw [← nth_read]
  rfl

/-- One result more is one terminal more, if it is a terminal. -/
theorem successes_succ (r : Reader) (n : Nat) :
    r.successes (n + 1) = r.successes n ++ (r.nth n).toOption.toList := by
  unfold successes
  rw [List.range_succ, List.filterMap_append]
  cases h : r.nth n <;> simp [h, Except.toOption]

/-- One result more is one error more, if it is an error. -/
theorem failures_succ (r : Reader) (n : Nat) :
    r.failures (n + 1) = r.failures n ++ (fault? (r.nth n)).toList := by
  unfold failures
  rw [List.range_succ, List.filterMap_append]
  cases h : r.nth n <;> simp [h, fault?]

/-! ## What has been served -/

/-- A reader that began as `start` has answered the calls `past` and stands at `now`. It has made
the first `n` results of its sequence: the errors among them are reported, and the terminals are
handed out or wait in the queue. -/
structure Serves (start : Reader) (past : List Exchange) (now : Reader) (n : Nat) : Prop where
  position : now.position = start.position
  run : now.run = (start.skip n).run
  served : past.filterMap Exchange.read? ++ now.queue = start.successes n
  reported : past.filterMap Exchange.fault? = start.failures n

namespace Serves

variable {start now next : Reader} {past : List Exchange} {n : Nat}

theorem refl (hq : start.queue = []) : Serves start [] start 0 where
  position := rfl
  run := rfl
  served := hq
  reported := rfl

/-- Reads alone leave nothing in the queue. -/
theorem skip_queue (hq : start.queue = []) (n : Nat) :
    (start.skip n).queue = [] ∧ (start.skip n).position = start.position := by
  induction n with
  | zero => exact ⟨hq, rfl⟩
  | succ n ih =>
    rcases ih with ⟨hqueue, hposition⟩
    show ((start.skip n).read.2).queue = [] ∧ ((start.skip n).read.2).position = start.position
    rw [read_of_nil hqueue, advance_queue, advance_position]
    exact ⟨hqueue, hposition⟩

/-- The next terminal or error that is made is the next one of the sequence. -/
theorem advance_eq (h : Serves start past now n) (hq : start.queue = []) :
    now.advance.1 = start.nth n ∧ now.advance.2.run = (start.skip (n + 1)).run := by
  rcases skip_queue hq n with ⟨hqueue, hposition⟩
  have hnow : now = { start.skip n with queue := now.queue } := by
    rcases now with ⟨run, position, queue⟩
    have hrun : run = (start.skip n).run := h.run
    have hpos : position = (start.skip n).position := h.position.trans hposition.symm
    rw [hrun, hpos]
  rw [hnow, advance_withQueue]
  constructor
  · show (start.skip n).advance.1 = (start.skip n).read.1
    rw [read_of_nil hqueue]
  · show (start.skip n).advance.2.run = (start.skip n).read.2.run
    rw [read_of_nil hqueue]

/-- A terminal that is made goes behind the queue. -/
theorem advance_ok (h : Serves start past now n) (hq : start.queue = []) {t : Terminal}
    (ha : now.advance = (.ok t, next)) :
    Serves start past { next with queue := next.queue ++ [t] } (n + 1) := by
  rcases h.advance_eq hq with ⟨hnth, hrun⟩
  have hposition := now.advance_position
  have hqueue := queue_of_advance ha
  rw [ha] at hnth hrun hposition
  constructor
  · exact hposition.trans h.position
  · exact hrun
  · rw [successes_succ, ← hnth, ← h.served, hqueue]
    simp [Except.toOption]
  · rw [failures_succ, ← hnth, h.reported]
    simp [fault?]

/-- An error that is met is reported by the call that meets it. -/
theorem advance_error (h : Serves start past now n) (hq : start.queue = []) {f : Fault}
    (ha : now.advance = (.error f, next)) (q : Request) :
    Serves start (past ++ [⟨q, .error f⟩]) next (n + 1) := by
  rcases h.advance_eq hq with ⟨hnth, hrun⟩
  have hposition := now.advance_position
  have hqueue := queue_of_advance ha
  rw [ha] at hnth hrun hposition
  constructor
  · exact hposition.trans h.position
  · exact hrun
  · rw [successes_succ, ← hnth, ← h.served, hqueue]
    simp [Except.toOption, Exchange.read?]
  · rw [failures_succ, ← hnth, ← h.reported]
    simp [fault?, Exchange.fault?]

/-- A look that has to make `m` more terminals and one either finds the last of them at the end of
the queue or reports the error that it meets on the way. -/
theorem extend (h : Serves start past now n) (hq : start.queue = []) (m : Nat) (q : Request) :
    match Reader.extend m now with
    | (.ok t, next) =>
      (∃ n', Serves start past next n') ∧ next.queue[now.queue.length + m]? = some t
    | (.error f, next) => ∃ n', Serves start (past ++ [⟨q, .error f⟩]) next n' := by
  -- By induction on the terminals that are missing, with the account kept after each of them.
  induction m generalizing now n with
  | zero =>
    unfold Reader.extend
    rcases ha : now.advance with ⟨result, next⟩
    cases result with
    | error f => exact ⟨n + 1, h.advance_error hq ha q⟩
    | ok t =>
      have hqueue := queue_of_advance ha
      refine ⟨⟨n + 1, h.advance_ok hq ha⟩, ?_⟩
      simp [← hqueue]
  | succ m ih =>
    unfold Reader.extend
    rcases ha : now.advance with ⟨result, next⟩
    cases result with
    | error f => exact ⟨n + 1, h.advance_error hq ha q⟩
    | ok t =>
      have hqueue := queue_of_advance ha
      -- The place that is looked for stays the same while the queue grows towards it.
      have hlength : (next.queue ++ [t]).length + m = now.queue.length + (m + 1) := by
        rw [List.length_append, List.length_singleton, hqueue]
        omega
      have hnext := ih (h.advance_ok hq ha)
      simp only [hlength] at hnext
      exact hnext

/-- A look finds its terminal in the queue that it leaves, or reports the error that it meets. -/
theorem peek (h : Serves start past now n) (hq : start.queue = []) (m : Nat) (q : Request) :
    match now.peek m with
    | (.ok t, next) => (∃ n', Serves start past next n') ∧ next.queue[m]? = some t
    | (.error f, next) => ∃ n', Serves start (past ++ [⟨q, .error f⟩]) next n' := by
  unfold Reader.peek
  cases hm : now.queue[m]? with
  | some t => exact ⟨⟨n, h⟩, hm⟩
  | none =>
    have hle : now.queue.length ≤ m := List.getElem?_eq_none_iff.1 hm
    have hextend := h.extend hq (m - now.queue.length) q
    have hsum : now.queue.length + (m - now.queue.length) = m := by omega
    rw [hsum] at hextend
    exact hextend

/-- A call that hands out no terminal and reports no error leaves the account as it is. -/
theorem silent (h : Serves start past now n) {e : Exchange} (hread : e.read? = none)
    (hfault : e.fault? = none) : Serves start (past ++ [e]) now n := by
  constructor
  · exact h.position
  · exact h.run
  · rw [← h.served]
    simp [hread]
  · rw [← h.reported]
    simp [hfault]

/-- A read hands out the head of the queue, or what is made next if nothing waits there. -/
theorem read (h : Serves start past now n) (hq : start.queue = []) :
    ∃ n', Serves start (past ++ [⟨.read, now.read.1.map .terminal⟩]) now.read.2 n' := by
  cases hqueue : now.queue with
  -- A terminal of the queue has been accounted for when it was made.
  | cons t ts =>
    rw [read_of_cons hqueue]
    refine ⟨n, h.position, h.run, ?_, ?_⟩
    · rw [← h.served, hqueue]
      simp [Exchange.read?, Except.map]
    · rw [← h.reported]
      simp [Exchange.fault?, Except.map]
  | nil =>
    rw [read_of_nil hqueue]
    rcases ha : now.advance with ⟨result, next⟩
    cases result with
    | error f => exact ⟨n + 1, h.advance_error hq ha .read⟩
    | ok t =>
      have hmade := h.advance_ok hq ha
      -- Nothing waits, so what is made is handed out at once.
      have hnext : next.queue = [] := (queue_of_advance ha).trans hqueue
      refine ⟨n + 1, hmade.position, hmade.run, ?_, ?_⟩
      · rw [← hmade.served, hnext]
        simp [Exchange.read?, Except.map]
      · rw [← hmade.reported]
        simp [Exchange.fault?, Except.map]

/-- Every call keeps the account. -/
theorem perform (h : Serves start past now n) (hq : start.queue = []) (q : Request) :
    ∃ n', Serves start (past ++ [⟨q, (now.perform q).1⟩]) (now.perform q).2 n' := by
  -- Looks hand out nothing: they extend the account by a silent exchange, or by an error.
  cases q with
  | read => exact h.read hq
  | peek m =>
    have hpeek := h.peek hq m (.peek m)
    simp only [Reader.perform]
    generalize now.peek m = look at hpeek ⊢
    rcases look with ⟨result, next⟩
    cases result with
    | error f => exact hpeek
    | ok t =>
      rcases hpeek with ⟨⟨n', hserves⟩, -⟩
      exact ⟨n', hserves.silent rfl rfl⟩
  | range m =>
    have hpeek := h.peek hq m (.range m)
    simp only [Reader.perform, Reader.range]
    generalize now.peek m = look at hpeek ⊢
    rcases look with ⟨result, next⟩
    cases result with
    | error f => exact hpeek
    | ok t =>
      rcases hpeek with ⟨⟨n', hserves⟩, -⟩
      exact ⟨n', hserves.silent rfl rfl⟩

/-- Every list of calls keeps the account. -/
theorem after (h : Serves start past now n) (hq : start.queue = []) (qs : List Request) :
    ∃ n', Serves start (past ++ now.transcript qs) (now.after qs) n' := by
  induction qs generalizing past now n with
  | nil =>
    refine ⟨n, ?_⟩
    rw [transcript, List.append_nil]
    exact h
  | cons q qs ih =>
    rcases h.perform hq q with ⟨m, hm⟩
    rcases ih hm with ⟨n', hn'⟩
    refine ⟨n', ?_⟩
    rw [List.append_assoc, List.singleton_append] at hn'
    exact hn'

end Serves

/-! ## What is still to come -/

/-- The results `n` and before it are terminals. -/
def ClearTo (r : Reader) (n : Nat) : Prop := ∀ i < n, ∃ t, r.nth i = .ok t

/-- What a look at distance `n` gives and leaves. It succeeds if no error comes up to there, and
leaves everything to be read; otherwise it reports the first error and takes it out. -/
def Looks (r : Reader) (n : Nat) : Except Fault Terminal → Reader → Prop
  | .ok t, next => r.ClearTo n ∧ r.nth n = .ok t ∧ next.nth = r.nth
  | .error f, next => ∃ i ≤ n, r.ClearTo i ∧ r.nth i = .error f ∧
      ∀ j, next.nth j = r.nth (if j < i then j else j + 1)

/-- What waits in the queue comes next. -/
theorem clearTo_queue (r : Reader) : r.ClearTo r.queue.length := by
  rcases r with ⟨run, position, queue⟩
  induction queue with
  | nil =>
    intro i hi
    exact absurd hi (Nat.not_lt_zero i)
  | cons t ts ih =>
    intro i hi
    cases i with
    | zero => exact ⟨t, rfl⟩
    | succ i =>
      rw [nth_cons ⟨run, position, []⟩]
      exact ih i (by simpa using hi)

/-- The terminals of the queue come next, in order. -/
theorem nth_queue {r : Reader} {n : Nat} {t : Terminal} (h : r.queue[n]? = some t) :
    r.nth n = .ok t := by
  rcases r with ⟨run, position, queue⟩
  induction queue generalizing n with
  | nil => simp at h
  | cons u us ih =>
    cases n with
    | zero =>
      cases h
      rfl
    | succ n =>
      rw [nth_cons ⟨run, position, []⟩]
      exact ih (by simpa using h)

/-- A terminal that is made and put behind the queue was the next one behind the queue before. -/
theorem nth_of_advance_ok {r next : Reader} {t : Terminal} (h : r.advance = (.ok t, next)) :
    r.nth r.queue.length = .ok t ∧ nth { next with queue := next.queue ++ [t] } = r.nth := by
  rcases r with ⟨run, position, queue⟩
  -- A read takes the same terminal from the front of both queues.
  induction queue generalizing next with
  | nil =>
    have hread : read ⟨run, position, []⟩ = (.ok t, next) := h
    have hqueue : next.queue = [] := queue_of_advance h
    refine ⟨by rw [List.length_nil, nth_zero, hread], ?_⟩
    funext i
    rw [hqueue, List.nil_append]
    cases i with
    | zero =>
      rw [nth_zero, nth_zero, hread]
      rfl
    | succ i =>
      rw [nth_cons, ← nth_read, hread]
      show nth { next with queue := [] } i = next.nth i
      rw [← hqueue]
  | cons u us ih =>
    have hadvance := advance_withQueue ⟨run, position, u :: us⟩ us
    rw [h] at hadvance
    have hnext : next.queue = u :: us := queue_of_advance h
    rcases ih hadvance with ⟨hlast, hsame⟩
    constructor
    · rw [List.length_cons, nth_cons ⟨run, position, []⟩]
      exact hlast
    · funext i
      rw [hnext, List.cons_append]
      cases i with
      | zero => rfl
      | succ i =>
        rw [nth_cons, nth_cons ⟨run, position, []⟩]
        exact congrFun hsame i

/-- An error that is met behind the queue is gone afterwards. -/
theorem nth_of_advance_error {r next : Reader} {f : Fault} (h : r.advance = (.error f, next)) :
    r.nth r.queue.length = .error f ∧
      ∀ j, next.nth j = r.nth (if j < r.queue.length then j else j + 1) := by
  rcases r with ⟨run, position, queue⟩
  -- By induction on the queue, whose terminals are read before the error and do not touch it.
  induction queue generalizing next with
  | nil =>
    have hread : read ⟨run, position, []⟩ = (.error f, next) := h
    refine ⟨by rw [List.length_nil, nth_zero, hread], ?_⟩
    intro j
    rw [List.length_nil, if_neg (Nat.not_lt_zero j), ← nth_read, hread]
  | cons u us ih =>
    have hadvance := advance_withQueue ⟨run, position, u :: us⟩ us
    rw [h] at hadvance
    have hnext : next = { next with queue := u :: us } := by
      have hqueue : next.queue = u :: us := queue_of_advance h
      rw [← hqueue]
    rcases ih hadvance with ⟨hlast, hsame⟩
    constructor
    · rw [List.length_cons, nth_cons ⟨run, position, []⟩]
      exact hlast
    · intro j
      rw [hnext]
      cases j with
      | zero => rfl
      | succ j =>
        have hif : (if j + 1 < (u :: us).length then j + 1 else j + 1 + 1) =
            (if j < us.length then j else j + 1) + 1 := by
          rw [List.length_cons]
          split <;> split <;> omega
        rw [nth_cons, hsame j, hif, nth_cons ⟨run, position, []⟩]

/-- A look that has to make terminals keeps to what is still to come. The induction is on the number
of terminals that it makes. -/
theorem extend_looks (r : Reader) (m : Nat) :
    r.Looks (r.queue.length + m) (extend m r).1 (extend m r).2 := by
  induction m generalizing r with
  | zero =>
    unfold extend
    rcases ha : r.advance with ⟨result, next⟩
    cases result with
    | error f =>
      rcases nth_of_advance_error ha with ⟨hfault, hnext⟩
      exact ⟨r.queue.length, Nat.le_refl _, r.clearTo_queue, hfault, hnext⟩
    | ok t =>
      rcases nth_of_advance_ok ha with ⟨ht, hnext⟩
      exact ⟨r.clearTo_queue, ht, hnext⟩
  | succ m ih =>
    unfold extend
    rcases ha : r.advance with ⟨result, next⟩
    cases result with
    | error f =>
      rcases nth_of_advance_error ha with ⟨hfault, hnext⟩
      exact ⟨r.queue.length, by omega, r.clearTo_queue, hfault, hnext⟩
    | ok t =>
      -- The rest of the look starts from a reader with the same results to come.
      rcases nth_of_advance_ok ha with ⟨ht, hnext⟩
      have hqueue := queue_of_advance ha
      have hlength : (next.queue ++ [t]).length + m = r.queue.length + (m + 1) := by
        rw [List.length_append, List.length_singleton, hqueue]
        omega
      have hrest := ih { next with queue := next.queue ++ [t] }
      simp only [hlength] at hrest
      dsimp only
      generalize extend m { next with queue := next.queue ++ [t] } = look at hrest ⊢
      rcases look with ⟨result, last⟩
      unfold Looks ClearTo at hrest ⊢
      rw [hnext] at hrest
      exact hrest

/-- A look that finds its terminal in the queue leaves everything as it was. -/
theorem peek_looks (r : Reader) (n : Nat) : r.Looks n (r.peek n).1 (r.peek n).2 := by
  unfold peek
  cases hn : r.queue[n]? with
  | some t =>
    have hlt : n < r.queue.length := (List.getElem?_eq_some_iff.1 hn).1
    refine ⟨?_, nth_queue hn, rfl⟩
    intro i hi
    exact r.clearTo_queue i (by omega)
  | none =>
    have hle : r.queue.length ≤ n := List.getElem?_eq_none_iff.1 hn
    have hlooks := r.extend_looks (n - r.queue.length)
    have hsum : r.queue.length + (n - r.queue.length) = n := by omega
    rw [hsum] at hlooks
    exact hlooks

/-- The results to come decide what a look gives and leaves. -/
theorem Looks.congr {r s r' s' : Reader} {n : Nat} {a b : Except Fault Terminal}
    (h : r.nth = s.nth) (hr : r.Looks n a r') (hs : s.Looks n b s') :
    a = b ∧ r'.nth = s'.nth := by
  cases a with
  | ok t =>
    rcases hr with ⟨hclear, ht, hnext⟩
    cases b with
    | ok u =>
      rcases hs with ⟨-, hu, hnext'⟩
      rw [← h, ht] at hu
      exact ⟨hu, by rw [hnext, hnext', h]⟩
    | error f =>
      -- No error comes up to `n`.
      rcases hs with ⟨i, hi, -, hf, -⟩
      rw [← h] at hf
      rcases Nat.lt_or_eq_of_le hi with hlt | rfl
      · rcases hclear i hlt with ⟨u, hu⟩
        rw [hu] at hf
        cases hf
      · rw [ht] at hf
        cases hf
  | error f =>
    rcases hr with ⟨i, hi, hclear, hf, hnext⟩
    cases b with
    | ok u =>
      rcases hs with ⟨hclear', hu, -⟩
      rw [h] at hf
      rcases Nat.lt_or_eq_of_le hi with hlt | rfl
      · rcases hclear' i hlt with ⟨t, ht⟩
        rw [ht] at hf
        cases hf
      · rw [hu] at hf
        cases hf
    | error g =>
      rcases hs with ⟨j, hj, hclear', hg, hnext'⟩
      rw [← h] at hg
      -- Both are the first error.
      have hij : i = j := by
        rcases Nat.lt_trichotomy i j with hlt | heq | hlt
        · rcases hclear' i hlt with ⟨t, ht⟩
          rw [← h, hf] at ht
          cases ht
        · exact heq
        · rcases hclear j hlt with ⟨t, ht⟩
          rw [hg] at ht
          cases ht
      subst hij
      rw [hf] at hg
      refine ⟨hg, ?_⟩
      funext k
      rw [hnext, hnext', h]

/-- A call gives the same on readers with the same results to come, and leaves such readers. -/
theorem perform_congr {r s : Reader} (h : r.nth = s.nth) (q : Request) :
    (r.perform q).1 = (s.perform q).1 ∧ (r.perform q).2.nth = (s.perform q).2.nth := by
  cases q with
  | read =>
    have hfirst : r.read.1 = s.read.1 := congrFun h 0
    refine ⟨congrArg (Except.map Answer.terminal) hfirst, ?_⟩
    funext i
    show r.read.2.nth i = s.read.2.nth i
    rw [nth_read, nth_read, h]
  | peek n =>
    rcases Looks.congr h (r.peek_looks n) (s.peek_looks n) with ⟨hanswer, hnext⟩
    exact ⟨congrArg (Except.map Answer.terminal) hanswer, hnext⟩
  | range n =>
    rcases Looks.congr h (r.peek_looks n) (s.peek_looks n) with ⟨hanswer, hnext⟩
    exact ⟨congrArg (fun a => (a.map Terminal.span).map Answer.range) hanswer, hnext⟩

/-- Readers with the same results to come answer all calls in the same way. -/
theorem transcript_congr {r s : Reader} (h : r.nth = s.nth) (qs : List Request) :
    r.transcript qs = s.transcript qs := by
  induction qs generalizing r s with
  | nil => rfl
  | cons q qs ih =>
    rcases perform_congr h q with ⟨hanswer, hnext⟩
    simp only [transcript]
    rw [hanswer, ih hnext]

end Reader

/-! ## The end of the text -/

/-- The terminal stands for the end of the text. -/
def Terminal.IsEnd (t : Terminal) : Prop := t.token.kind = .endOfInput

namespace Reader

/-- The terminal at the end is made when nothing is left, and nothing is left behind it. -/
theorem advance_end {r : Reader} (h : Lexeme.NoEnd r.run) :
    Lexeme.NoEnd r.advance.2.run ∧
      ∀ t, r.advance.1 = .ok t → t.IsEnd → r.advance.2.run = [] := by
  have hof := promote_of r.position r.run
  unfold advance
  -- Only the end is made out of nothing; a terminal has the kind of its lexeme.
  cases hp : promote r.position r.run with
  | terminal t rest =>
    rw [hp] at hof
    rcases hof with ⟨xs, x, ys, hrun, -, hkind, -⟩
    rw [hrun] at h
    constructor
    · intro y hy
      exact h y (by simp only [List.mem_append, List.mem_cons]; exact Or.inr (Or.inr (Or.inr hy)))
    · intro u hu hend
      cases hu
      have hx : x.kind ≠ .endOfInput := h x (by simp)
      rw [← hkind] at hx
      exact absurd hend hx
  | finish t =>
    refine ⟨?_, fun _ _ _ => rfl⟩
    intro x hx
    exact absurd hx List.not_mem_nil
  | fault f rest =>
    rw [hp] at hof
    rcases hof with ⟨xs, hrun⟩
    rw [hrun] at h
    constructor
    · intro y hy
      exact h y (by simp only [List.mem_append, List.mem_cons]; exact Or.inr (Or.inr hy))
    · intro t ht
      cases ht

/-- At the end of the text the last terminal is made again and again. -/
theorem advance_of_nil {r : Reader} (h : r.run = []) :
    r.advance = (.ok (.finish r.position []), r) := by
  rcases r with ⟨run, position, queue⟩
  cases h
  rfl

/-- Behind the terminal at the end come only such terminals. -/
theorem successes_end {start : Reader} (hq : start.queue = []) (hrun : Lexeme.NoEnd start.run)
    (n : Nat) :
    Lexeme.NoEnd (start.skip n).run ∧
      (∀ t ∈ start.successes n, t.IsEnd → (start.skip n).run = []) ∧
      (start.successes n).Pairwise fun t u => t.IsEnd → u.IsEnd := by
  induction n with
  | zero =>
    refine ⟨hrun, ?_, List.Pairwise.nil⟩
    intro t ht
    exact absurd ht List.not_mem_nil
  | succ n ih =>
    rcases ih with ⟨hno, hend, hpair⟩
    have hqueue := (Serves.skip_queue hq n).1
    have hread : (start.skip n).read = (start.skip n).advance := read_of_nil hqueue
    have hskip : start.skip (n + 1) = (start.skip n).advance.2 := congrArg Prod.snd hread
    have hnth : start.nth n = (start.skip n).advance.1 := congrArg Prod.fst hread
    rcases advance_end hno with ⟨hno', hend'⟩
    -- Once the end has come, every further result is the end again.
    have hover : (∃ t ∈ start.successes n, t.IsEnd) →
        start.nth n = .ok (.finish (start.skip n).position []) ∧
          (start.skip (n + 1)).run = [] := by
      rintro ⟨t, ht, htend⟩
      have hnil := hend t ht htend
      rw [hnth, hskip, advance_of_nil hnil]
      exact ⟨rfl, hnil⟩
    rw [successes_succ]
    refine ⟨by rw [hskip]; exact hno', ?_, ?_⟩
    · intro t ht htend
      rcases List.mem_append.1 ht with hold | hnew
      · exact (hover ⟨t, hold, htend⟩).2
      · cases hresult : start.nth n with
        | error f =>
          rw [hresult] at hnew
          exact absurd hnew List.not_mem_nil
        | ok u =>
          rw [hresult] at hnew
          have htu : t = u := List.mem_singleton.1 hnew
          subst htu
          rw [hskip]
          exact hend' t (hnth.symm.trans hresult) htend
    · refine List.pairwise_append.2 ⟨hpair, ?_, ?_⟩
      · cases start.nth n with
        | error f => exact List.Pairwise.nil
        | ok u => exact List.pairwise_singleton _ _
      · intro t ht u hu htend
        have hresult := (hover ⟨t, ht, htend⟩).1
        rw [hresult] at hu
        have hu' := List.mem_singleton.1 hu
        rw [hu']
        rfl

/-- The terminal that is handed out behind the end is the end again. -/
theorem Serves.read_end {start now : Reader} {past : List Exchange} {n : Nat} {t : Terminal}
    (h : Serves start past now n) (hq : start.queue = []) (hrun : Lexeme.NoEnd start.run)
    (ht : t ∈ past.filterMap Exchange.read?) (hend : t.IsEnd) :
    ∃ u, now.read.1 = .ok u ∧ u.IsEnd := by
  rcases successes_end hq hrun n with ⟨-, hnil, hpair⟩
  rw [← h.served] at hnil hpair
  cases hqueue : now.queue with
  | cons u us =>
    refine ⟨u, by rw [read_of_cons hqueue], ?_⟩
    have hu : u ∈ now.queue := by
      rw [hqueue]
      exact List.mem_cons_self
    exact (List.pairwise_append.1 hpair).2.2 t ht u hu hend
  | nil =>
    have hempty : now.run = [] := by
      rw [h.run]
      exact hnil t (List.mem_append_left _ ht) hend
    refine ⟨.finish now.position [], ?_, rfl⟩
    rw [read_of_nil hqueue, advance_of_nil hempty]

/-! ## Any use of a reader -/

/-- Whatever calls a reader has answered, it keeps to the sequence of results that it would give if
it were only read: the terminals handed out are the first ones of the sequence and the errors
reported are the first ones too; a look that succeeds gives the terminal that is due at its
distance and changes no later answer; and behind the end of the text only the end is read. -/
theorem keeps_to_sequence (l : Lexer) (calls : List Request) :
    let start := ofLexer l
    let past := start.transcript calls
    let now := start.after calls
    (∃ n, past.filterMap Exchange.read? <+: start.successes n ∧
        past.filterMap Exchange.fault? = start.failures n) ∧
      (∀ m t next, now.peek m = (.ok t, next) →
        (∃ n, (start.successes n)[(past.filterMap Exchange.read?).length + m]? = some t) ∧
          ∀ later, next.transcript later = now.transcript later) ∧
      (∀ m span next, now.range m = (.ok span, next) →
        (∃ n t, (start.successes n)[(past.filterMap Exchange.read?).length + m]? = some t ∧
            t.span = span) ∧
          ∀ later, next.transcript later = now.transcript later) ∧
      (∀ t next, now.read = (.ok t, next) → t.IsEnd →
        ∀ later, ∃ u, (next.after later).read.1 = .ok u ∧ u.IsEnd) := by
  intro start past now
  have hq : start.queue = [] := rfl
  have hrun : Lexeme.NoEnd start.run := l.noEnd_run
  rcases (Serves.refl hq).after hq calls with ⟨n, hserves⟩
  rw [List.nil_append] at hserves
  -- What a look gives is in the queue behind it, and the queue continues what was handed out.
  have hlook : ∀ m t next, now.peek m = (.ok t, next) →
      (∃ n, (start.successes n)[(past.filterMap Exchange.read?).length + m]? = some t) ∧
        ∀ later, next.transcript later = now.transcript later := by
    intro m t next hpeek
    have hfound := hserves.peek hq m (.peek m)
    have hsame := now.peek_looks m
    rw [hpeek] at hsame
    rw [show (start.after calls).peek m = (.ok t, next) from hpeek] at hfound
    rcases hfound with ⟨⟨n', hserves'⟩, hqueue⟩
    refine ⟨⟨n', ?_⟩, transcript_congr hsame.2.2⟩
    rw [← hserves'.served, List.getElem?_append_right (Nat.le_add_right _ _),
      Nat.add_sub_cancel_left]
    exact hqueue
  refine ⟨⟨n, ⟨now.queue, hserves.served⟩, hserves.reported⟩, hlook, ?_, ?_⟩
  · intro m span next hrange
    rcases hpeek : now.peek m with ⟨result, next'⟩
    simp only [range, hpeek] at hrange
    cases result with
    | error f => cases hrange
    | ok t =>
      cases hrange
      rcases hlook m t _ hpeek with ⟨⟨n', hn'⟩, hlater⟩
      exact ⟨⟨n', t, hn', rfl⟩, hlater⟩
  · intro t next hread hend later
    rcases hserves.read hq with ⟨n', hserves'⟩
    rw [show (start.after calls).read = (.ok t, next) from hread] at hserves'
    rcases hserves'.after hq later with ⟨n'', hserves''⟩
    refine hserves''.read_end hq hrun ?_ hend
    simp [Exchange.read?, Except.map]

/-- Two of these looks meet an error each. The word in front of the first error is lost with it, so
behind `a`, which is read in between, `c` and `d` come. -/
theorem keeps_to_sequence_pastError :
    let start := ofLexer (Lexer.new "a b 1.2.3 c d".toList)
    let now := start.after [.peek 5, .read, .peek 1]
    ∃ t next, now.peek 1 = (.ok t, next) ∧ (∃ n, (start.successes n)[1 + 1]? = some t) ∧
      ∀ later, next.transcript later = now.transcript later := by
  intro start now
  have hok : (now.peek 1).1.isOk = true := by decide +kernel
  have hreads : ((start.transcript [.peek 5, .read, .peek 1]).filterMap Exchange.read?).length = 1 := by
    decide +kernel
  rcases hpeek : now.peek 1 with ⟨result, next⟩
  rw [hpeek] at hok
  cases result with
  | error f => cases hok
  | ok t =>
    have hsequence := keeps_to_sequence (Lexer.new "a b 1.2.3 c d".toList) [.peek 5, .read, .peek 1]
    have hdue := hsequence.2.1 1 t next hpeek
    rw [hreads] at hdue
    exact ⟨t, next, rfl, hdue⟩

end Reader

end Lossless
