import Lossless.Lexer

/-!
# What a lexeme depends on

A lexeme is cut off the front of a text after a look at the one character behind it. If that
character stays, or if nothing at all stands behind the lexeme any more, the cut stays the same
(`scan_lookahead`). A lexer that has read some lexemes of a text therefore reads the same lexemes of
every text that begins in the same way (`Reads.lookahead`). `Reads` and the run of a lexer are two
ways of saying the same (`Reads.run_eq`, `Reads.of_run`).
-/

namespace Lossless

namespace Text

/-- The second text is empty or begins with the same character as the first. -/
def Follows (a b : List Char) : Prop := b = [] ∨ b.head? = a.head?

theorem Follows.nil (a : List Char) : Follows a [] := Or.inl rfl

theorem Follows.cons (c : Char) (a b : List Char) : Follows (c :: a) (c :: b) := Or.inr rfl

theorem Follows.eq_nil {b : List Char} (h : Follows [] b) : b = [] := by
  rcases h with h | h
  · exact h
  · exact List.head?_eq_none_iff.1 h

/-- What is in front of both texts decides how they begin. -/
theorem Follows.append {a b : List Char} (w : List Char) (h : Follows a b) :
    Follows (w ++ a) (w ++ b) := by
  cases w with
  | nil => exact h
  | cons c w => exact Follows.cons c _ _

/-- A run of characters ends where it ended before. -/
theorem Follows.run (p : Char → Bool) (cs : List Char) {b : List Char}
    (h : Follows (cs.dropWhile p) b) :
    (cs.takeWhile p ++ b).takeWhile p = cs.takeWhile p ∧
      (cs.takeWhile p ++ b).dropWhile p = b := by
  have hall : ∀ c ∈ cs.takeWhile p, p c = true := List.all_eq_true.1 List.all_takeWhile
  -- The character that ended the run is still the first of `b`, unless `b` is empty.
  have hb : b.takeWhile p = [] ∧ b.dropWhile p = b := by
    cases b with
    | nil => exact ⟨rfl, rfl⟩
    | cons d b =>
      rcases h with h | h
      · cases h
      · have hd : p d = false := by
          have := List.head?_dropWhile_not p cs
          rw [← h] at this
          simpa using this
        simp [hd]
  rw [List.takeWhile_append_of_pos hall, List.dropWhile_append_of_pos hall, hb.1, hb.2]
  simp

end Text

namespace Lexeme

open Text

/-! ## One cut -/

/-- A run looks at the character behind it, which either is the same or is gone. -/
theorem cutRun_lookahead {kind : Kind} {p : Char → Bool} {c : Char} {cs r : List Char}
    (h : Follows (cs.dropWhile p) r) :
    cutRun kind p c (cs.takeWhile p ++ r) = ⟨.plain kind, c :: cs.takeWhile p, r⟩ := by
  rcases Follows.run p cs h with ⟨ht, hd⟩
  simp only [cutRun, ht, hd]

/-- A string that is closed looks at nothing behind its quotation mark, and an open one has nothing
behind it. -/
theorem cutString_lookahead {c : Char} {cs r : List Char} (h : Follows (cutString c cs).rest r) :
    cutString c ((cutString c cs).taken.tail ++ r) =
      ⟨(cutString c cs).shape, (cutString c cs).taken, r⟩ := by
  have hq : ∀ q rest, cs.dropWhile (· != '"') = q :: rest → q = '"' := by
    intro q rest hdrop
    have := List.head?_dropWhile_not (· != '"') cs
    rw [hdrop] at this
    simpa using this
  have hcs : cs.takeWhile (· != '"') ++ cs.dropWhile (· != '"') = cs :=
    List.takeWhile_append_dropWhile
  unfold cutString at h ⊢
  cases hdrop : cs.dropWhile (· != '"') with
  | nil =>
    -- The string is not closed, so it has taken all there is.
    rw [hdrop] at h hcs
    have hr : r = [] := h.eq_nil
    subst hr
    simp [hdrop]
  | cons q rest =>
    -- The closing mark is taken, so the string does not see what is behind it.
    have hq' := hq q rest hdrop
    subst hq'
    have hrun := Follows.run (· != '"') cs (hdrop ▸ Follows.cons '"' rest r)
    simp [hrun.1, hrun.2]

/-- A number looks at the character behind it only to see whether it goes on. -/
theorem cutNumber_lookahead {c : Char} {cs r : List Char} (h : Follows (cutNumber c cs).rest r) :
    cutNumber c ((cutNumber c cs).taken.tail ++ r) =
      ⟨(cutNumber c cs).shape, (cutNumber c cs).taken, r⟩ := by
  -- A text whose first character is no point stays so when only that character is kept.
  have hpoint : ∀ a b : List Char, Follows a b → (∀ t, a ≠ '.' :: t) → ∀ t, b ≠ '.' :: t := by
    rintro a b (rfl | hab) ha t hb
    · cases hb
    · rw [hb] at hab
      cases a with
      | nil => cases hab
      | cons d a =>
        cases hab
        exact ha a rfl
  unfold cutNumber at h ⊢
  split at h
  · rename_i tail htail
    split at h
    · -- Two points: the second one is taken.
      rename_i rest hrest
      have hin := Follows.run Char.isDigit tail (hrest ▸ Follows.cons '.' rest r)
      have hout := Follows.run Char.isDigit cs
        (htail ▸ Follows.cons '.' tail (tail.takeWhile Char.isDigit ++ '.' :: r))
      simp [hout.1, hout.2, hin.1, hin.2]
    · -- One point: the character that ended the places was no second one.
      rename_i hrest
      have hin := Follows.run Char.isDigit tail h
      have hout := Follows.run Char.isDigit cs
        (htail ▸ Follows.cons '.' tail (tail.takeWhile Char.isDigit ++ r))
      have hr := hpoint _ _ h (fun t ht => hrest t ht)
      simp [hout.1, hout.2, hin.1, hin.2]
  · -- No point: the same for the character behind the whole part.
    rename_i hrest
    have hout := Follows.run Char.isDigit cs h
    have hr := hpoint _ _ h (fun t ht => hrest t ht)
    simp [hout.1, hout.2]

/-- A sign looks one character ahead for its second half, and a word for its end. -/
theorem cutOther_lookahead {c : Char} {cs r : List Char} (h : Follows (cutOther c cs).rest r) :
    cutOther c ((cutOther c cs).taken.tail ++ r) =
      ⟨(cutOther c cs).shape, (cutOther c cs).taken, r⟩ := by
  unfold cutOther at h ⊢
  cases hpair : cs.head?.bind (pair? c) with
  | some kind =>
    -- Both characters are taken, so nothing behind them counts.
    cases cs with
    | nil => cases hpair
    | cons d cs =>
      have hd : pair? c d = some kind := hpair
      simp [hd]
  | none =>
    simp only [hpair] at h
    cases hsingle : single? c with
    | some kind =>
      -- The next character did not go with `c` before, and it is the same one or gone.
      simp only [hsingle] at h
      have hnone : r.head?.bind (pair? c) = none := by
        rcases h with rfl | h
        · rfl
        · rw [h, hpair]
      simp [hnone]
    | none =>
      -- The second character is now that of the word or, if the word has only one, that of `r`.
      simp only [hsingle] at h
      have hnone : (cs.takeWhile (fun d => !isBoundary d) ++ r).head?.bind (pair? c) = none := by
        have hf := h.append (cs.takeWhile fun d => !isBoundary d)
        simp only [cutRun, List.takeWhile_append_dropWhile] at hf
        rcases hf with hf | hf
        · rw [hf]
          rfl
        · rw [hf, hpair]
      simp only [cutRun, List.tail_cons, hnone]
      exact cutRun_lookahead h

/-- What is no number because of the character behind the sign is none if that character is gone. -/
theorem startsNumber_follows {c : Char} {a b : List Char} (h : Follows a b)
    (ha : startsNumber c a = false) : startsNumber c b = false := by
  rcases h with rfl | h
  · simp only [startsNumber, Bool.or_eq_false_iff] at ha
    simp [startsNumber, ha.1]
  · rw [startsNumber, h]
    exact ha

/-- A number keeps the digit by which it was known. -/
theorem startsNumber_taken {c : Char} {cs : List Char} (r : List Char)
    (h : startsNumber c cs = true) :
    startsNumber c ((cutNumber c cs).taken.tail ++ r) = true := by
  have htaken : ∃ w, (cutNumber c cs).taken.tail = cs.takeWhile Char.isDigit ++ w := by
    unfold cutNumber
    repeat' split
    · exact ⟨_, List.append_assoc ..⟩
    · exact ⟨_, rfl⟩
    · exact ⟨[], (List.append_nil _).symm⟩
  rcases htaken with ⟨w, hw⟩
  rw [hw]
  simp only [startsNumber, Bool.or_eq_true, Bool.and_eq_true] at h ⊢
  -- A sign starts a number only with a digit behind it, which is the first that is taken.
  rcases h with h | ⟨hsign, hdigit⟩
  · exact Or.inl h
  · cases cs with
    | nil => cases hdigit
    | cons d cs =>
      have hd : d.isDigit = true := hdigit
      exact Or.inr ⟨hsign, by simp [hd]⟩

/-- The first character of the text is the first that is taken. -/
theorem scan_taken_eq (c : Char) (cs : List Char) :
    (scan c cs).taken = c :: (scan c cs).taken.tail := by
  have hne := scan_taken_ne_nil c cs
  have happ := scan_append c cs
  cases htaken : (scan c cs).taken with
  | nil => exact absurd htaken hne
  | cons d w =>
    rw [htaken] at happ
    injection happ with hd
    rw [hd]
    rfl

/-- What starts like a number is cut as one: a digit or a sign is neither blank nor a quotation
mark. -/
theorem scan_of_number {c : Char} {cs : List Char} (h : startsNumber c cs = true) :
    scan c cs = cutNumber c cs := by
  have hne : ∀ d : Char, d.isDigit = false → d ≠ '+' → d ≠ '-' → c ≠ d := by
    rintro d hd hplus hminus rfl
    simp [startsNumber, hd, hplus, hminus] at h
  rw [scan, if_neg (hne ' ' rfl (by decide) (by decide)),
    if_neg (hne '\t' rfl (by decide) (by decide)), if_neg (hne '"' rfl (by decide) (by decide)),
    if_pos h]

/-- What is neither blank nor a string nor a number is cut as a sign or a word. -/
theorem scan_of_other {c : Char} {cs : List Char} (hspace : c ≠ ' ') (htab : c ≠ '\t')
    (hquote : c ≠ '"') (hnum : startsNumber c cs = false) : scan c cs = cutOther c cs := by
  rw [scan, if_neg hspace, if_neg htab, if_neg hquote, hnum]
  rfl

/-- The five ways of a cut, told apart by the first character. -/
theorem scan_cases (c : Char) (cs : List Char) :
    (c = ' ' ∧ scan c cs = cutRun .whitespace (· == ' ') c cs) ∨
    (c = '\t' ∧ scan c cs = cutRun .tab (· == '\t') c cs) ∨
    (c = '"' ∧ scan c cs = cutString c cs) ∨
    (startsNumber c cs = true ∧ scan c cs = cutNumber c cs) ∨
    ((c ≠ ' ' ∧ c ≠ '\t' ∧ c ≠ '"' ∧ startsNumber c cs = false) ∧ scan c cs = cutOther c cs) := by
  unfold scan
  by_cases hspace : c = ' '
  · exact Or.inl ⟨hspace, if_pos hspace⟩
  by_cases htab : c = '\t'
  · exact Or.inr (Or.inl ⟨htab, by rw [if_neg hspace, if_pos htab]⟩)
  by_cases hquote : c = '"'
  · exact Or.inr (Or.inr (Or.inl ⟨hquote, by rw [if_neg hspace, if_neg htab, if_pos hquote]⟩))
  rw [if_neg hspace, if_neg htab, if_neg hquote]
  cases hnum : startsNumber c cs with
  | true => exact Or.inr (Or.inr (Or.inr (Or.inl ⟨rfl, rfl⟩)))
  | false => exact Or.inr (Or.inr (Or.inr (Or.inr ⟨⟨hspace, htab, hquote, rfl⟩, rfl⟩)))

/-- A cut depends on no more than one character behind the lexeme, and not even on that if it is
taken away. -/
theorem scan_lookahead {c : Char} {cs r : List Char} (h : Follows (scan c cs).rest r) :
    scan c ((scan c cs).taken.tail ++ r) = ⟨(scan c cs).shape, (scan c cs).taken, r⟩ := by
  rcases scan_cases c cs with ⟨rfl, hs⟩ | ⟨rfl, hs⟩ | ⟨rfl, hs⟩ | ⟨hnum, hs⟩ | ⟨hno, hs⟩
  · rw [hs] at h ⊢
    exact cutRun_lookahead h
  · rw [hs] at h ⊢
    exact cutRun_lookahead h
  · rw [hs] at h ⊢
    exact cutString_lookahead h
  · rw [hs] at h ⊢
    rw [scan_of_number (startsNumber_taken r hnum)]
    exact cutNumber_lookahead h
  · rw [hs] at h ⊢
    -- What starts no number before the cut does not start one after it either.
    rcases hno with ⟨hspace, htab, hquote, hnum⟩
    have hcs : (cutOther c cs).taken.tail ++ (cutOther c cs).rest = cs := by
      have happ := scan_append c cs
      rw [scan_taken_eq, hs] at happ
      exact (List.cons.inj happ).2
    have hf := h.append (cutOther c cs).taken.tail
    rw [hcs] at hf
    rw [scan_of_other hspace htab hquote (startsNumber_follows hf hnum)]
    exact cutOther_lookahead h

end Lexeme

/-! ## Lexemes in a row -/

/-- The lexemes at the beginning of a text at a position, read without an error, and the text that
is left behind them. -/
inductive Reads : Nat → List Char → List Lexeme → List Char → Prop where
  | nil {p : Nat} {cs : List Char} : Reads p cs [] cs
  | cons {p : Nat} {c : Char} {cs r : List Char} {kind : Kind} {value : Option Number}
      {xs : List Lexeme}
      (read : Lexeme.evaluate (Lexeme.scan c cs).shape (Lexeme.scan c cs).taken = .ok (kind, value))
      (more : Reads (p + Text.width (Lexeme.scan c cs).taken) (Lexeme.scan c cs).rest xs r) :
      Reads p (c :: cs)
        (⟨kind, ⟨p, p + Text.width (Lexeme.scan c cs).taken⟩, (Lexeme.scan c cs).taken, value⟩ ::
          xs) r

def Lexeme.textOf (xs : List Lexeme) : List Char := xs.flatMap Lexeme.text

@[simp] theorem Lexeme.textOf_nil : textOf [] = [] := rfl

@[simp] theorem Lexeme.textOf_cons (x : Lexeme) (xs : List Lexeme) :
    textOf (x :: xs) = x.text ++ textOf xs := rfl

@[simp] theorem Lexeme.textOf_append (xs ys : List Lexeme) :
    textOf (xs ++ ys) = textOf xs ++ textOf ys := List.flatMap_append

namespace Reads

open Lexeme Text

/-- The lexemes and what is left make up the text. -/
theorem text_eq {p : Nat} {cs r : List Char} {xs : List Lexeme} (h : Reads p cs xs r) :
    cs = textOf xs ++ r := by
  induction h with
  | nil => rfl
  | cons _ _ ih =>
    rw [textOf_cons, List.append_assoc, ← ih]
    exact (scan_append _ _).symm

/-- Every lexeme takes at least one character. -/
theorem length_le {p : Nat} {cs r : List Char} {xs : List Lexeme} (h : Reads p cs xs r) :
    xs.length + r.length ≤ cs.length := by
  induction h with
  | nil => simp
  | @cons _ c cs _ _ _ _ _ _ ih =>
    have hlt := scan_rest_length_lt c cs
    rw [List.length_cons]
    omega

/-- No lexeme is empty. -/
theorem text_ne_nil {p : Nat} {cs r : List Char} {xs : List Lexeme} (h : Reads p cs xs r) :
    ∀ x ∈ xs, x.text ≠ [] := by
  induction h with
  | nil => simp
  | @cons _ c cs _ _ _ _ _ _ ih =>
    intro x hx
    rcases List.mem_cons.1 hx with rfl | hx
    · exact scan_taken_ne_nil c cs
    · exact ih x hx

/-- Lexemes that are read in two stretches, one behind the other, are read in one. -/
theorem append {p : Nat} {cs m r : List Char} {xs ys : List Lexeme} (h₁ : Reads p cs xs m)
    (h₂ : Reads (p + width (textOf xs)) m ys r) : Reads p cs (xs ++ ys) r := by
  induction h₁ with
  | nil => exact h₂
  | cons read _ ih =>
    refine .cons read (ih ?_)
    rw [textOf_cons, width_append, ← Nat.add_assoc] at h₂
    exact h₂

/-- A lexeme that is cut off is read. -/
theorem cons_of_scan {p : Nat} {c : Char} {cs w rest r : List Char} {shape : Shape} {kind : Kind}
    {value : Option Number} {xs : List Lexeme} (hscan : scan c cs = ⟨shape, w, rest⟩)
    (read : evaluate shape w = .ok (kind, value)) (more : Reads (p + width w) rest xs r) :
    Reads p (c :: cs) (⟨kind, ⟨p, p + width w⟩, w, value⟩ :: xs) r := by
  have h : Reads p (c :: cs)
      (⟨kind, ⟨p, p + width (scan c cs).taken⟩, (scan c cs).taken, value⟩ :: xs) r := by
    refine .cons ?_ ?_
    · rw [hscan]
      exact read
    · rw [hscan]
      exact more
  rw [hscan] at h
  exact h

/-- The same lexemes are read of every text that begins with them, as long as the character behind
them is the same or gone. -/
theorem lookahead {p : Nat} {cs r r' : List Char} {xs : List Lexeme} (h : Reads p cs xs r)
    (hr : Follows r r') : Reads p (textOf xs ++ r') xs r' := by
  induction h with
  | nil => exact .nil
  | @cons p c cs r kind value xs read more ih =>
    have hrest : Follows (scan c cs).rest (textOf xs ++ r') := by
      rw [more.text_eq]
      exact hr.append (textOf xs)
    have htext : (scan c cs).taken ++ textOf xs ++ r' =
        c :: ((scan c cs).taken.tail ++ (textOf xs ++ r')) := by
      rw [← List.cons_append, ← scan_taken_eq, List.append_assoc]
    rw [textOf_cons, htext]
    exact cons_of_scan (scan_lookahead hrest) read (ih hr)

end Reads

/-! ## Lexers -/

namespace Lexer

open Lexeme Text

/-- A lexer that holds nothing back. -/
def fresh (p : Nat) (cs : List Char) : Lexer := ⟨p, [], cs⟩

theorem new_eq_fresh (text : List Char) : new text = fresh 0 text := rfl

theorem finish_fresh (p : Nat) (cs : List Char) : (fresh p cs).finish = p + width cs := rfl

theorem run_fresh_nil (p : Nat) : (fresh p []).run = [] := run_of_nil rfl

/-- The lexeme that a fresh lexer reads, and the fresh lexer behind it. -/
theorem run_fresh_of_ok {p : Nat} {c : Char} {cs : List Char} {kind : Kind} {value : Option Number}
    (read : evaluate (scan c cs).shape (scan c cs).taken = .ok (kind, value)) :
    (fresh p (c :: cs)).run =
      .ok ⟨kind, ⟨p, p + width (scan c cs).taken⟩, (scan c cs).taken, value⟩ ::
        (fresh (p + width (scan c cs).taken) (scan c cs).rest).run := by
  rw [run_of_cons (l := fresh p (c :: cs)) rfl]
  simp only [step, fresh, List.nil_append, read]

/-- The error that a fresh lexer meets. -/
theorem run_fresh_of_error {p : Nat} {c : Char} {cs : List Char} {cause : LexicalCause}
    (failed : evaluate (scan c cs).shape (scan c cs).taken = .error cause) :
    ∃ run, (fresh p (c :: cs)).run =
      .error ⟨cause, ⟨p, p + width (scan c cs).taken⟩⟩ :: run := by
  refine ⟨((fresh p (c :: cs)).step c cs).2.run, ?_⟩
  rw [run_of_cons (l := fresh p (c :: cs)) rfl]
  simp only [step, fresh, List.nil_append, failed]

end Lexer

namespace Reads

open Lexeme Text Lexer

/-- Lexemes that are read come first in the run of the lexer. -/
theorem run_eq {p : Nat} {cs r : List Char} {xs : List Lexeme} (h : Reads p cs xs r) :
    (fresh p cs).run = xs.map .ok ++ (fresh (p + width (textOf xs)) r).run := by
  induction h with
  | nil => rfl
  | cons read _ ih =>
    rw [run_fresh_of_ok read, ih, textOf_cons, width_append, Nat.add_assoc]
    rfl

/-- The lexemes at the front of a run are read. -/
theorem of_run {p : Nat} {cs : List Char} {xs : List Lexeme} {run : List (Except Fault Lexeme)}
    (h : (fresh p cs).run = xs.map .ok ++ run) :
    ∃ r, Reads p cs xs r ∧ run = (fresh (p + width (textOf xs)) r).run := by
  -- By induction on the lexemes: the text is not empty, and what is cut off it first is the first
  -- of them.
  induction xs generalizing p cs with
  | nil => exact ⟨cs, .nil, h.symm⟩
  | cons x xs ih =>
    cases cs with
    | nil =>
      rw [run_fresh_nil] at h
      cases h
    | cons c cs =>
      cases he : evaluate (scan c cs).shape (scan c cs).taken with
      | error cause =>
        rcases run_fresh_of_error (p := p) he with ⟨run', hrun⟩
        rw [hrun] at h
        cases h
      | ok result =>
        rcases result with ⟨kind, value⟩
        rw [run_fresh_of_ok he] at h
        simp only [List.map_cons, List.cons_append, List.cons.injEq, Except.ok.injEq] at h
        rcases h with ⟨rfl, h⟩
        rcases ih h with ⟨r, hreads, hrun⟩
        refine ⟨r, .cons he hreads, ?_⟩
        rw [hrun, textOf_cons, width_append, Nat.add_assoc]

end Reads

end Lossless
