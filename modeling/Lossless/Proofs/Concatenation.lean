import Lossless.Proofs.Rewriting

/-!
# Texts put side by side

A text that ends in a line break is read the same whatever is put behind it, because no lexeme goes
on behind a line break. What is read behind it is read as if it stood alone, and only the blanks at
its beginning are drawn to the last terminal in front.

* `Reads.append_line`: the lexemes of a text that ends in a line break;
* `ofLexer_of_blanks`: the stream of a text that begins with blanks;
* `ofLexer_append`: the stream of two texts side by side.
-/

namespace Lossless

open Text Lexeme Lexer

/-! ## Lexemes -/

namespace Lexeme

/-- A carriage return in front of a line feed is one lexeme with it. -/
theorem scan_return (cs : List Char) :
    scan '\r' ('\n' :: cs) = ⟨.plain .newline, ['\r', '\n'], cs⟩ := rfl

theorem mem_takeWhile {p : Char → Bool} {c : Char} {cs : List Char} (h : c ∈ cs.takeWhile p) :
    p c = true :=
  List.all_eq_true.1 List.all_takeWhile c h

/-- What belongs to a number is a digit, a point or the first character. -/
theorem mem_cutNumber {c d : Char} {cs : List Char} (h : d ∈ (cutNumber c cs).taken) :
    d = c ∨ d = '.' ∨ d.isDigit = true := by
  unfold cutNumber at h
  split at h
  · split at h
    · simp only [List.mem_append, List.mem_cons, List.not_mem_nil, or_false] at h
      grind [mem_takeWhile]
    · simp only [List.mem_append, List.mem_cons] at h
      grind [mem_takeWhile]
  · simp only [List.mem_cons] at h
    grind [mem_takeWhile]

/-- The only sign of two characters that ends with a line feed is a line break. -/
theorem pair?_newline {c : Char} {kind : Kind} (h : pair? c '\n' = some kind) :
    kind = .newline := by
  unfold pair? at h
  split at h <;> simp_all

/-- An operator or a word with a line feed in it is a line break. -/
theorem cutOther_newline {c : Char} {cs : List Char} {kind : Kind} {value : Option Number}
    (h : evaluate (cutOther c cs).shape (cutOther c cs).taken = .ok (kind, value))
    (hmem : '\n' ∈ (cutOther c cs).taken) : kind = .newline := by
  unfold cutOther at h hmem
  split at h
  · rename_i pair hpair
    cases h
    obtain ⟨d, hd, hkind⟩ := Option.bind_eq_some_iff.1 hpair
    rw [hpair] at hmem
    cases cs with
    | nil => cases hd
    | cons e cs =>
      cases hd
      simp only [List.take_succ_cons, List.take_zero, List.mem_cons, List.not_mem_nil,
        or_false] at hmem
      rcases hmem with rfl | rfl
      · cases hkind
      · exact pair?_newline hkind
  · rename_i hpair
    rw [hpair] at hmem
    split at h
    · rename_i single hsingle
      cases h
      rw [hsingle] at hmem
      cases List.mem_singleton.1 hmem
      cases hsingle
      rfl
    · -- No word has a line feed in it.
      rename_i hsingle
      rw [hsingle] at hmem
      rcases List.mem_cons.1 hmem with rfl | hmem
      · cases hsingle
      · cases mem_takeWhile hmem

/-- A lexeme with a line feed in it is a line break or a string. -/
theorem scan_newline_or_string {c : Char} {cs : List Char} {kind : Kind} {value : Option Number}
    (h : evaluate (scan c cs).shape (scan c cs).taken = .ok (kind, value))
    (hmem : '\n' ∈ (scan c cs).taken) :
    kind = .newline ∨ kind = .stringLit ∧ (scan c cs).taken.getLast? = some '"' := by
  rcases scan_cases c cs with ⟨rfl, hs⟩ | ⟨rfl, hs⟩ | ⟨rfl, hs⟩ | ⟨hnum, hs⟩ | ⟨-, hs⟩
  · rw [hs] at hmem
    rcases List.mem_cons.1 hmem with hc | hc
    · cases hc
    · cases mem_takeWhile hc
  · rw [hs] at hmem
    rcases List.mem_cons.1 hmem with hc | hc
    · cases hc
    · cases mem_takeWhile hc
  · -- A string ends in a quotation mark.
    rw [hs] at h ⊢
    unfold cutString at h ⊢
    split at h
    · rename_i q rest hdrop
      have hq := List.head?_dropWhile_not (· != '"') cs
      rw [hdrop] at hq
      cases h
      refine Or.inr ⟨rfl, ?_⟩
      rw [List.getLast?_append, List.getLast?_singleton, Option.some_or]
      simpa using hq
    · cases h
  · -- No number has a line feed in it.
    rw [hs] at hmem
    rcases mem_cutNumber hmem with rfl | hc | hc
    · cases cs <;> simp [startsNumber] at hnum
    · cases hc
    · cases hc
  · rw [hs] at h hmem
    exact Or.inl (cutOther_newline h hmem)

/-- A lexeme that ends in a line feed is a line break. -/
theorem scan_newline {c : Char} {cs : List Char} {kind : Kind} {value : Option Number}
    (h : evaluate (scan c cs).shape (scan c cs).taken = .ok (kind, value))
    (hlast : (scan c cs).taken.getLast? = some '\n') : kind = .newline := by
  rcases scan_newline_or_string h (List.mem_of_getLast? hlast) with hkind | ⟨-, hquote⟩
  · exact hkind
  · rw [hquote] at hlast
    cases hlast

end Lexeme

/-- The end of a text is that of its second part, if there is one. -/
theorem getLast?_of_append {cs ds : List Char} (h : ds ≠ []) :
    (cs ++ ds).getLast? = ds.getLast? := by
  rw [List.getLast?_append, List.getLast?_eq_some_getLast h, Option.some_or]

namespace Reads

variable {p : Nat} {cs r : List Char} {xs : List Lexeme}

/-- A lexeme that ends with the text in a line feed is the same in front of any other text. -/
theorem singleton_line {c : Char} {kind : Kind} {value : Option Number}
    (read : evaluate (scan c cs).shape (scan c cs).taken = .ok (kind, value))
    (hrest : (scan c cs).rest = []) (hlast : (c :: cs).getLast? = some '\n') (p : Nat)
    (b : List Char) :
    Reads p (c :: cs ++ b)
      [⟨kind, ⟨p, p + width (scan c cs).taken⟩, (scan c cs).taken, value⟩] b := by
  have hcut := scan_append c cs
  rw [hrest, List.append_nil] at hcut
  have hkind := scan_newline read (by rw [hcut]; exact hlast)
  subst hkind
  -- There are two ways to write a line break.
  have hspell := scan_spells read
  rw [hcut] at hspell
  simp only [Kind.spells, Bool.or_eq_true, beq_iff_eq] at hspell
  rcases hspell with h | h
  · cases h
    cases read
    exact .cons_of_scan (Spacing.scan_line b) rfl .nil
  · cases h
    cases read
    exact .cons_of_scan (scan_return b) rfl .nil

/-- A text that ends in a line feed is read the same in front of any other text. -/
theorem append_line (h : Reads p cs xs []) (hlast : cs.getLast? = some '\n') (b : List Char) :
    Reads p (cs ++ b) xs b := by
  generalize hr : ([] : List Char) = r at h
  induction h with
  | nil =>
    subst hr
    cases hlast
  | @cons p c cs r kind value xs read more ih =>
    subst hr
    by_cases hrest : (scan c cs).rest = []
    · rw [hrest] at more
      cases more
      exact singleton_line read hrest hlast p b
    · -- The lexeme is followed by the same character as before.
      have hcut := scan_append c cs
      have hfollows : Follows (scan c cs).rest ((scan c cs).rest ++ b) := by
        right
        rw [List.head?_append, List.head?_eq_some_head hrest, Option.some_or]
      have htext : c :: cs ++ b = c :: ((scan c cs).taken.tail ++ ((scan c cs).rest ++ b)) := by
        rw [← List.cons_append, ← scan_taken_eq, ← List.append_assoc, hcut]
      rw [← hcut, getLast?_of_append hrest] at hlast
      rw [htext]
      exact cons_of_scan (scan_lookahead hfollows) read (ih hlast rfl)

/-- A text is sharp iff the first lexeme read from it is not blank. -/
theorem isSharp_eq {x : Lexeme} (h : Reads p cs (x :: xs) r) : isSharp cs = !x.kind.isBlank := by
  cases h with
  | cons read more => simp [isSharp, read]

/-- The last lexeme of a text that ends in a line feed is a line break. -/
theorem last_newline {y : Lexeme} (h : Reads p cs (xs ++ [y]) [])
    (hlast : cs.getLast? = some '\n') : y.kind = .newline := by
  obtain ⟨m, hxs, hy⟩ := h.split
  have htext := hxs.text_eq
  cases hy with
  | @cons _ c m _ kind value _ read more =>
    have hcut := scan_append c m
    generalize hrest : (scan c m).rest = rest at more
    cases more
    rw [hrest, List.append_nil] at hcut
    rw [htext, getLast?_of_append (List.cons_ne_nil _ _), ← hcut] at hlast
    exact scan_newline read hlast

end Reads

/-- A line ends in the blanks behind the last terminal of a text that ends in a line feed. -/
theorem contains_newline {p : Nat} {cs : List Char} {before after : List Lexeme} {x : Lexeme}
    (h : Reads p cs (before ++ x :: after) []) (hx : x.kind.isBlank = false)
    (hlast : cs.getLast? = some '\n') :
    Trivia.contains ⟨piecesOf after⟩ .newline = true := by
  rcases List.eq_nil_or_concat after with rfl | ⟨ys, y, rfl⟩
  · rw [h.last_newline hlast] at hx
    cases hx
  · rw [List.concat_eq_append] at h ⊢
    have hy : y.kind = .newline := by
      rw [← List.cons_append, ← List.append_assoc] at h
      exact h.last_newline hlast
    simp [Trivia.contains, piecesOf, List.filterMap_append, piece?, hy]

/-- The last terminal of a text has the end of the text. -/
theorem Yielding.getLast?_eq {p : Nat} {cs m : List Char} {us : List Terminal} {z : Terminal}
    (hus : Yielding p cs us m) (hz : Yields (p + width (Terminal.charsOf us)) m z []) :
    m.getLast? = cs.getLast? := by
  have hne : m ≠ [] := by
    rintro rfl
    exact absurd hz.length_lt (Nat.lt_irrefl 0)
  rw [hus.text_eq, getLast?_of_append hne]

/-- A line ends behind the last terminal of a text that ends in a line feed. -/
theorem Yielding.endsLine {p : Nat} {cs : List Char} {us : List Terminal} {z : Terminal}
    (h : Yielding p cs (us ++ [z]) []) (hlast : cs.getLast? = some '\n') :
    z.token.trailing.contains .newline = true := by
  obtain ⟨m, hus, hz⟩ := h.split
  cases hz with | cons hz hnil =>
  cases hnil
  rw [← hus.getLast?_eq hz] at hlast
  obtain ⟨reads, front, core, back, sharp⟩ := hz
  exact contains_newline reads core hlast

theorem Lexeme.AllBlank.append {xs ys : List Lexeme} (hxs : AllBlank xs) (hys : AllBlank ys) :
    AllBlank (xs ++ ys) := by
  intro y hy
  exact (List.mem_append.1 hy).elim (hxs y) (hys y)

/-- Behind blanks an error is the same. -/
theorem Reads.faulty {p : Nat} {cs r : List Char} {xs : List Lexeme} {f : Fault}
    (h : Reads p cs xs r) (hb : AllBlank xs) (hf : Faulty (p + width (textOf xs)) r f) :
    Faulty p cs f := by
  obtain ⟨reads, blank, failed⟩ := hf
  have hfaulty := Faulty.intro (h.append reads) (hb.append blank) failed
  rw [textOf_append, width_append, ← Nat.add_assoc] at hfaulty
  exact hfaulty

/-! ## Streams -/

def Terminal.withLeading (blanks : Trivia) (t : Terminal) : Terminal :=
  { t with token := { t.token with leading := blanks } }

def Terminal.withTrailing (blanks : Trivia) (t : Terminal) : Terminal :=
  { t with token := { t.token with trailing := blanks } }

namespace Stream

open Terminal

/-- The stream behind some more blanks. They go to the first terminal, if there is one. -/
def behind (blanks : Trivia) : Stream → Stream
  | ⟨[], ending⟩ => ⟨[], ending⟩
  | ⟨t :: ts, ending⟩ => ⟨t.withLeading (blanks ++ t.token.leading) :: ts, ending⟩

/-- Blanks at the beginning of a text are those in front of its first terminal. -/
theorem ofLexer_of_blanks {p : Nat} {cs r : List Char} {xs : List Lexeme} (h : Reads p cs xs r)
    (hb : AllBlank xs) :
    ofLexer (fresh p cs) = (ofLexer (fresh (p + width (textOf xs)) r)).behind ⟨piecesOf xs⟩ := by
  have hfinish : (fresh p cs).finish = (fresh (p + width (textOf xs)) r).finish := by
    rw [finish_fresh, finish_fresh, h.text_eq, width_append, Nat.add_assoc]
  rw [ofLexer, ofLexer, hfinish, h.run_eq, ofRun_eq, ofRun_eq _ (fresh _ r).run, promote, promote,
    Gap.read_blanks hb]
  cases Gap.read (fresh (p + width (textOf xs)) r).run with
  | fault f rest => rfl
  | finish blanks => rfl
  | lexeme blanks x rest =>
    dsimp only [Gap.behind]
    cases Gap.read rest <;> rfl

/-- The first terminal of a text that begins with no blank has none in front. -/
theorem leading_of_sharp {p : Nat} {cs : List Char} (h : isSharp cs = true) {t : Terminal}
    {ts : List Terminal} (ht : (ofLexer (fresh p cs)).terminals = t :: ts) :
    t.token.leading = .empty := by
  rcases ofLexer_cases p cs with ⟨u, r, hu⟩ | ⟨xs, hxs, hblank⟩ | ⟨f, hf⟩
  · rw [ofLexer_of_yields hu] at ht
    cases ht
    exact hu.sharp_iff.1 h
  · rw [ofLexer_of_blank hxs hblank] at ht
    cases ht
    cases hxs with
    | nil => rfl
    | @cons _ c cs _ kind value _ read more =>
      have hb : kind.isBlank = true := hblank _ List.mem_cons_self
      simp [isSharp, read, hb] at h
  · rw [hf] at ht
    cases ht

/-- A stream of a text without terminals begins with an error. -/
theorem exists_fault {p : Nat} {cs : List Char} (h : (ofLexer (fresh p cs)).terminals = []) :
    ∃ f, ofLexer (fresh p cs) = ⟨[], .fault f⟩ := by
  rcases ofLexer_cases p cs with ⟨t, r, ht⟩ | ⟨xs, hxs, hblank⟩ | hf
  · rw [ofLexer_of_yields ht] at h
    cases h
  · rw [ofLexer_of_blank hxs hblank] at h
    cases h
  · exact hf

/-- Behind the last terminal `z` of a text another text goes on. The blanks at its beginning are
drawn to `z`, and `z` is lost if an error comes right behind them. -/
inductive Joins (us : List Terminal) (z : Terminal) : Stream → Stream → Prop where
  | drawn {v : Terminal} {vs : List Terminal} {ending : Ending} :
      Joins us z ⟨v :: vs, ending⟩
        ⟨us ++ z.withTrailing (z.token.trailing ++ v.token.leading) :: v.withLeading .empty :: vs,
          ending⟩
  | kept {blanks : Trivia} {f : Fault} :
      Joins us z ⟨[], .fault f⟩ ⟨us ++ [z.withTrailing (z.token.trailing ++ blanks)], .fault f⟩
  | lost {f : Fault} : Joins us z ⟨[], .fault f⟩ ⟨us, .fault f⟩

/-- The blanks in front of a text that begins with none are drawn to `z`. -/
theorem Joins.of_sharp {us : List Terminal} {z : Terminal} {p : Nat} {r : List Char}
    (hr : isSharp r = true) (blanks : Trivia) :
    Joins us z ((ofLexer (fresh p r)).behind blanks)
      ⟨us ++ z.withTrailing (z.token.trailing ++ blanks) :: (ofLexer (fresh p r)).terminals,
        (ofLexer (fresh p r)).ending⟩ := by
  cases hs : ofLexer (fresh p r) with | mk terminals ending =>
  cases terminals with
  -- A text that begins with no blank has a terminal or an error in front.
  | nil =>
    have hnil : (ofLexer (fresh p r)).terminals = [] := by rw [hs]
    obtain ⟨f, hf⟩ := exists_fault hnil
    cases hs.symm.trans hf
    exact .kept
  | cons t ts =>
    have hlead : t.token.leading = .empty := leading_of_sharp (p := p) hr (by rw [hs])
    -- The first terminal has no blanks of its own, so drawing all of them leaves it as it is.
    have hback : (t.withLeading blanks).withLeading .empty = t := by
      rw [← hlead]
      rfl
    have hjoins := @Joins.drawn us z (t.withLeading blanks) ts ending
    rw [hback] at hjoins
    have hblanks : blanks ++ t.token.leading = blanks := by
      rw [hlead]
      exact congrArg Trivia.mk (List.append_nil _)
    rw [behind, hblanks]
    exact hjoins

/-- The terminals in front of the last one stay the same whatever follows the line feed. -/
theorem yielding_append {a m b : List Char} {us : List Terminal} {xs : List Lexeme}
    (hus : Yielding 0 a us m) (hxs : Reads (0 + width (charsOf us)) m xs [])
    (hlast : m.getLast? = some '\n') : Yielding 0 (a ++ b) us (m ++ b) := by
  have hxs' := hxs.append_line hlast b
  rw [hus.text_eq, List.append_assoc]
  cases us with
  | nil => exact .nil
  | cons u us =>
    have hsharp := hus.sharp (List.cons_ne_nil u us)
    cases xs with
    | nil =>
      cases hxs
      cases hlast
    | cons x xs =>
      rw [hxs.isSharp_eq, ← hxs'.isSharp_eq] at hsharp
      refine hus.lookahead ?_ hsharp
      cases m with
      | nil => cases hlast
      | cons c m => exact .cons c m (m ++ b)

/-- The stream of a text behind another one that ends in a line feed. -/
theorem ofLexer_append {a b : List Char} {us : List Terminal} {z : Terminal}
    (h : Yielding 0 a (us ++ [z]) []) (hlast : a.getLast? = some '\n') :
    Joins us z (ofLexer (fresh (width a) b)) (ofLexer (fresh 0 (a ++ b))) := by
  obtain ⟨m, hus, hz⟩ := h.split
  cases hz with | cons hz hnil =>
  cases hnil
  have htext := hus.text_eq
  have hm := hus.getLast?_eq hz
  rw [hlast] at hm
  obtain ⟨reads, front, core, back, -⟩ := hz
  rename_i before after x
  have hplace : 0 + width (charsOf us) + width (textOf (before ++ x :: after)) = width a := by
    have hreads := reads.text_eq
    rw [List.append_nil] at hreads
    rw [Nat.zero_add, ← width_append, ← hreads, ← htext]
  have hfront := yielding_append (b := b) hus reads hm
  have hline := reads.append_line hm b
  rcases sharp_or_faulty (width a) b with ⟨xs, r, hxs, hblank, hr⟩ | ⟨f, hf⟩
  · -- The blanks `xs` go on with those behind `x`.
    have hlong := hline.append (hplace.symm ▸ hxs)
    rw [List.append_assoc, List.cons_append] at hlong
    have hback := back.append hblank
    have hz := Yields.intro hlong front core hback hr
    have hstream := (hfront.append (.cons hz .nil)).stream_eq
    have hrest : 0 + width (charsOf (us ++
        [ofLexeme x (piecesOf before) (piecesOf (after ++ xs))])) =
        width a + width (textOf xs) := by
      rw [charsOf_append, charsOf_cons, charsOf_nil, List.append_nil, width_append,
        Yields.chars_ofLexeme hlong front hback, ← List.cons_append, ← List.append_assoc,
        textOf_append _ xs, width_append, ← hplace]
      omega
    rw [hrest] at hstream
    rw [hstream, ofLexer_of_blanks hxs hblank, List.append_assoc]
    simp only [piecesOf, List.filterMap_append]
    exact .of_sharp hr ⟨piecesOf xs⟩
  · -- The blanks behind `x` end in the error, so there is no terminal for `x`.
    have hhead : before ++ x :: after = before ++ [x] ++ after := by simp
    rw [hhead] at hline hplace
    obtain ⟨n, hx, hafter⟩ := hline.split
    rw [textOf_append, width_append, ← Nat.add_assoc] at hplace
    rw [hfront.stream_eq, ofLexer_of_faulty hf,
      ofLexer_of_faulty_behind hx front core (hafter.faulty back (hplace.symm ▸ hf)),
      List.append_nil]
    exact .lost

/-- The stream of a text behind a blank one that ends in a line feed. -/
theorem ofLexer_append_blank {a b : List Char} {e : Terminal}
    (he : (ofLexer (fresh 0 a)).ahead 0 = .ok e) (hk : e.token.kind = .endOfInput)
    (hlast : a.getLast? = some '\n') :
    ofLexer (fresh 0 (a ++ b)) = (ofLexer (fresh (width a) b)).behind e.token.leading := by
  rcases ofLexer_cases 0 a with ⟨t, r, ht⟩ | ⟨xs, hxs, hblank⟩ | ⟨f, hf⟩
  · have hlt := ht.kind_lt
    rw [ofLexer_of_yields ht] at he
    cases he
    rw [hk] at hlt
    exact absurd hlt (Nat.lt_irrefl _)
  · have htext := hxs.text_eq
    rw [List.append_nil] at htext
    have hstream := ofLexer_of_blanks (hxs.append_line hlast b) hblank
    rw [← htext, Nat.zero_add] at hstream
    rw [ofLexer_of_blank hxs hblank] at he
    cases he
    exact hstream
  · rw [hf] at he
    cases he

end Stream

end Lossless
