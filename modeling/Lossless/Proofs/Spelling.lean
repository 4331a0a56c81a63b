import Lossless.Proofs.Terminals
import Lossless.Text.Hex

/-!
# Writing tokens down

A text that is put together from tokens, with at most one blank behind each, is read back as these
tokens. `Written` says how such a text is put together: each token must end where the lexer ends it,
which depends on what is written next. `Written.exists_stream` gives the stream of the text.

Two kinds of token are not known letter by letter in advance. A `Word` is any text that the lexer
takes for one identifier; it ends where a character follows that ends a word (`Written.word`). The
digits of an offset may be written in either case, with zeros in front (`Offset.digits`); whatever
the choice, they are read back as the offset (`Offset.hexOffset?_eq`).
-/

namespace Lossless

open Lexeme Text Lexer

/-! ## Blanks between tokens -/

/-- What is written between a token and the next one. -/
inductive Spacing where
  | nothing
  | space
  | line
deriving DecidableEq, Repr

namespace Spacing

def chars : Spacing → List Char
  | .nothing => []
  | .space => [' ']
  | .line => ['\n']

/-- The trivia that the blank is read as. -/
def trivia : Spacing → Trivia
  | .nothing => .empty
  | .space => ⟨[⟨.whitespace, 1⟩]⟩
  | .line => ⟨[⟨.newline, 1⟩]⟩

@[simp] theorem chars_nothing : nothing.chars = [] := rfl

@[simp] theorem chars_space : space.chars = [' '] := rfl

@[simp] theorem chars_line : line.chars = ['\n'] := rfl

/-- A single space is read on its own if no other space follows. -/
theorem scan_space {cs : List Char} (h : isSharp cs = true) :
    scan ' ' cs = ⟨.plain .whitespace, [' '], cs⟩ := by
  cases cs with
  | nil => rfl
  | cons d cs =>
    have hd : d ≠ ' ' := by
      rintro rfl
      cases h
    simp [scan, cutRun, hd]

theorem scan_line (cs : List Char) : scan '\n' cs = ⟨.plain .newline, ['\n'], cs⟩ := by
  cases cs <;> rfl

/-- A blank in front of a text that begins with none is read as its trivia. -/
theorem exists_reads (s : Spacing) {cs : List Char} (h : isSharp cs = true) (p : Nat) :
    ∃ xs, Reads p (s.chars ++ cs) xs cs ∧ AllBlank xs ∧ s.trivia = ⟨piecesOf xs⟩ := by
  cases s with
  | nothing => exact ⟨[], .nil, .nil, rfl⟩
  | space =>
    refine ⟨_, .cons_of_scan (scan_space h) rfl .nil, .cons rfl .nil, ?_⟩
    simp [piecesOf, piece?, trivia, Span.length, Text.width, show ' '.utf8Size = 1 from rfl]
  | line =>
    refine ⟨_, .cons_of_scan (scan_line cs) rfl .nil, .cons rfl .nil, ?_⟩
    simp [piecesOf, piece?, trivia, Span.length, Text.width, show '\n'.utf8Size = 1 from rfl]

end Spacing

/-! ## Tokens in a row -/

/-- A token as it is written, with the blank behind it. -/
def Token.spelled (kind : Kind) (word : List Char) (s : Spacing) (value : Option Number) :
    Token where
  kind := kind
  text := String.ofList word
  value := value
  trailing := s.trivia

/-- A text that is put together from tokens. -/
inductive Written : List Char → List Token → Prop where
  | nil : Written [] []
  | cons {c : Char} {w cs : List Char} {shape : Shape} {kind : Kind} {value : Option Number}
      {s : Spacing} {ts : List Token}
      (cut : scan c (w ++ (s.chars ++ cs)) = ⟨shape, c :: w, s.chars ++ cs⟩)
      (read : evaluate shape (c :: w) = .ok (kind, value)) (core : kind.isBlank = false)
      (plain : kind ≠ .stringLit) (more : Written cs ts) :
      Written (c :: (w ++ (s.chars ++ cs))) (.spelled kind (c :: w) s value :: ts)

namespace Written

/-- A text put together from tokens begins with no blank. -/
theorem sharp {cs : List Char} {ts : List Token} (h : Written cs ts) : isSharp cs = true := by
  cases h with
  | nil => rfl
  | cons cut read core _ _ => simp [isSharp, cut, read, core]

/-- The tokens are read back from the text, wherever it stands. -/
theorem exists_yielding {cs : List Char} {ts : List Token} (h : Written cs ts) (p : Nat) :
    ∃ us, Yielding p cs us [] ∧ us.map Terminal.token = ts := by
  induction h generalizing p with
  | nil => exact ⟨[], .nil, rfl⟩
  | @cons c w cs shape kind value s ts cut read core plain more ih =>
    rcases s.exists_reads more.sharp (p + width (c :: w)) with ⟨xs, hblank, hall, htrivia⟩
    have hreads : Reads p (c :: (w ++ (s.chars ++ cs)))
        ([] ++ ⟨kind, ⟨p, p + width (c :: w)⟩, c :: w, value⟩ :: xs) cs :=
      .cons_of_scan cut read hblank
    have hfirst := Yields.intro hreads .nil core hall more.sharp
    rcases ih (p + width (Terminal.token _).chars) with ⟨us, hus, hmap⟩
    refine ⟨_, .cons hfirst hus, ?_⟩
    rw [List.map_cons, hmap]
    simp [Terminal.ofLexeme, ownText, plain, Token.spelled, htrivia, piecesOf, Trivia.empty]

/-- The stream of the text has the tokens in order and then the end of the text. -/
theorem exists_stream {cs : List Char} {ts : List Token} (h : Written cs ts) :
    ∃ us n, Stream.ofLexer (Lexer.new cs) = ⟨us ++ [.finish n []], .finish n⟩ ∧
      us.map Terminal.token = ts := by
  rcases h.exists_yielding 0 with ⟨us, hus, hmap⟩
  refine ⟨us, width cs, ?_, hmap⟩
  have hwidth : 0 + width (Terminal.charsOf us) + width [] = width cs := by
    rw [hus.text_eq]
    simp
  rw [new_eq_fresh, hus.stream_eq, Stream.ofLexer_of_blank .nil .nil, hwidth]
  rfl

/-- A token of one character that goes with no other. -/
theorem mark {c : Char} {kind : Kind} (cut : ∀ r, scan c r = ⟨.plain kind, [c], r⟩)
    (core : kind.isBlank = false) (plain : kind ≠ .stringLit) (s : Spacing) {cs : List Char}
    {ts : List Token} (more : Written cs ts) :
    Written (c :: (s.chars ++ cs)) (.spelled kind [c] s none :: ts) :=
  .cons (w := []) (cut _) rfl core plain more

theorem leftBrace (s : Spacing) {cs : List Char} {ts : List Token} (more : Written cs ts) :
    Written ('{' :: (s.chars ++ cs)) (.spelled .leftBrace ['{'] s none :: ts) :=
  .mark (fun r => by cases r <;> rfl) rfl (by decide) s more

theorem rightBrace (s : Spacing) {cs : List Char} {ts : List Token} (more : Written cs ts) :
    Written ('}' :: (s.chars ++ cs)) (.spelled .rightBrace ['}'] s none :: ts) :=
  .mark (fun r => by cases r <;> rfl) rfl (by decide) s more

theorem semicolon (s : Spacing) {cs : List Char} {ts : List Token} (more : Written cs ts) :
    Written (';' :: (s.chars ++ cs)) (.spelled .semicolon [';'] s none :: ts) :=
  .mark (fun r => by cases r <;> rfl) rfl (by decide) s more

theorem slashes (s : Spacing) {cs : List Char} {ts : List Token} (more : Written cs ts) :
    Written ('/' :: '/' :: (s.chars ++ cs)) (.spelled .doubleSlash ['/', '/'] s none :: ts) :=
  .cons (w := ['/']) rfl rfl rfl (by decide) more

end Written

/-! ## Words -/

namespace Lexeme

/-- Whether a word can start with a character. -/
def startsWord (c : Char) : Bool :=
  c != ' ' && c != '\t' && c != '"' && !c.isDigit && (single? c).isNone

/-- Whether a text is a word: its first character can start one, and no other ends it. -/
def isWord : List Char → Bool
  | [] => false
  | c :: cs => startsWord c && cs.all fun d => !isBoundary d

theorem pair?_eq_none {c : Char} (h : single? c = none) (d : Char) : pair? c d = none := by
  unfold pair?
  split
  all_goals first | rfl | cases h

theorem pair?_ne_ident (c d : Char) : pair? c d ≠ some .ident := by
  intro h
  unfold pair? at h
  split at h <;> cases h

theorem single?_ne_ident (c : Char) : single? c ≠ some .ident := by
  intro h
  unfold single? at h
  split at h <;> cases h

/-- A word ends in front of a character that ends words. -/
theorem scan_word {c : Char} {w r : List Char} (hw : isWord (c :: w) = true)
    (hr : ∀ d ∈ r.head?, isBoundary d = true) :
    scan c (w ++ r) = ⟨.plain .ident, c :: w, r⟩ := by
  rcases Bool.and_eq_true_iff.1 hw with ⟨hc, hall⟩
  have hall := List.all_eq_true.1 hall
  simp only [startsWord, Bool.and_eq_true, bne_iff_ne, Bool.not_eq_true', Option.isNone_iff_eq_none]
    at hc
  rcases hc with ⟨⟨⟨⟨hspace, htab⟩, hquote⟩, hdigit⟩, hsingle⟩
  -- A sign is a lexeme of its own, so the word starts with none.
  have hsign : ∀ d, single? d ≠ none → c ≠ d := by
    rintro d hd rfl
    exact hd hsingle
  have hnum : startsNumber c (w ++ r) = false := by
    simp [startsNumber, hdigit, hsign '+' (by decide), hsign '-' (by decide)]
  have hpair : (w ++ r).head?.bind (pair? c) = none := by
    cases (w ++ r).head? with
    | none => rfl
    | some d => exact pair?_eq_none hsingle d
  rw [scan_of_other hspace htab hquote hnum]
  simp only [cutOther, hpair, hsingle, cutRun]
  rw [List.takeWhile_append_of_pos hall, List.dropWhile_append_of_pos hall]
  cases r with
  | nil => simp
  | cons d r =>
    have hd := hr d rfl
    simp [hd]

/-- A lexeme that is no run of blanks, no string and no number is an operator or a word. -/
theorem scan_of_kind {c : Char} {cs : List Char} {kind : Kind} {value : Option Number}
    (h : evaluate (scan c cs).shape (scan c cs).taken = .ok (kind, value))
    (hkind : kind ∉ [Kind.whitespace, .tab, .stringLit, .numberLit]) :
    (c ≠ ' ' ∧ c ≠ '\t' ∧ c ≠ '"' ∧ startsNumber c cs = false) ∧ scan c cs = cutOther c cs := by
  -- The other four cuts give the kinds that are excluded, or an error.
  rcases scan_cases c cs with ⟨-, hs⟩ | ⟨-, hs⟩ | ⟨-, hs⟩ | ⟨-, hs⟩ | hother
  · rw [hs] at h
    cases h
    simp at hkind
  · rw [hs] at h
    cases h
    simp at hkind
  · rw [hs, cutString] at h
    split at h
    · cases h
      simp at hkind
    · cases h
  · rw [hs] at h
    rw [cutNumber_kind h] at hkind
    simp at hkind
  · exact hother

/-- An identifier is cut off from the first character to the first one that ends a word. -/
theorem scan_of_ident {c : Char} {cs : List Char} {value : Option Number}
    (h : evaluate (scan c cs).shape (scan c cs).taken = .ok (.ident, value)) :
    startsWord c = true ∧ (scan c cs).rest = cs.dropWhile fun d => !isBoundary d := by
  rcases scan_of_kind h (by decide) with ⟨⟨hspace, htab, hquote, hnum⟩, hs⟩
  have hdigit : c.isDigit = false := (Bool.or_eq_false_iff.1 hnum).1
  rw [hs] at h ⊢
  unfold cutOther at h ⊢
  split at h
  · rename_i k hk
    cases h
    cases cs with
    | nil => cases hk
    | cons d cs => exact absurd hk (pair?_ne_ident c d)
  · split at h
    · rename_i k hk
      cases h
      exact absurd hk (single?_ne_ident c)
    · rename_i hsingle
      simp [startsWord, hspace, htab, hquote, hdigit, hsingle, cutRun]

end Lexeme

/-- A text that the lexer takes for one identifier. -/
structure Word where
  text : String
  lexed : ∃ x, (Lexer.new text.toList).run = [.ok x] ∧ x.kind = .ident

/-- What the lexer takes for one identifier is a word. -/
theorem Word.isWord (w : Word) : Lexeme.isWord w.text.toList = true := by
  rcases w with ⟨text, x, hrun, hx⟩
  have hmap : (fresh 0 text.toList).run = [x].map .ok ++ [] := hrun
  rcases Reads.of_run hmap with ⟨r, hreads, hrest⟩
  -- Nothing is left behind the only lexeme.
  have hr : r = [] := by
    cases r with
    | nil => rfl
    | cons c r =>
      rw [run_of_cons rfl] at hrest
      cases hrest
  subst hr
  generalize text.toList = cs at hreads ⊢
  cases hreads with
  | @cons _ c cs _ kind value _ read more =>
    have hkind : kind = .ident := hx
    subst hkind
    rcases scan_of_ident read with ⟨hc, hcut⟩
    have hdrop : cs.dropWhile (fun d => !isBoundary d) = [] := by
      rw [← hcut]
      generalize (scan c cs).rest = rest at more
      cases more
      rfl
    have htake : cs.takeWhile (fun d => !isBoundary d) = cs := by
      rw [← List.append_nil (cs.takeWhile _), ← hdrop]
      exact List.takeWhile_append_dropWhile
    rw [Lexeme.isWord, hc, ← htake]
    exact List.all_takeWhile

/-- A word is lexed as one identifier. -/
theorem exists_run_of_isWord {cs : List Char} (h : isWord cs = true) :
    ∃ x, (Lexer.new cs).run = [.ok x] ∧ x.kind = .ident := by
  cases cs with
  | nil => cases h
  | cons c cs =>
    have hscan := scan_word (r := []) h (by simp)
    rw [List.append_nil] at hscan
    have hreads : Reads 0 (c :: cs) [⟨.ident, ⟨0, 0 + width (c :: cs)⟩, c :: cs, none⟩] [] :=
      .cons_of_scan hscan rfl .nil
    refine ⟨⟨.ident, ⟨0, 0 + width (c :: cs)⟩, c :: cs, none⟩, ?_, rfl⟩
    rw [new_eq_fresh, hreads.run_eq, run_fresh_nil]
    rfl

/-- A word that is known to be one. -/
def Word.ofText (text : String) (h : Lexeme.isWord text.toList = true) : Word :=
  ⟨text, exists_run_of_isWord h⟩

/-- A word is written as one token if a character that ends words follows it. -/
theorem Written.word {w : List Char} (hw : isWord w = true) (s : Spacing) {cs : List Char}
    {ts : List Token} (hnext : ∀ d ∈ (s.chars ++ cs).head?, isBoundary d = true)
    (more : Written cs ts) :
    Written (w ++ (s.chars ++ cs)) (.spelled .ident w s none :: ts) := by
  cases w with
  | nil => cases hw
  | cons c w => exact .cons (scan_word hw hnext) rfl rfl (by decide) more

/-! ## Hexadecimal digits -/

namespace Text

/-- A hexadecimal digit never ends a word. -/
theorem isBoundary_of_hexDigit {c : Char} {d : Nat} (h : hexDigit? c = some d) :
    isBoundary c = false := by
  apply Bool.eq_false_iff.2
  intro hc
  simp only [isBoundary, List.contains_eq_mem, decide_eq_true_eq, List.mem_cons, List.not_mem_nil,
    or_false] at hc
  rcases hc with rfl | rfl | rfl | rfl | rfl | rfl | rfl | rfl | rfl | rfl | rfl | rfl | rfl | rfl |
    rfl | rfl | rfl | rfl | rfl | rfl | rfl
  all_goals cases h

/-- A hexadecimal digit is not a blank. -/
theorem isBlank_of_hexDigit {c : Char} {d : Nat} (h : hexDigit? c = some d) :
    isBlank c = false := by
  have hrange : 48 ≤ c.toNat ∧ c.toNat ≤ 102 := by
    unfold hexDigit? at h
    split at h
    · rename_i hc
      exact ⟨hc.1, Nat.le_trans hc.2 (by decide)⟩
    split at h
    · rename_i hc
      exact ⟨Nat.le_trans (by decide) hc.1, hc.2⟩
    split at h
    · rename_i hc
      exact ⟨Nat.le_trans (by decide) hc.1, Nat.le_trans hc.2 (by decide)⟩
    · cases h
  simp only [isBlank, blankRanges, List.any_cons, List.any_nil, Bool.or_false, Bool.or_eq_false_iff,
    Bool.and_eq_false_iff, decide_eq_false_iff_not]
  omega

/-- A text without white space stays as it is. -/
theorem trim_eq_self {cs : List Char} (h : ∀ c ∈ cs, isBlank c = false) : trim cs = cs := by
  have hdrop : ∀ ds : List Char, (∀ c ∈ ds, isBlank c = false) → ds.dropWhile isBlank = ds := by
    intro ds hds
    cases ds with
    | nil => rfl
    | cons c ds => simp [hds c List.mem_cons_self]
  rw [trim, trimStart, hdrop cs h, trimEnd, hdrop cs.reverse, List.reverse_reverse]
  intro c hc
  exact h c (List.mem_reverse.1 hc)

/-- A digit in upper or lower case. -/
def cased (upper : Bool) (c : Char) : Char := if upper then c.toUpper else c

/-- A digit has its value in either case. -/
theorem hexDigit?_cased {d : Nat} (h : d < 16) (upper : Bool) :
    hexDigit? (cased upper d.digitChar) = some d := by
  have hall : ∀ d < 16, ∀ upper, hexDigit? (cased upper d.digitChar) = some d := by decide
  exact hall d h upper

theorem ofHexDigits_append (ds : List Nat) (d : Nat) :
    ofHexDigits (ds ++ [d]) = 16 * ofHexDigits ds + d := by
  simp [ofHexDigits]

/-- Leading zeros add nothing to the number. -/
theorem ofHexDigits_zeros (n : Nat) (ds : List Nat) :
    ofHexDigits (List.replicate n 0 ++ ds) = ofHexDigits ds := by
  induction n with
  | zero => rfl
  | succ n ih =>
    rw [List.replicate_succ, List.cons_append]
    exact ih

/-- The digits of a number have its value, whatever the case of each. -/
theorem mapM_toDigits (upper : Nat → Bool) (n : Nat) :
    ∃ ds, ((Nat.toDigits 16 n).mapIdx fun i c => cased (upper i) c).mapM hexDigit? = some ds ∧
      ofHexDigits ds = n := by
  induction n using Nat.strongRecOn with
  | ind n ih =>
    by_cases hn : n < 16
    · refine ⟨[n], ?_, by simp [ofHexDigits]⟩
      rw [Nat.toDigits_of_lt_base hn]
      simp [hexDigit?_cased hn]
    · -- The last digit is the remainder, and the others are those of the quotient.
      rcases ih (n / 16) (by omega) with ⟨ds, hds, hvalue⟩
      have hlast : n % 16 < 16 := Nat.mod_lt n (by decide)
      refine ⟨ds ++ [n % 16], ?_, ?_⟩
      · rw [Nat.toDigits_of_base_le (by decide) (by omega), List.mapIdx_append, List.mapM_append,
          hds]
        simp [hexDigit?_cased hlast]
      · rw [ofHexDigits_append, hvalue]
        omega

theorem mapM_zeros (n : Nat) :
    (List.replicate n '0').mapM hexDigit? = some (List.replicate n 0) := by
  induction n with
  | zero => rfl
  | succ n ih =>
    rw [List.replicate_succ, List.mapM_cons, ih]
    rfl

/-- All characters of a text that is read as digits are digits. -/
theorem exists_hexDigit {cs : List Char} {ds : List Nat} (h : cs.mapM hexDigit? = some ds) :
    ∀ c ∈ cs, ∃ d, hexDigit? c = some d := by
  induction cs generalizing ds with
  | nil => simp
  | cons a cs ih =>
    rw [List.mapM_cons] at h
    simp only [Option.bind_eq_bind, Option.bind_eq_some_iff] at h
    rcases h with ⟨d, hd, ds', hds, -⟩
    intro c hc
    rcases List.mem_cons.1 hc with rfl | hc
    · exact ⟨d, hd⟩
    · exact ih hds c hc

end Text

/-- The letter of the mark and hexadecimal digits make a word. -/
theorem isWord_mark {digits : List Char} (h : ∀ c ∈ digits, ∃ d, hexDigit? c = some d) :
    isWord ('x' :: digits) = true := by
  rw [isWord, Bool.and_eq_true]
  refine ⟨by decide, List.all_eq_true.2 ?_⟩
  intro c hc
  rcases h c hc with ⟨d, hd⟩
  rw [isBoundary_of_hexDigit hd]
  rfl

/-! ## Offsets -/

/-- An offset of 64 bits and how its digits are written: how many zeros stand in front, and which
of the digits behind them are in upper case. -/
structure Offset where
  value : UInt64
  zeros : Nat
  upper : Nat → Bool

namespace Offset

/-- The digits of an offset. -/
def digits (o : Offset) : List Char :=
  List.replicate o.zeros '0' ++
    (Nat.toDigits 16 o.value.toNat).mapIdx fun i c => cased (o.upper i) c

/-- The digits of an offset are digits, and they spell its value. -/
theorem exists_mapM (o : Offset) :
    ∃ ds, o.digits.mapM hexDigit? = some ds ∧ ofHexDigits ds = o.value.toNat := by
  rcases mapM_toDigits o.upper o.value.toNat with ⟨ds, hds, hvalue⟩
  refine ⟨List.replicate o.zeros 0 ++ ds, ?_, ?_⟩
  · rw [digits, List.mapM_append, mapM_zeros, hds]
    rfl
  · rw [ofHexDigits_zeros, hvalue]

theorem digits_ne_nil (o : Offset) : o.digits ≠ [] := by
  simp [digits, Nat.toDigits_ne_nil]

/-- The digits make a word with the letter of the mark in front. -/
theorem isWord_digits (o : Offset) : isWord ('x' :: o.digits) = true := by
  rcases o.exists_mapM with ⟨ds, hds, -⟩
  exact isWord_mark (exists_hexDigit hds)

/-- An offset is read back from its digits behind `0x`. -/
theorem hexOffset?_eq (o : Offset) :
    hexOffset? ('0' :: 'x' :: o.digits) = some o.value.toNat := by
  rcases o.exists_mapM with ⟨ds, hds, hvalue⟩
  have hhex := exists_hexDigit hds
  -- Neither blanks nor a sign can be taken off, since digits are none.
  have htrim : trim ('0' :: 'x' :: o.digits) = '0' :: 'x' :: o.digits := by
    apply trim_eq_self
    intro c hc
    rcases List.mem_cons.1 hc with rfl | hc
    · rfl
    rcases List.mem_cons.1 hc with rfl | hc
    · rfl
    rcases hhex c hc with ⟨d, hd⟩
    exact isBlank_of_hexDigit hd
  have hplus : dropPlus o.digits = o.digits := by
    unfold dropPlus
    split
    · rename_i cs heq
      rcases hhex '+' (by rw [heq]; exact List.mem_cons_self) with ⟨d, hd⟩
      cases hd
    · rfl
  have hnumber : hexNumber? o.digits = some o.value.toNat := by
    have hne : o.digits.isEmpty = false := by simp [o.digits_ne_nil]
    rw [hexNumber?, hne, hds]
    simp [hvalue]
  -- The number is one of 64 bits, so the last check passes.
  have hlt : o.value.toNat < UInt64.size := o.value.toNat_lt_size
  rw [hexOffset?, htrim, dropHexMark, hplus, hnumber, Option.filter_some,
    if_pos (decide_eq_true hlt)]

/-- The tokens of an offset behind its slashes: the zero of the mark is a number, and the rest of
the mark is a word with the digits. -/
def tokens (o : Offset) : List Token :=
  [.spelled .numberLit ['0'] .nothing (some (.int 0)), .spelled .ident ('x' :: o.digits) .line none]

/-- An offset is written as its digits behind `0x`, with the end of the line behind them. -/
theorem written (o : Offset) {cs : List Char} {ts : List Token} (more : Written cs ts) :
    Written ('0' :: 'x' :: (o.digits ++ '\n' :: cs)) (o.tokens ++ ts) := by
  have hword : Written ('x' :: o.digits ++ (Spacing.line.chars ++ cs))
      (.spelled .ident ('x' :: o.digits) .line none :: ts) :=
    .word o.isWord_digits .line (by simp [isBoundary]) more
  exact .cons (w := []) (s := .nothing) rfl rfl rfl (by decide) hword

end Offset

end Lossless
