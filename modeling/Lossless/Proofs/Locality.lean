import Lossless.Proofs.Footprint
import Lossless.Proofs.Position

/-!
# A class stands for itself

What is parsed as a class at an offset of a text depends on no more than the text of the class. The
statement has three parts, which `declaration_local` puts together:

* the text at the offset is that of the class and then something that is no blank;
* the text of the class alone is parsed to the same class;
* if no blanks follow the class in its own text, then any text can follow it: the blanks at the
  beginning of that text are added to the class, and if an error comes behind them, the parse fails
  with this error.
-/

namespace Lossless

open Lexeme Text Lexer

/-! ## Blanks at the beginning of a text -/

/-- Whether a text begins with a space, a tab or a line break. -/
def Text.startsBlank : List Char → Bool
  | ' ' :: _ => true
  | '\t' :: _ => true
  | '\n' :: _ => true
  | '\r' :: '\n' :: _ => true
  | _ => false

/-- A text that begins with a blank begins with a blank lexeme. -/
theorem evaluate_of_startsBlank {c : Char} {cs : List Char} (h : startsBlank (c :: cs) = true) :
    ∃ kind, evaluate (scan c cs).shape (scan c cs).taken = .ok (kind, none) ∧
      kind.isBlank = true := by
  unfold startsBlank at h
  split at h
  · rename_i heq
    cases heq
    exact ⟨.whitespace, rfl, rfl⟩
  · rename_i heq
    cases heq
    exact ⟨.tab, rfl, rfl⟩
  · rename_i heq
    cases heq
    refine ⟨.newline, ?_, rfl⟩
    cases cs <;> rfl
  · rename_i heq
    cases heq
    exact ⟨.newline, rfl, rfl⟩
  · cases h

/-- What begins with a lexeme that is not blank does not begin with a blank. -/
theorem not_startsBlank_of_sharp {cs : List Char} (h : isSharp cs = true) :
    startsBlank cs = false := by
  cases cs with
  | nil => rfl
  | cons c cs =>
    apply Bool.eq_false_iff.2
    intro hblank
    rcases evaluate_of_startsBlank hblank with ⟨kind, he, hkind⟩
    simp [isSharp, he, hkind] at h

/-- Blanks never fail. -/
theorem not_startsBlank_of_error {c : Char} {cs : List Char} {cause : LexicalCause}
    (h : evaluate (scan c cs).shape (scan c cs).taken = .error cause) :
    startsBlank (c :: cs) = false := by
  apply Bool.eq_false_iff.2
  intro hblank
  rcases evaluate_of_startsBlank hblank with ⟨kind, he, -⟩
  rw [he] at h
  cases h

/-- A run of one character is read as one piece if none of its kind follows. -/
theorem readPieces?_replicate {c : Char} {k : PieceKind}
    (hc : ∀ w, Trivia.readPieces? (c :: w) = (Trivia.readPieces? w).map (Trivia.prepend k))
    {w : List Char} {ps : List Piece} (hw : Trivia.readPieces? w = some ps)
    (hps : ∀ p ∈ ps.head?, p.kind ≠ k) (n : Nat) :
    Trivia.readPieces? (List.replicate (n + 1) c ++ w) = some (⟨k, n + 1⟩ :: ps) := by
  induction n with
  | zero =>
    rw [List.replicate_one, List.singleton_append, hc, hw, Option.map_some]
    cases ps with
    | nil => rfl
    | cons p ps =>
      have hp := hps p rfl
      simp [Trivia.prepend, hp]
  | succ n ih =>
    rw [List.replicate_succ, List.cons_append, hc, ih, Option.map_some]
    simp [Trivia.prepend]

/-- A run of spaces or tabs is not followed by one more of the same. -/
theorem scan_run_rest {c : Char} (hc : c = ' ' ∨ c = '\t') {cs rest : List Char} :
    (scan c cs).rest ≠ c :: rest := by
  intro h
  rcases hc with rfl | rfl
  · have hhead := List.head?_dropWhile_not (· == ' ') cs
    rw [show cs.dropWhile (· == ' ') = ' ' :: rest from h] at hhead
    simp at hhead
  · have hhead := List.head?_dropWhile_not (· == '\t') cs
    rw [show cs.dropWhile (· == '\t') = '\t' :: rest from h] at hhead
    simp at hhead

/-- The first lexeme behind a run of spaces or tabs is no such run. -/
theorem Reads.head_piece_ne {p : Nat} {c : Char} {cs r : List Char} {xs : List Lexeme}
    {k : PieceKind} (hc : c = ' ' ∨ c = '\t') (hk : ∀ n, Piece.chars ⟨k, n⟩ = List.replicate n c)
    (h : Reads p (scan c cs).rest xs r) (hb : AllBlank xs) :
    ∀ q ∈ (piecesOf xs).head?, q.kind ≠ k := by
  intro q hq hqk
  cases xs with
  | nil => cases hq
  | cons y ys =>
    rcases exists_piece (hb y List.mem_cons_self) with ⟨q', hq'⟩
    rw [piecesOf, List.filterMap_cons_some hq'] at hq
    cases hq
    have hy := (h.genuine y List.mem_cons_self).chars_piece hq'
    have htext := h.text_eq
    rw [textOf_cons, ← hy, show q = ⟨k, q.length⟩ by rw [← hqk], hk] at htext
    cases hlen : q.length with
    | zero =>
      -- A lexeme is not empty.
      rw [show q = ⟨k, q.length⟩ by rw [← hqk], hk, hlen] at hy
      exact h.text_ne_nil y List.mem_cons_self hy.symm
    | succ n =>
      rw [hlen, List.replicate_succ, List.cons_append, List.cons_append] at htext
      exact scan_run_rest hc htext

/-- The length of a piece is the number of bytes of the lexeme that it was. -/
theorem Lexeme.Genuine.length_piece {x : Lexeme} (hx : x.Genuine) {q : Piece}
    (hq : x.piece? = some q) : q.length = width x.text := by
  unfold piece? at hq
  split at hq
  all_goals cases hq
  all_goals exact hx.2

/-- The text of blank lexemes is read as the pieces that they become. -/
theorem Reads.readPieces?_textOf {p : Nat} {cs r : List Char} {xs : List Lexeme}
    (h : Reads p cs xs r) (hb : AllBlank xs) :
    Trivia.readPieces? (textOf xs) = some (piecesOf xs) := by
  induction h with
  | nil => rfl
  | @cons p c cs r kind value xs read more ih =>
    have hbs : AllBlank xs := fun y hy => hb y (List.mem_cons_of_mem _ hy)
    have hrest := ih hbs
    rcases exists_piece (hb _ List.mem_cons_self) with ⟨q, hq⟩
    have hreads := Reads.cons (p := p) read more
    have hg := hreads.genuine _ List.mem_cons_self
    have htext : q.chars = (scan c cs).taken := hg.chars_piece hq
    have hhead := scan_taken_eq c cs
    rw [textOf_cons, piecesOf, List.filterMap_cons_some hq]
    show Trivia.readPieces? ((scan c cs).taken ++ textOf xs) = some (q :: piecesOf xs)
    -- A run of spaces or tabs has a length, which is not zero since a lexeme is not empty.
    have hrun : ∀ (d : Char) (k : PieceKind), (d = ' ' ∨ d = '\t') →
        (∀ n, Piece.chars ⟨k, n⟩ = List.replicate n d) →
        (∀ w, Trivia.readPieces? (d :: w) = (Trivia.readPieces? w).map (Trivia.prepend k)) →
        q.kind = k →
        Trivia.readPieces? ((scan c cs).taken ++ textOf xs) = some (q :: piecesOf xs) := by
      intro d k hd hchars hread hk
      have hq : q = ⟨k, q.length⟩ := by rw [← hk]
      rw [hq, hchars] at htext
      cases hlen : q.length with
      | zero =>
        rw [hlen] at htext
        exact absurd htext.symm (scan_taken_ne_nil c cs)
      | succ n =>
        rw [hlen] at htext hq
        have hcd : c = d := by
          rw [hhead, List.replicate_succ] at htext
          exact (List.cons.inj htext).1.symm
        subst hcd
        rw [← htext, hq]
        exact readPieces?_replicate hread hrest (more.head_piece_ne hd hchars hbs) n
    cases hk : q.kind with
    | whitespace => exact hrun ' ' .whitespace (Or.inl rfl) (fun _ => rfl) (fun _ => rfl) hk
    | tab => exact hrun '\t' .tab (Or.inr rfl) (fun _ => rfl) (fun _ => rfl) hk
    | newline =>
      have hlen : q.length = width (scan c cs).taken := hg.length_piece hq
      have hchars : q.chars = if q.length = 2 then ['\r', '\n'] else ['\n'] := by
        simp only [Piece.chars, hk]
      rw [htext] at hchars
      by_cases htwo : q.length = 2
      · rw [if_pos htwo] at hchars
        rw [hchars, show q = ⟨.newline, 2⟩ by rw [← hk, ← htwo]]
        simp [Trivia.readPieces?, hrest]
      · rw [if_neg htwo] at hchars
        have hone : q.length = 1 := by
          rw [hlen, hchars]
          rfl
        rw [hchars, show q = ⟨.newline, 1⟩ by rw [← hk, ← hone]]
        simp [Trivia.readPieces?, hrest]

/-- The blanks at the beginning of a text, up to the first character that is none, and a lexer that
stands behind them. -/
def LeadingBlanks (text : List Char) (blanks : Trivia) (lexer : Lexer) : Prop :=
  ∃ front, text = front ++ lexer.rest ∧ Trivia.ofChars? front = some blanks ∧
    startsBlank lexer.rest = false ∧ Lexer.at? text (width front) = some lexer

/-! ## The last token of a tree -/

namespace Node

mutual

/-- A tree without a token has no last token that could change. -/
theorem modifyLastToken?_eq_none {f : Token → Token} :
    (n : Node) → (n.modifyLastToken? f = none ↔ n.lastToken? = none)
  | .token t => by simp [modifyLastToken?, lastToken?]
  | .tree k cs => by simp [modifyLastToken?, lastToken?, modifyLastTokenIn?_eq_none cs]

/-- The last token of a list of trees can be changed iff there is one. -/
theorem modifyLastTokenIn?_eq_none {f : Token → Token} :
    (ns : List Node) → (modifyLastTokenIn? f ns = none ↔ lastTokenIn? ns = none)
  | [] => by simp [modifyLastTokenIn?, lastTokenIn?]
  | n :: ns => by
    have hn := modifyLastToken?_eq_none (f := f) n
    have hns := modifyLastTokenIn?_eq_none (f := f) ns
    cases h : modifyLastTokenIn? f ns with
    | none => simp [modifyLastTokenIn?, lastTokenIn?, h, hns.1 h, hn]
    | some ms =>
      have hne : lastTokenIn? ns ≠ none := by
        intro he
        rw [hns.2 he] at h
        cases h
      simp [modifyLastTokenIn?, lastTokenIn?, h, hne]

end

mutual

/-- Where the last token is changed, the changed one is the last. -/
theorem lastToken?_modify {f : Token → Token} :
    (n : Node) → {m : Node} → n.modifyLastToken? f = some m → m.lastToken? = n.lastToken?.map f
  | .token t, m, h => by
    cases h
    rfl
  | .tree k cs, m, h => by
    rw [modifyLastToken?, Option.map_eq_some_iff] at h
    rcases h with ⟨ms, hms, rfl⟩
    exact lastTokenIn?_modify cs hms

/-- The last token of a list that is changed is the one that was last, changed. -/
theorem lastTokenIn?_modify {f : Token → Token} :
    (ns : List Node) → {ms : List Node} → modifyLastTokenIn? f ns = some ms →
      lastTokenIn? ms = (lastTokenIn? ns).map f
  | [], ms, h => by cases h
  | n :: ns, ms, h => by
    rw [modifyLastTokenIn?] at h
    -- The change is made in the rest if there is a token in it, and otherwise in the first node.
    cases hns : modifyLastTokenIn? f ns with
    | some ns' =>
      rw [hns] at h
      cases h
      have hne : lastTokenIn? ns ≠ none := by
        intro he
        rw [(modifyLastTokenIn?_eq_none ns).2 he] at hns
        cases hns
      rcases Option.ne_none_iff_exists'.1 hne with ⟨t, ht⟩
      simp [lastTokenIn?, lastTokenIn?_modify ns hns, ht]
    | none =>
      rw [hns] at h
      simp only [Option.map_eq_some_iff] at h
      rcases h with ⟨m, hm, rfl⟩
      have hlast := (modifyLastTokenIn?_eq_none ns).1 hns
      simp [lastTokenIn?, hlast, lastToken?_modify n hm]

end

end Node

/-! ## The closing brace -/

/-- The closing brace at a position. -/
def Lexeme.closingBrace (p : Nat) : Lexeme := ⟨.rightBrace, ⟨p, p + 1⟩, ['}'], none⟩

/-- A closing brace is a lexeme of its own, whatever follows. -/
theorem Lexeme.scan_closingBrace (cs : List Char) :
    scan '}' cs = ⟨.plain .rightBrace, ['}'], cs⟩ := by
  cases cs <;> rfl

theorem isSharp_closingBrace (cs : List Char) : isSharp ('}' :: cs) = true := by
  simp only [isSharp, scan_closingBrace]
  rfl

theorem Reads.closingBrace {p : Nat} {cs r : List Char} {xs : List Lexeme}
    (h : Reads (p + 1) cs xs r) : Reads p ('}' :: cs) (.closingBrace p :: xs) r :=
  .cons_of_scan (scan_closingBrace cs) rfl h

/-- A lexeme that is a closing brace is the character alone. -/
theorem Reads.of_closingBrace {p : Nat} {cs r : List Char} {x : Lexeme} {xs : List Lexeme}
    (h : Reads p cs (x :: xs) r) (hx : x.kind = .rightBrace) :
    x = .closingBrace p ∧ cs = '}' :: (textOf xs ++ r) ∧ Reads (p + 1) (textOf xs ++ r) xs r := by
  have hspell := (h.genuine x List.mem_cons_self).1
  rw [hx] at hspell
  have htext : x.text = ['}'] := by simpa [Kind.spells] using hspell
  have hcs := h.text_eq
  rw [textOf_cons, htext, List.singleton_append, List.cons_append] at hcs
  subst hcs
  cases h with
  | cons read more =>
    rw [scan_closingBrace] at read more ⊢
    cases read
    exact ⟨rfl, rfl, more⟩

/-! ## Where a class ends -/

open Lossless.Grammar Lossless.Stream Lossless.Terminal

/-- A parse that goes on behind a terminal of a text has taken the terminals up to there and no
more. -/
theorem taken_eq {p k : Nat} {cs m r : List Char} {us : List Terminal} {z : Terminal}
    (hus : Yielding p cs us m) (hz : Yields (p + width (charsOf us)) m z r)
    (h : (ofLexer (fresh p cs)).Passed k ((ofLexer (fresh p cs)).drop (us.length + 1))) :
    k = us.length + 1 := by
  rcases h with ⟨hdrop, hok⟩
  have hstream := (hus.append (.cons hz .nil)).stream_eq
  generalize hq : p + width (charsOf (us ++ [z])) = q at hstream
  -- Two different numbers of terminals leave the same rest only if both rests are empty.
  have hlen := congrArg (fun s : Stream => s.terminals.length) hdrop
  simp only [hstream, Stream.drop, List.length_drop, List.length_append, List.length_singleton]
    at hlen
  by_cases hnil : (ofLexer (fresh q r)).terminals = []
  · -- Nothing is left, so an error comes next, and it cannot have been passed.
    rcases ofLexer_cases q r with ⟨t, r', ht⟩ | ⟨xs, hxs, hblank⟩ | ⟨f, hf⟩
    · rw [ofLexer_of_yields ht] at hnil
      cases hnil
    · rw [ofLexer_of_blank hxs hblank] at hnil
      cases hnil
    · rw [hf, List.append_nil] at hstream
      rw [hf, List.length_nil] at hlen
      apply Nat.le_antisymm
      · apply Nat.le_of_not_lt
        intro hlt
        rcases hok (us.length + 1) hlt with ⟨t, ht⟩
        rw [hstream] at ht
        simp [ahead] at ht
      · omega
  · have hpos := List.length_pos_iff.2 hnil
    omega

/-- The text `cs` begins with the class `node`: with the terminals `us`, the closing brace and the
blanks `after`, behind which `r` comes. The parse depends on nothing else. -/
structure Closes (cs : List Char) (node : Node) (us : List Terminal) (after : List Lexeme)
    (r : List Char) : Prop where
  front : Yielding 0 cs us ('}' :: (textOf after ++ r))
  ne_nil : us ≠ []
  blanks : Reads (width (charsOf us) + 1) (textOf after ++ r) after r
  blank : AllBlank after
  sharp : isSharp r = true
  parsed : (parse .classDecl rfl (ofLexer (fresh 0 cs))).result = .ok node
  chars : node.chars = charsOf us ++ '}' :: textOf after
  renew : ∀ {b : Trivia} {t : Stream}, Agree b (us.length + 1) (ofLexer (fresh 0 cs)) t →
    ∃ node', node.modifyLastToken? (fun t => { t with trailing := b }) = some node' ∧
      (parse .classDecl rfl t).result = .ok node'
  fault : ∀ {f : Fault} {t : Stream}, BreaksOff f us.length (ofLexer (fresh 0 cs)) t →
    (parse .classDecl rfl t).result = .error (.lexical f.diagnostic)

/-- The closing brace as a terminal, with some blanks behind it. -/
def closingTerminal (p : Nat) (blanks : List Piece) : Terminal :=
  .ofLexeme (.closingBrace p) [] blanks

/-- A closing brace and the blanks behind it are one terminal. -/
theorem Yields.closingTerminal {p : Nat} {cs r : List Char} {xs : List Lexeme}
    (h : Reads (p + 1) cs xs r) (hb : AllBlank xs) (hr : isSharp r = true) :
    Yields p ('}' :: cs) (Lossless.closingTerminal p (piecesOf xs)) r := by
  have hreads : Reads p ('}' :: cs) ([] ++ closingBrace p :: xs) r := h.closingBrace
  exact .intro hreads .nil rfl hb hr

/-- Every text that is parsed as a class begins with it. -/
theorem exists_closes {cs : List Char} {node : Node}
    (h : (parse .classDecl rfl (ofLexer (fresh 0 cs))).result = .ok node) :
    ∃ us after r, Closes cs node us after r := by
  rcases parse_ok_iff.1 h with ⟨s', hp⟩
  -- The parse ends behind a closing brace `z`, and `us` are the terminals in front of it.
  rcases hp.behind_mark rfl with ⟨i, z, hz, hzk, hs'⟩
  rcases yields_of_ahead hz (by rw [hzk]; decide) with ⟨us, m, r, rfl, hus, hyz⟩
  rcases hp.transfer (within_body .classDecl) with ⟨k, hpassed, -, hleast, hsim⟩
  have hk : k = us.length + 1 := by
    rw [hs'] at hpassed
    exact taken_eq hus hyz hpassed
  subst hk
  -- A class takes more than its closing brace, so blanks in front of the brace belong elsewhere.
  have hne : us ≠ [] := by
    rintro rfl
    simp at hleast
  have hlead := hyz.sharp_iff.1 (hus.sharp hne)
  have hstream := (hus.append (.cons hyz .nil)).stream_eq
  generalize ofLexer (fresh (0 + width (charsOf (us ++ [z]))) r) = rest at hstream
  rcases hyz with ⟨reads, front, core, back, sharp⟩
  rename_i before after x
  have hbefore : before = [] := by
    cases before with
    | nil => rfl
    | cons b bs =>
      rcases exists_piece (front b List.mem_cons_self) with ⟨q, hq⟩
      simp [ofLexeme, piecesOf, hq, Trivia.empty] at hlead
  subst hbefore
  rw [Nat.zero_add] at reads
  rcases reads.of_closingBrace hzk with ⟨rfl, rfl, hblanks⟩
  refine ⟨us, after, r, hus, hne, hblanks, back, sharp, h, ?_, ?_, ?_⟩
  · -- The text of the node is that of the terminals taken, which are `us` and the brace.
    have hkeep := hp.chars_of_call
    rw [hs'] at hkeep
    simp only [Stream.chars, hstream, Stream.drop] at hkeep
    rw [List.drop_left' (by simp), charsOf_append _ rest.terminals,
      List.append_cancel_right_eq] at hkeep
    rw [hkeep, charsOf_append, charsOf_cons, charsOf_nil, List.append_nil,
      Yields.chars_ofLexeme reads front back]
    rfl
  · -- A class has reach zero: the streams need to agree up to the brace and no further.
    intro b t hagree
    have hnone : Renewed b (us.length + 1 + 0) [] [] := rfl
    rcases hsim.renew [] (Nat.le_refl 0) hagree hnone with ⟨node', log', hnode', hrenewed⟩
    exact ⟨node', hrenewed.modify, parse_ok_iff.2 ⟨_, hnode'⟩⟩
  · intro f t hb
    rcases hp.cut_short [] hb with ⟨k, log', hk, hdrop, -⟩ | ⟨log', hf⟩
    · -- The parse takes the closing brace, which is where the stream has broken off.
      rw [hs'] at hdrop
      have hlen := congrArg (fun s : Stream => s.terminals.length) hdrop
      simp only [hstream, Stream.drop, List.length_drop, List.length_append,
        List.length_singleton] at hlen
      omega
    · exact parse_error_iff.2 ⟨.lexical f, log', hf, rfl⟩

namespace Closes

variable {cs r : List Char} {node : Node} {us : List Terminal} {after : List Lexeme}

/-- The terminals in front of the closing brace stay the same whatever follows the brace. -/
theorem yielding (h : Closes cs node us after r) (tail : List Char) :
    Yielding 0 (charsOf us ++ '}' :: tail) us ('}' :: tail) :=
  h.front.lookahead (Follows.cons '}' _ _) (isSharp_closingBrace tail)

/-- The stream of a text with a class at the beginning, as far as the class goes. -/
theorem stream_eq {cs r : List Char} {us : List Terminal} {xs : List Lexeme}
    (hus : Yielding 0 cs us ('}' :: (textOf xs ++ r)))
    (hxs : Reads (width (charsOf us) + 1) (textOf xs ++ r) xs r) (hb : AllBlank xs)
    (hr : isSharp r = true) :
    ∃ rest ending, ofLexer (fresh 0 cs) =
      ⟨us ++ closingTerminal (width (charsOf us)) (piecesOf xs) :: rest, ending⟩ := by
  have hz := Yields.closingTerminal hxs hb hr
  rw [← Nat.zero_add (width (charsOf us))] at hz
  have hstream := (hus.append (.cons hz .nil)).stream_eq
  rw [List.append_assoc, Nat.zero_add] at hstream
  exact ⟨_, _, hstream⟩

/-- Blanks behind the closing brace are added to the class. -/
theorem append_blanks (h : Closes cs node us after r) {tail r' : List Char} {ys : List Lexeme}
    (hys : Reads (width (charsOf us) + 1) tail ys r') (hb : AllBlank ys) (hr : isSharp r' = true) :
    ∃ node', node.modifyLastToken? (fun t => { t with trailing := ⟨piecesOf ys⟩ }) = some node' ∧
      (parse .classDecl rfl (ofLexer (fresh 0 (charsOf us ++ '}' :: tail)))).result =
        .ok node' := by
  apply h.renew
  have htail := hys.text_eq
  subst htail
  rcases stream_eq h.front h.blanks h.blank h.sharp with ⟨rest, ending, hold⟩
  rcases stream_eq (h.yielding _) hys hb hr with ⟨rest', ending', hnew⟩
  rw [hold, hnew]
  refine Agree.append ?_ us rest rest' ending ending'
  rfl

/-- An error behind the closing brace, and blanks between them, makes the parse fail. -/
theorem append_fault (h : Closes cs node us after r) {tail : List Char} {f : Fault}
    (hf : Faulty (width (charsOf us) + 1) tail f) :
    (parse .classDecl rfl (ofLexer (fresh 0 (charsOf us ++ '}' :: tail)))).result =
      .error (.lexical f.diagnostic) := by
  apply h.fault
  rcases stream_eq h.front h.blanks h.blank h.sharp with ⟨rest, ending, hold⟩
  have hbrace : Reads (0 + width (charsOf us)) ('}' :: tail)
      ([] ++ [closingBrace (0 + width (charsOf us))]) tail := Reads.closingBrace .nil
  have hnew : ofLexer (fresh 0 (charsOf us ++ '}' :: tail)) = ⟨us, .fault f⟩ := by
    rw [(h.yielding tail).stream_eq, ofLexer_of_faulty_behind hbrace .nil rfl ?_, List.append_nil]
    rw [Nat.zero_add]
    exact hf
  rw [hold, hnew]
  exact BreaksOff.append us _ ending

/-- The blanks behind the class are those that the class has. -/
theorem modify_self (h : Closes cs node us after r) :
    node.modifyLastToken? (fun t => { t with trailing := ⟨piecesOf after⟩ }) = some node := by
  rcases stream_eq h.front h.blanks h.blank h.sharp with ⟨rest, ending, hold⟩
  have hself : Agree ⟨piecesOf after⟩ (us.length + 1) (ofLexer (fresh 0 cs))
      (ofLexer (fresh 0 cs)) := by
    rw [hold]
    refine Agree.append ?_ us rest rest ending ending
    rfl
  rcases h.renew hself with ⟨node', hnode', hparse⟩
  rw [h.parsed] at hparse
  cases hparse
  exact hnode'

end Closes

/-! ## The class at an offset -/

theorem parseDeclarationAt_zero (text : String) :
    parseDeclarationAt text 0 =
      (parse .classDecl rfl (ofLexer (fresh 0 text.toList))).result :=
  parseDeclarationAt_width (List.nil_append text.toList).symm

/-- A class that is parsed at an offset is parsed from the text behind the offset. -/
theorem parse_of_declaration {text : String} {offset : Nat} {node : Node}
    (h : parseDeclarationAt text offset = .ok node) :
    ∃ rest, dropBytes? offset text.toList = some rest ∧
      (parse .classDecl rfl (ofLexer (fresh 0 rest))).result = .ok node := by
  unfold parseDeclarationAt reportDeclarationAt Lexer.at? at h
  cases hdrop : dropBytes? offset text.toList with
  | none =>
    rw [hdrop] at h
    cases h
  | some rest =>
    rw [hdrop] at h
    -- At the offset and at the beginning the same is parsed, with other positions in errors.
    have hshift : (⟨offset, [], rest⟩ : Lexer) = (fresh 0 rest).shift offset := by
      simp [fresh, Lexer.shift]
    have hparse : (parse .classDecl rfl ((ofLexer (fresh 0 rest)).shift offset)).result =
        .ok node := by
      rw [← ofLexer_shift, ← hshift]
      exact h
    have hsame := @parse_shift .classDecl rfl offset (ofLexer (fresh 0 rest))
    rw [hparse] at hsame
    refine ⟨rest, rfl, ?_⟩
    cases hresult : (parse .classDecl rfl (ofLexer (fresh 0 rest))).result with
    | ok node' =>
      rw [hresult] at hsame
      exact hsame.symm
    | error e =>
      rw [hresult] at hsame
      cases hsame

/-- A lexer finds a lexeme where a text is neither blank nor at fault, or the end. -/
theorem next_of_sharp {p : Nat} {cs : List Char} (h : isSharp cs = true) :
    ∃ x, (fresh p cs).next.1 = .ok x := by
  cases cs with
  | nil => exact ⟨_, rfl⟩
  | cons c cs =>
    simp only [isSharp] at h
    split at h
    · rename_i kind value he
      refine ⟨⟨kind, ⟨p, p + width (scan c cs).taken⟩, (scan c cs).taken, value⟩, ?_⟩
      simp only [Lexer.next, fresh, step, List.nil_append, he]
    · cases h

/-- An error that is met at once has the range of what was cut off. -/
theorem next_of_error {p : Nat} {c : Char} {cs : List Char} {cause : LexicalCause}
    (h : evaluate (scan c cs).shape (scan c cs).taken = .error cause) :
    (fresh p (c :: cs)).next.1 = .error ⟨cause, ⟨p, p + width (scan c cs).taken⟩⟩ := by
  simp only [Lexer.next, fresh, step, List.nil_append, h]

/-- The blank lexemes at the beginning of a text are its leading blanks. -/
theorem Reads.leadingBlanks {p : Nat} {cs r : List Char} {xs : List Lexeme} (h : Reads p cs xs r)
    (hb : AllBlank xs) (hr : startsBlank r = false) :
    LeadingBlanks cs ⟨piecesOf xs⟩ (fresh (width (textOf xs)) r) := by
  refine ⟨textOf xs, h.text_eq, ?_, hr, ?_⟩
  · rw [Trivia.ofChars?, h.readPieces?_textOf hb, Option.map_some]
  · rw [h.text_eq, Lexer.at?, dropBytes?_width_append, Option.map_some]
    rfl

/-- What comes of a class with a text behind it: the class takes up the blanks at the beginning of
that text and nothing else, and if there is an error behind the blanks, it is the error of the
parse. -/
def AbsorbsBlanks (node : Node) (suffix : String) : Prop :=
  ∃ blanks lexer, LeadingBlanks suffix.toList blanks lexer ∧
    match lexer.next.1 with
    | .ok _ => ∃ node',
        node.modifyLastToken? (fun t => { t with trailing := blanks }) = some node' ∧
        parseDeclarationAt (node.reconstruct ++ suffix) 0 = .ok node'
    | .error f =>
        parseDeclarationAt (node.reconstruct ++ suffix) 0 =
          .error (.lexical (f.shift (width node.reconstruct.toList)).diagnostic)

/-- A class depends on its own text only. -/
theorem declaration_local {text : String} {offset : Nat} {node : Node}
    (h : parseDeclarationAt text offset = .ok node) :
    (∃ rest, dropBytes? offset text.toList = some (node.reconstruct.toList ++ rest) ∧
      startsBlank rest = false) ∧
    parseDeclarationAt node.reconstruct 0 = .ok node ∧
    (node.lastToken?.map Token.trailing = some .empty →
      ∀ suffix : String, AbsorbsBlanks node suffix) := by
  rcases parse_of_declaration h with ⟨cs, hdrop, hparse⟩
  rcases exists_closes hparse with ⟨us, after, r, hc⟩
  have htext : node.reconstruct.toList = charsOf us ++ '}' :: textOf after := by
    rw [Node.reconstruct, String.toList_ofList, hc.chars]
  refine ⟨⟨r, ?_, not_startsBlank_of_sharp hc.sharp⟩, ?_, ?_⟩
  · rw [hdrop, htext, hc.front.text_eq]
    simp
  · -- The blanks of the class are read again, now at the end of a text.
    have hblanks := hc.blanks.lookahead (Follows.nil r)
    rw [List.append_nil] at hblanks
    rcases hc.append_blanks hblanks hc.blank rfl with ⟨node', hnode', hresult⟩
    rw [hc.modify_self] at hnode'
    cases hnode'
    rw [parseDeclarationAt_zero, htext, hresult]
  · intro hlast suffix
    -- The last token of a class is the brace, so the blanks of the one are those of the other.
    have hafter : after = [] := by
      have hsame := Node.lastToken?_modify node hc.modify_self
      cases hz : node.lastToken? with
      | none =>
        rw [hz] at hlast
        cases hlast
      | some z =>
        rw [hz, Option.map_some, Option.some.injEq] at hsame hlast
        have hpieces : piecesOf after = [] := by
          have htrailing := congrArg Token.trailing hsame
          rw [hlast] at htrailing
          exact (congrArg Trivia.pieces htrailing).symm
        cases after with
        | nil => rfl
        | cons b bs =>
          rcases exists_piece (hc.blank b List.mem_cons_self) with ⟨q, hq⟩
          rw [piecesOf, List.filterMap_cons_some hq] at hpieces
          cases hpieces
    subst hafter
    have hwidth : width node.reconstruct.toList = width (charsOf us) + 1 := by
      rw [htext, width_append]
      rfl
    have hsuffix : (node.reconstruct ++ suffix).toList = charsOf us ++ '}' :: suffix.toList := by
      rw [String.toList_append, htext]
      simp
    rcases sharp_or_faulty (width (charsOf us) + 1) suffix.toList with
      ⟨ys, r', hys, hb, hr'⟩ | ⟨f, hf⟩
    · refine ⟨_, _, hys.leadingBlanks hb (not_startsBlank_of_sharp hr'), ?_⟩
      rcases next_of_sharp hr' with ⟨x, hx⟩
      rw [hx, parseDeclarationAt_zero, hsuffix]
      exact hc.append_blanks hys hb hr'
    · have hresult := hc.append_fault hf
      rcases hf with ⟨reads, blank, failed⟩
      refine ⟨_, _, reads.leadingBlanks blank (not_startsBlank_of_error failed), ?_⟩
      rw [next_of_error failed, parseDeclarationAt_zero, hsuffix, hresult, hwidth]
      simp only [Fault.shift, Span.shift_add]

/-- The class of this text is nested in another one and has a member, a comment and a class of its
own; a brace follows it directly. -/
theorem declaration_local_nested :
    ∃ node,
      parseDeclarationAt "class A \x7bclass B \x7b int x; // y\n class C\x7b\x7d\x7d\x7d" 9 =
        .ok node ∧
      parseDeclarationAt node.reconstruct 0 = .ok node ∧
      AbsorbsBlanks node " \t\r\n 1.2.3" := by
  have hsome : ∃ node ∈ (parseDeclarationAt
      "class A \x7bclass B \x7b int x; // y\n class C\x7b\x7d\x7d\x7d" 9).toOption,
        node.lastToken?.map Token.trailing = some .empty := by
    decide +kernel
  obtain ⟨node, hnode, hclosed⟩ := hsome
  have h := eq_ok_of_mem_toOption hnode
  obtain ⟨-, hself, habsorbs⟩ := declaration_local h
  exact ⟨node, h, hself, habsorbs hclosed _⟩

end Lossless
