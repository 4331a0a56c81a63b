import Lossless.Proofs.Diagnostics
import Lossless.Proofs.Likeness

/-!
# The layout of a text does not matter

Blanks separate terminals, and a line break ends a comment; otherwise they have no influence on what
a text is parsed to. `Node.bare` takes the blanks out of a tree: those around its tokens and those
in the texts of tokens that were joined from several terminals.

* `parseUnit_layout`: two texts with the same terminals, apart from blanks, have the same bare tree
  or fail at the same terminal with the same message.
-/

namespace Lossless

/-! ## Taking out blanks -/

/-- The characters that blanks are made of. -/
def Text.isLayout (c : Char) : Bool := c == ' ' || c == '\t' || c == '\r' || c == '\n'

/-- A text without the characters that blanks are made of. -/
def Text.condense (cs : List Char) : List Char := cs.filter fun c => !isLayout c

namespace Token

/-- Whether the token was joined from several terminals: the text of a comment, or the name of a
constructor, which unlike any other word begins with a point. -/
def isJoined (t : Token) : Bool :=
  t.kind == .commentText || t.kind == .ident && t.text.toList.head? == some '.'

/-- The token without blanks around it and, if it was joined, without blanks in its text. -/
def bare (t : Token) : Token where
  kind := t.kind
  text := if t.isJoined then String.ofList (Text.condense t.text.toList) else t.text
  value := t.value

end Token

namespace Node

mutual

/-- The tree without its blanks. -/
def bare : Node → Node
  | .token t => .token t.bare
  | .tree k cs => .tree k (bareIn cs)

def bareIn : List Node → List Node
  | [] => []
  | n :: ns => n.bare :: bareIn ns

end

theorem bareIn_eq_map (ns : List Node) : bareIn ns = ns.map bare := by
  induction ns with
  | nil => rfl
  | cons n ns ih => rw [bareIn, ih, List.map_cons]

theorem isToken_bare (n : Node) : n.bare.isToken = n.isToken := by
  cases n <;> rfl

end Node

/-- What the grammar can make of a terminal: all but its place and the blanks around it, of which
only the end of a line counts. -/
def Terminal.content (t : Terminal) : Kind × String × Option Number × Bool :=
  (t.token.kind, t.token.text, t.token.value, t.token.endsLine)

/-- The terminals of a text up to its end or to the first lexical error. -/
def terminalsOf (text : String) : List Terminal :=
  (Stream.ofLexer (Lexer.new text.toList)).terminals

/-- The lexer meets no error up to the end of its text. -/
def Lexer.Clean (l : Lexer) : Prop := ∀ read ∈ l.run, read.isOk = true

instance (l : Lexer) : Decidable l.Clean :=
  inferInstanceAs (Decidable (∀ read ∈ l.run, read.isOk = true))

/-! ## Joined tokens -/

namespace Token

open Text

theorem condense_append (cs ds : List Char) : condense (cs ++ ds) = condense cs ++ condense ds :=
  List.filter_append cs ds

/-- A text without blanks has no blanks to lose. -/
theorem condense_condense (cs : List Char) : condense (condense cs) = condense cs := by
  simp [condense, List.filter_filter]

/-- Blanks consist of nothing else. -/
theorem condense_trivia (t : Trivia) : condense t.chars = [] := by
  rcases t with ⟨pieces⟩
  induction pieces with
  | nil => rfl
  | cons p pieces ih =>
    have hp : condense p.chars = [] := by
      unfold Piece.chars
      split
      · simp [condense, isLayout]
      · simp [condense, isLayout]
      · split <;> rfl
    rw [Trivia.chars_mk_cons, condense_append, hp, ih, List.append_nil]

/-- The own characters of a token, blanks apart, are those of the bare token. -/
theorem condense_ownChars (t : Token) : condense t.bare.ownChars = condense t.ownChars := by
  unfold ownChars bare
  by_cases hjoined : t.isJoined = true
  · have hkind : t.kind ≠ .stringLit := by
      intro hk
      rw [isJoined, hk] at hjoined
      cases hjoined
    simp only [hjoined, if_true, hkind, if_false, String.toList_ofList, condense_condense]
  · simp only [hjoined, if_false, Bool.false_eq_true]

/-- The blanks between tokens that are joined vanish with all others. -/
theorem condense_innerChars (ts : List Token) :
    condense (innerChars ts) = ts.flatMap fun t => condense t.ownChars := by
  fun_induction innerChars ts with
  | case1 => rfl
  | case2 t => simp
  | case3 t u ts ih =>
    simp only [condense_append, condense_trivia, List.append_nil, ih, List.flatMap_cons]

/-- Tokens that differ in blanks only are joined to the same characters. -/
theorem condense_innerChars_congr {ts us : List Token} (h : ts.map bare = us.map bare) :
    condense (innerChars ts) = condense (innerChars us) := by
  have hflat : ∀ vs : List Token,
      condense (innerChars vs) = (vs.map bare).flatMap fun t => condense t.ownChars := by
    intro vs
    simp only [condense_innerChars, List.flatMap_map, condense_ownChars]
  rw [hflat, hflat, h]

/-- A joined token begins with its first part. -/
theorem head?_innerChars {t : Token} {c : Char} (h : t.ownChars = [c]) (ts : List Token) :
    (innerChars (t :: ts)).head? = some c := by
  cases ts with
  | nil => rw [innerChars, h, List.head?_cons]
  | cons u ts => simp [innerChars, h]

/-- What is left of a fused token is its text without blanks. -/
theorem bare_fuse {kind : Kind} {ts : List Token} (h : (fuse kind ts).isJoined = true) :
    (fuse kind ts).bare = { kind := kind, text := String.ofList (condense (innerChars ts)) } := by
  rw [bare, if_pos h, fuse, String.toList_ofList]

/-- The token of a point has no blanks that `bare` could take out of its text. -/
theorem ownChars_point {t u : Token} (hkind : t.kind = .dot) (htext : t.text = ".")
    (h : u.bare = t.bare) : u.ownChars = ['.'] := by
  have hkind' : u.kind = .dot := (congrArg Token.kind h).trans hkind
  have htext' : u.text = "." := by
    have heq := congrArg Token.text h
    simpa [bare, isJoined, hkind, hkind', htext] using heq
  rw [ownChars, hkind', htext']
  rfl

end Token

namespace Grammar

open Node

/-- The tokens of bare terminals are the bare tokens. -/
theorem tokensIn_bareIn {ns : List Node} (h : ∀ n ∈ ns, n.isToken = true) :
    (tokensIn ns).map Token.bare = tokensIn (bareIn ns) := by
  induction ns with
  | nil => rfl
  | cons n ns ih =>
    have hns := ih fun m hm => h m (List.mem_cons_of_mem n hm)
    cases n with
    | token t => simp [tokensIn, tokens, bareIn, bare, hns]
    | tree k cs => cases h _ List.mem_cons_self

/-- Terminals that are joined become one token. -/
theorem joined_flat {kind : Kind} {ns : List Node} (hne : ns ≠ [])
    (h : ∀ n ∈ ns, n.isToken = true) : joined kind ns = .token (.fuse kind (tokensIn ns)) := by
  simp [joined, merge?, mapM_token? h, hne]

/-- What is joined of tokens, in the order of the text. -/
theorem Joinable.isJoined {S : Stream}
    (hpoint : ∀ i x, S.ahead i = .ok x → x.token.kind = .dot → x.token.text = ".") {i : Nat}
    {kind : Kind} {ns : List Node} (h : Joinable S i kind ns) {us : List Token}
    (hus : us.map Token.bare = (tokensIn ns.reverse).map Token.bare) :
    (Token.fuse kind us).isJoined = true := by
  rcases h.use with rfl | ⟨rfl, x, hx, hdot, hlast⟩
  · rfl
  · -- A word that is joined begins with a point.
    rcases List.getLast?_eq_some_iff.1 hlast with ⟨rest, rfl⟩
    rw [List.reverse_append] at hus
    cases us with
    | nil => simp [tokensIn, tokens] at hus
    | cons u us =>
      have hu : u.bare = x.token.bare := by
        simp only [List.map_cons, List.reverse_singleton, List.singleton_append, leaf_none,
          tokensIn, tokens] at hus
        exact (List.cons.inj hus).1
      have hhead := Token.head?_innerChars (Token.ownChars_point hdot (hpoint i x hx hdot) hu) us
      simp [Token.isJoined, Token.fuse, hhead]

/-- Nodes that differ in blanks only are joined to tokens that differ in blanks only. -/
theorem Joinable.bare_joined {S : Stream}
    (hpoint : ∀ i x, S.ahead i = .ok x → x.token.kind = .dot → x.token.text = ".") {i : Nat}
    {kind : Kind} {ns ms : List Node} (hjoin : Joinable S i kind ns)
    (h : ns.map bare = ms.map bare) :
    (joined kind ns.reverse).bare = (joined kind ms.reverse).bare := by
  -- The second nodes are tokens too, since blanks do not tell tokens from trees.
  have hflat : ∀ m ∈ ms, m.isToken = true := by
    intro m hm
    have hmem : m.bare ∈ ns.map bare := h ▸ List.mem_map_of_mem hm
    rcases List.mem_map.1 hmem with ⟨n, hn, hnm⟩
    rw [← isToken_bare, ← hnm, isToken_bare]
    exact hjoin.flat n hn
  have hne : ms ≠ [] := by
    rintro rfl
    exact hjoin.ne_nil (List.map_eq_nil_iff.1 h)
  have htokens : (tokensIn ns.reverse).map Token.bare = (tokensIn ms.reverse).map Token.bare := by
    rw [tokensIn_bareIn (by simpa using hjoin.flat), tokensIn_bareIn (by simpa using hflat),
      bareIn_eq_map, bareIn_eq_map, List.map_reverse, List.map_reverse, h]
  -- Joined texts keep inner blanks, and these go when the token is laid bare.
  rw [joined_flat (by simpa using hjoin.ne_nil) (by simpa using hjoin.flat),
    joined_flat (by simpa using hne) (by simpa using hflat), bare, bare,
    Token.bare_fuse (hjoin.isJoined hpoint rfl),
    Token.bare_fuse (hjoin.isJoined hpoint htokens.symm), Token.condense_innerChars_congr htokens]

/-- Being the same but for blanks, as a likeness of streams whose terminals are. -/
def Likeness.bare {S T : Stream}
    (hpoint : ∀ i x, S.ahead i = .ok x → x.token.kind = .dot → x.token.text = ".")
    (hst : ∀ i x y, S.ahead i = .ok x → T.ahead i = .ok y → x.content = y.content) :
    Likeness S T where
  Rel _ _ ns ms := ns.map Node.bare = ms.map Node.bare
  nil _ := rfl
  leaf := by
    intro j x y tag hx hy
    have h := hst j x y hx hy
    simp only [Terminal.content, Prod.mk.injEq] at h
    simp [Grammar.leaf, Node.bare, Token.bare, Token.isJoined, h]
  cons := by
    intro i j k ns ms n m hrel hnew
    simp only [List.map_cons, List.map_nil] at hnew ⊢
    rw [(List.cons.inj hnew).1, hrel]
  tree := by
    intro i j ns ms kind hrel
    simp [Node.bare, bareIn_eq_map, List.map_reverse, hrel]
  join := by
    intro i j ns ms kind hrel hjoin
    rw [List.map_singleton, List.map_singleton, hjoin.bare_joined hpoint hrel]

end Grammar

/-! ## Streams of texts -/

namespace Lexeme

/-- A point is never the first part of a longer sign. -/
theorem pair?_ne_dot (c d : Char) : pair? c d ≠ some .dot := by
  unfold pair?
  split <;> exact fun h => by cases h

theorem eq_of_single?_dot {c : Char} (h : single? c = some .dot) : c = '.' := by
  unfold single? at h
  split at h <;> cases h
  rfl

/-- A point is spelled in one way. -/
theorem scan_dot {c : Char} {cs : List Char} {value : Option Number}
    (h : evaluate (scan c cs).shape (scan c cs).taken = .ok (.dot, value)) :
    (scan c cs).taken = ['.'] := by
  rcases scan_cases c cs with ⟨-, hs⟩ | ⟨-, hs⟩ | ⟨-, hs⟩ | ⟨-, hs⟩ | ⟨-, hs⟩
  · rw [hs] at h
    cases h
  · rw [hs] at h
    cases h
  · rw [hs] at h
    unfold cutString at h
    split at h <;> cases h
  · rw [hs] at h
    cases cutNumber_kind h
  · rw [hs] at h ⊢
    unfold cutOther at h ⊢
    split at h
    · -- No pair of characters is a point.
      rename_i kind hpair
      cases h
      rcases Option.bind_eq_some_iff.1 hpair with ⟨d, -, hd⟩
      exact absurd hd (pair?_ne_dot c d)
    · split at h
      · rename_i kind hsingle
        cases h
        rw [eq_of_single?_dot hsingle]
      · cases h

end Lexeme

/-- A point that is read has no other text. -/
theorem Reads.text_dot {p : Nat} {cs r : List Char} {xs : List Lexeme} (h : Reads p cs xs r) :
    ∀ x ∈ xs, x.kind = .dot → x.text = ['.'] := by
  induction h with
  | nil => simp
  | cons read _ ih =>
    intro x hx hk
    rcases List.mem_cons.1 hx with rfl | hx
    · cases hk
      exact Lexeme.scan_dot read
    · exact ih x hx hk

namespace Stream

/-- The terminal of a point has no other text. -/
theorem text_dot {p : Nat} {cs : List Char} {i : Nat} {t : Terminal}
    (h : (ofLexer (.fresh p cs)).ahead i = .ok t) (hk : t.token.kind = .dot) :
    t.token.text = "." := by
  rcases yields_of_ahead h (by rw [hk]; decide) with ⟨us, m, r, -, -, hy⟩
  rcases hy with ⟨reads, -, -, -, -⟩
  rename_i before after x
  have hx : x.kind = .dot := hk
  have htext := reads.text_dot x (List.mem_append_right _ List.mem_cons_self) hx
  simp only [Terminal.ofLexeme, Lexeme.ownText, hx, htext]
  rfl

/-- A stream of a text without an error: its last terminal is the one at the end of the text. -/
structure Ends (S : Stream) (n position : Nat) : Prop where
  ending : S.ending = .finish position
  last : ∃ us blanks, S.terminals = us ++ [.finish position blanks] ∧ us.length = n

/-- A text without an error has a stream up to its end. -/
theorem exists_ends {p : Nat} {cs : List Char} (h : (Lexer.fresh p cs).Clean) :
    ∃ n position, (ofLexer (.fresh p cs)).Ends n position := by
  rcases exists_yielding p cs with ⟨ts, r, hts, ⟨xs, hxs, hblank⟩ | ⟨f, hf⟩⟩
  · have hstream := hts.stream_eq
    rw [ofLexer_of_blank hxs hblank] at hstream
    rw [hstream]
    exact ⟨ts.length, _, rfl, ts, _, rfl, rfl⟩
  · -- The error that the stream ends in would be one of the run.
    have hstream := hts.stream_eq
    rw [hf] at hstream
    have hahead : (ofLexer (.fresh p cs)).ahead ts.length = .error f := by
      rw [hstream]
      simp [ahead]
    have hshows := ofLexer_ahead (.fresh p cs) ts.length
    rw [hahead] at hshows
    rcases hshows with ⟨xs, rest, hrun⟩
    have herror := h (.error f) (by rw [hrun]; simp)
    cases herror

namespace Ends

variable {S T : Stream} {n position position' : Nat}

/-- A stream without an error shows its terminals and then the end of the text. -/
theorem ahead_eq (h : S.Ends n position) (i : Nat) :
    S.ahead i = .ok (S.terminals[i]?.getD (.finish position [])) := by
  unfold ahead
  rw [h.ending]
  cases S.terminals[i]? <;> rfl

/-- Past the end of the text the stream shows the place of its last terminal. -/
theorem exists_span (h : S.Ends n position) {i : Nat} {x : Terminal} (hx : S.ahead i = .ok x) :
    ∃ y, S.terminals[min i n]? = some y ∧ y.span = x.span := by
  rw [h.ahead_eq] at hx
  rcases h.last with ⟨us, blanks, hterminals, rfl⟩
  rw [hterminals] at hx ⊢
  cases hx
  by_cases hi : i ≤ us.length
  · rw [Nat.min_eq_left hi]
    have hlt : i < (us ++ [Terminal.finish position blanks]).length := by
      rw [List.length_append, List.length_singleton]
      omega
    rw [List.getElem?_eq_getElem hlt]
    exact ⟨_, rfl, rfl⟩
  · have hnone : (us ++ [Terminal.finish position blanks])[i]? = none := by
      rw [List.getElem?_eq_none_iff, List.length_append, List.length_singleton]
      omega
    rw [Nat.min_eq_right (by omega), hnone]
    exact ⟨.finish position blanks, by simp, rfl⟩

theorem length_eq (h : S.Ends n position) : S.terminals.length = n + 1 := by
  rcases h.last with ⟨us, blanks, hterminals, rfl⟩
  rw [hterminals, List.length_append, List.length_singleton]

/-- Streams with the same contents show the same contents, also past the end. -/
theorem content_eq (hS : S.Ends n position) (hT : T.Ends n position')
    (h : S.terminals.map Terminal.content = T.terminals.map Terminal.content) {i : Nat}
    {x y : Terminal} (hx : S.ahead i = .ok x) (hy : T.ahead i = .ok y) : x.content = y.content := by
  have hget : (S.terminals[i]?).map Terminal.content = (T.terminals[i]?).map Terminal.content := by
    rw [← List.getElem?_map, h, List.getElem?_map]
  rw [hS.ahead_eq] at hx
  rw [hT.ahead_eq] at hy
  cases hx
  cases hy
  cases hs : S.terminals[i]? with
  | none =>
    cases ht : T.terminals[i]? with
    | none => rfl
    | some y => simp [hs, ht] at hget
  | some x =>
    cases ht : T.terminals[i]? with
    | none => simp [hs, ht] at hget
    | some y => simpa [hs, ht] using hget

/-- Streams that end, with the same terminals but for blanks, show the same to every decision. -/
theorem resembles (hS : S.Ends n position) (hT : T.Ends n position')
    (h : S.terminals.map Terminal.content = T.terminals.map Terminal.content) : S.Resembles T := by
  intro i x hx
  have hcontent := hS.content_eq hT h hx (hT.ahead_eq i)
  simp only [Terminal.content, Prod.mk.injEq] at hcontent
  refine ⟨_, hT.ahead_eq i, ?_⟩
  simp only [Grammar.Glimpse.ofTerminal, hcontent]

end Ends

end Stream

/-! ## Whole texts -/

/-- The layout of a text does not matter. If two texts have no lexical error and the same terminals,
one by one, in kind, text, value and the end of the line behind, then they are parsed to trees that
are the same without blanks, or both fail with the same message at the same terminal. -/
theorem parseUnit_layout {a b : String} (ha : (Lexer.new a.toList).Clean)
    (hb : (Lexer.new b.toList).Clean)
    (h : (terminalsOf a).map Terminal.content = (terminalsOf b).map Terminal.content) :
    match parseUnit a, parseUnit b with
    | .ok A, .ok B => A.bare = B.bare
    | .error e, .error e' => ∃ (i : Nat) (x y : Terminal) (message : String),
        (terminalsOf a)[i]? = some x ∧ (terminalsOf b)[i]? = some y ∧
        e = .grammar ⟨message, x.span⟩ ∧ e' = .grammar ⟨message, y.span⟩
    | _, _ => False := by
  rcases Stream.exists_ends ha with ⟨n, position, hS⟩
  rcases Stream.exists_ends hb with ⟨n', position', hT⟩
  have hlen := congrArg List.length h
  rw [List.length_map, List.length_map, terminalsOf, terminalsOf, Lexer.new_eq_fresh,
    Lexer.new_eq_fresh, hS.length_eq, hT.length_eq] at hlen
  obtain rfl : n = n' := by omega
  have hparse := Grammar.parse_alike
    (.bare (fun _ _ => Stream.text_dot) fun _ _ _ hx hy => hS.content_eq hT h hx hy)
    (hS.resembles hT h) (hT.resembles hS h.symm) .unitItems rfl
  simp only [parseUnit, reportUnit, Lexer.new_eq_fresh]
  generalize (Grammar.parse .unitItems rfl (.ofLexer (.fresh 0 a.toList))).result = A at hparse ⊢
  generalize (Grammar.parse .unitItems rfl (.ofLexer (.fresh 0 b.toList))).result = B at hparse ⊢
  cases A with
  | ok A =>
    cases B with
    | ok B =>
      rcases hparse with ⟨k, hrel⟩
      exact (List.cons.inj hrel).1
    | error e' => exact hparse
  | error e =>
    cases B with
    | ok B => exact hparse
    | error e' =>
      rcases hparse with ⟨f, f', rfl, rfl, hmirror⟩
      cases hmirror with
      | lexical here there =>
        -- The texts have no lexical error.
        rw [hS.ahead_eq] at here
        cases here
      | @grammar i x y cause here there =>
        rcases hS.exists_span here with ⟨x', hx', hspan⟩
        rcases hT.exists_span there with ⟨y', hy', hspan'⟩
        refine ⟨min i n, x', y', cause.message, hx', hy', ?_, ?_⟩
        · rw [hspan]
          rfl
        · rw [hspan']
          rfl

/-- A class with a constructor and a comment, with many blanks. -/
def spacious : String := "class C \x7b \t void . ctor ( ) ; // one  two \r\n\x7d"

/-- The same with few blanks. -/
def dense : String := "class C\x7bvoid .ctor();//one two\n\x7d"

/-- A text with blanks and line breaks at all places where they may stand, and the same text without
them. -/
theorem parseUnit_layout_spacious :
    (Lexer.new spacious.toList).Clean ∧ (Lexer.new dense.toList).Clean ∧
      (terminalsOf spacious).map Terminal.content = (terminalsOf dense).map Terminal.content ∧
      ∃ A B, parseUnit spacious = .ok A ∧ parseUnit dense = .ok B ∧ A ≠ B ∧ A.bare = B.bare := by
  have hclean : (Lexer.new spacious.toList).Clean := by decide +kernel
  have hclean' : (Lexer.new dense.toList).Clean := by decide +kernel
  have hcontent : (terminalsOf spacious).map Terminal.content =
      (terminalsOf dense).map Terminal.content := by decide +kernel
  -- The trees do differ, in their blanks.
  have hne : (parseUnit spacious).toOption ≠ (parseUnit dense).toOption := by decide +kernel
  have hok : (parseUnit spacious).isOk = true := by decide +kernel
  have hok' : (parseUnit dense).isOk = true := by decide +kernel
  have hlayout := parseUnit_layout hclean hclean' hcontent
  refine ⟨hclean, hclean', hcontent, ?_⟩
  obtain ⟨A, hA⟩ := exists_of_isOk hok
  obtain ⟨B, hB⟩ := exists_of_isOk hok'
  rw [hA, hB] at hlayout hne
  refine ⟨A, B, hA, hB, ?_, hlayout⟩
  rintro rfl
  exact hne rfl

end Lossless
