import Lossless.Proofs.Concatenation
import Lossless.Proofs.Layout
import Lossless.Proofs.Origins

/-!
# The lines of comments

A comment is made of the terminals of its line, from two slashes to the first terminal behind which
the line ends, and it has all of the source text between them. A line feed can stand in this text
only where it stands in a terminal. The only terminals with a line feed in them are strings, which
run to the next quotation mark whatever is in between. So a comment is one line, unless a quotation
mark in it opens a string that ends in another line (`comment_line`).
-/

namespace Lossless

open Text Lexeme Lexer

/-! ## Line feeds in trivia and in terminals -/

/-- A line feed comes from a piece that is a line break, and from no other. -/
theorem Trivia.mem_newline_chars {t : Trivia} :
    '\n' ∈ t.chars ↔ t.contains .newline = true := by
  have hpiece : ∀ p : Piece, '\n' ∈ p.chars ↔ p.kind = .newline := by
    intro p
    unfold Piece.chars
    split
    all_goals rename_i hk
    · simp [hk]
    · simp [hk]
    · simp only [hk, iff_true]
      split <;> simp
  simp only [chars, contains, List.mem_flatMap, List.any_eq_true, hpiece, beq_iff_eq]

/-- A lexeme of a text with a line feed in it is a line break or a string. -/
theorem Reads.newline_or_string {p : Nat} {cs r : List Char} {xs : List Lexeme}
    (h : Reads p cs xs r) :
    ∀ x ∈ xs, '\n' ∈ x.text → x.kind = .newline ∨ x.kind = .stringLit := by
  induction h with
  | nil => simp
  | cons read more ih =>
    refine List.forall_mem_cons.2 ⟨fun hmem => ?_, ih⟩
    exact (scan_newline_or_string read hmem).imp_right And.left

/-- A string that begins in one line and ends in another. -/
def Token.SpansLines (t : Token) : Prop := t.kind = .stringLit ∧ '\n' ∈ t.text.toList

/-- The only terminals with a line feed in them are strings. -/
theorem Yields.mem_newline {p : Nat} {cs r : List Char} {t : Terminal} (h : Yields p cs t r) :
    '\n' ∈ t.token.ownChars ↔ t.token.SpansLines := by
  constructor
  · intro hmem
    have hstring : t.token.kind = .stringLit := by
      obtain ⟨reads, front, core, back, sharp⟩ := h
      rename_i before after x
      have hx : x ∈ before ++ x :: after := List.mem_append_right _ List.mem_cons_self
      rw [(reads.genuine x hx).ownChars] at hmem
      refine (reads.newline_or_string x hx hmem).resolve_left ?_
      intro hk
      rw [hk] at core
      cases core
    refine ⟨hstring, ?_⟩
    simpa [Token.ownChars, hstring] using hmem
  · rintro ⟨hstring, hmem⟩
    simp [Token.ownChars, hstring, hmem]

/-- No line ends between the tokens of a list. -/
def Token.InLine (ts : List Token) : Prop := ∀ t ∈ ts.dropLast, t.endsLine = false

/-- Between terminals of one line a line feed can only stand in a terminal. -/
theorem Yielding.mem_newline {p : Nat} {cs r : List Char} {ts : List Terminal}
    (h : Yielding p cs ts r) (hline : Token.InLine (ts.map Terminal.token)) :
    '\n' ∈ Token.innerChars (ts.map Terminal.token) ↔ ∃ t ∈ ts, t.token.SpansLines := by
  induction h with
  | nil => simp [Token.innerChars]
  | @cons p cs m r t ts first more ih =>
    cases ts with
    | nil => simp [Token.innerChars, first.mem_newline]
    | cons u us =>
      obtain ⟨hends, hline⟩ := List.forall_mem_cons.1 hline
      -- The blanks between two terminals belong to the first one.
      have htrailing : '\n' ∉ t.token.trailing.chars := by
        rw [Trivia.mem_newline_chars, ← Token.endsLine, hends]
        exact Bool.false_ne_true
      have hleading : u.token.leading = .empty := more.sharp_iff.1 first.sharp
      have ih := ih hline
      simp only [List.map_cons] at ih
      simp only [List.map_cons, Token.innerChars, List.mem_append, first.mem_newline, htrailing,
        hleading, Trivia.chars_empty, List.not_mem_nil, or_false, ih, List.exists_mem_cons_iff]

/-! ## Lines of a text -/

/-- Terminals stand in a text behind others, up to the end of their line. -/
structure LineAt (text : String) (front line : List Terminal) (rest : List Char) : Prop where
  terminals : front ++ line <+: terminalsOf text
  source : text.toList = Terminal.charsOf (front ++ line) ++ rest
  inLine : Token.InLine (line.map Terminal.token)
  ends : (∃ t ∈ line.getLast?, t.token.endsLine = true) ∨ rest = []

namespace Grammar

/-- The text of a comment goes on to its end without a line break behind a terminal. -/
theorem CommentText.inLine {s : Stream} {ts : List Token} (h : CommentText s ts) :
    Token.InLine ts := by
  induction h with
  | last seen kind ends => simp [Token.InLine]
  | @cons s x ts seen kind goes more ih =>
    rw [Token.InLine, List.dropLast_cons_of_ne_nil more.ne_nil]
    exact List.forall_mem_cons.2 ⟨goes.1, ih⟩

/-- The tokens of a comment are those of its line, the slashes included, put together to one or
two. -/
theorem Parses.exists_line {s s' : State} {node : Node}
    (h : Parses Rule.lineComment.body [] s node s') (hstarts : s.stream.Starts [.doubleSlash]) :
    ∃ d ts, CommentText s.stream (d :: ts) ∧ d.kind = .doubleSlash ∧
      Token.innerChars node.tokens = Token.innerChars (d :: ts) := by
  obtain ⟨d, hd, hcase⟩ := h.lineComment_cases
  have hkind : d.token.kind = .doubleSlash := Stream.kind_of_next? hd hstarts.1
  have hne : d.token.kind ≠ .endOfInput := by
    rw [hkind]
    decide
  rcases hcase with ⟨hends, rfl⟩ | ⟨hline, ts, hts, -, rfl⟩
  · exact ⟨d.token, [], .last hd hne hends, hkind, rfl⟩
  · refine ⟨d.token, ts, .cons hd hne ⟨hline, hts.exists_ahead⟩ hts, hkind, ?_⟩
    cases ts with
    | nil => exact absurd rfl hts.ne_nil
    | cons u us =>
      simp [commentNode, Node.tokens, Node.tokensIn, Token.innerChars, Token.fuse, Token.ownChars]

/-- A comment text of a stream is a line of the text. -/
theorem CommentText.exists_lineAt {text : String} {n : Nat} {ts : List Token}
    (h : CommentText ((Stream.ofLexer (.new text.toList)).drop n) ts) :
    ∃ front line rest, LineAt text front line rest ∧ ts = line.map Terminal.token ∧
      ('\n' ∈ Token.innerChars ts ↔ ∃ t ∈ line, t.token.SpansLines) := by
  rw [new_eq_fresh] at h
  obtain ⟨x, hx, hk⟩ := h.exists_ahead
  rw [Stream.ahead_drop, Nat.add_zero] at hx
  obtain ⟨front, m, -, rfl, hfront, -⟩ := Stream.yields_of_ahead hx hk
  have hline := h.inLine
  rw [Stream.drop_of_yielding hfront] at h
  obtain ⟨us, z, m', rest, hus, hz, rfl, hends⟩ := h.exists_yielding
  have hall := hus.append (.cons hz .nil)
  refine ⟨front, us ++ [z], rest, ⟨?_, ?_, hline, ?_⟩, rfl, hall.mem_newline hline⟩
  · rw [terminalsOf, new_eq_fresh, (hfront.append hall).stream_eq]
    exact List.prefix_append _ _
  · exact (hfront.append hall).text_eq
  · rcases hends 0 with hline | ⟨y, hy, hk⟩
    · exact Or.inl ⟨z, by simp, hline⟩
    · exact Or.inr (Stream.eq_nil_of_end hz.sharp hy hk)

end Grammar

/-- A comment has the source text of its line, from the slashes to the last terminal before the end
of the line. There is a line feed in it iff one of these terminals is a string with a line feed. -/
theorem comment_line {text : String} {tree c : Node} (h : parseUnit text = .ok tree)
    (hc : c ∈ tree.descendants) (hkind : c.kind = .comment) :
    ∃ front line rest, LineAt text front line rest ∧
      (line.head?.map fun t => t.token.kind) = some .doubleSlash ∧
      Token.innerChars c.tokens = Token.innerChars (line.map Terminal.token) ∧
      ('\n' ∈ Token.innerChars c.tokens ↔ ∃ t ∈ line, t.token.SpansLines) := by
  rw [parseUnit, reportUnit, new_eq_fresh] at h
  obtain ⟨-, hconforms⟩ := Grammar.conforms_of_parse .unitItems rfl (fun _ => .nil _) h
  have horigin := Grammar.sourced_of_parse .unitItems rfl (fun _ => .nil _) h c hc
  -- A comment is a tree, for no terminal has its kind.
  cases c with
  | token t =>
    have hterminal : t.kind.isTerminal = true := hconforms _ hc
    rw [show t.kind = .comment from hkind] at hterminal
    cases hterminal
  | tree k cs =>
    cases hkind
    -- The tree was made by the rule for a line, which stops at the end of the line.
    obtain ⟨n, log, s', hstarts, hparses⟩ := horigin.of_comment
    obtain ⟨d, ts, htext, hslashes, hinner⟩ := hparses.exists_line hstarts
    obtain ⟨front, line, rest, hline, hts, hiff⟩ := htext.exists_lineAt
    refine ⟨front, line, rest, hline, ?_, ?_, ?_⟩
    · obtain ⟨x, xs, rfl, rfl, -⟩ := List.map_eq_cons_iff.1 hts.symm
      rw [List.head?_cons, Option.map_some, hslashes]
    · rw [hinner, hts]
    · rw [hinner, hiff]

/-- A class between two comments, each with one quotation mark. -/
def quotedClass : String := "// \"\nclass A \x7b \x7d\n// \"\n"

/-- The whole text is one comment, and the class is in its string. -/
theorem exists_comment_quotedClass :
    ∃ tree c, parseUnit quotedClass = .ok tree ∧ c ∈ tree.descendants ∧ c.kind = .comment ∧
      Token.innerChars c.tokens = "// \"\nclass A \x7b \x7d\n// \"".toList := by
  have hfound : ∃ tree ∈ (parseUnit quotedClass).toOption, ∃ c ∈ tree.descendants,
      c.kind = .comment ∧
        Token.innerChars c.tokens = "// \"\nclass A \x7b \x7d\n// \"".toList := by
    decide +kernel
  obtain ⟨tree, htree, c, hc, hkind, hinner⟩ := hfound
  exact ⟨tree, c, eq_ok_of_mem_toOption htree, hc, hkind, hinner⟩

/-- The string in the comment goes on over the next line, so the class is in the comment. -/
theorem comment_line_quotedClass :
    ∃ tree c, parseUnit quotedClass = .ok tree ∧ c ∈ tree.descendants ∧ c.kind = .comment ∧
      ∃ front line rest, LineAt quotedClass front line rest ∧ ∃ t ∈ line, t.token.SpansLines := by
  obtain ⟨tree, c, h, hc, hkind, hinner⟩ := exists_comment_quotedClass
  obtain ⟨front, line, rest, hline, -, -, hiff⟩ := comment_line h hc hkind
  refine ⟨tree, c, h, hc, hkind, front, line, rest, hline, hiff.1 ?_⟩
  rw [hinner]
  decide

/-- So a comment can have more than one line. -/
theorem not_comment_one_line :
    ¬∀ (text : String) (tree c : Node), parseUnit text = .ok tree → c ∈ tree.descendants →
      c.kind = .comment → '\n' ∉ Token.innerChars c.tokens := by
  intro hall
  obtain ⟨tree, c, h, hc, hkind, hinner⟩ := exists_comment_quotedClass
  apply hall quotedClass tree c h hc hkind
  rw [hinner]
  decide

end Lossless
