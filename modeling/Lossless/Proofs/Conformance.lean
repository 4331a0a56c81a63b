import Lossless.Proofs.Construction
import Lossless.Proofs.Locality

/-!
# Every tree obeys the schema

Each rule builds what the schema asks for (`builds_body`). By induction over derivations all that a
parse makes then conforms to the schema (`Parses.conforms`), whether a whole text is parsed or a
class at an offset (`conforms_of_parse_ok`).
-/

namespace Lossless

namespace Grammar

open Pattern Schema RegularExpression

/-! ## The rules build what the schema asks for -/

/-- An item begins with the terminal that tells it apart. -/
theorem item?_awaits {g : Glimpse} {r : Rule} (h : item? g = some r) :
    r.awaits = [] ∨ r.awaits = [g.kind] := by
  unfold item? at h
  repeat' split at h
  all_goals simp_all
  all_goals subst h; simp

/-- An item is called for, and more items follow. -/
theorem builds_item {rule r : Rule} (loop : Rule) {s : Stream} {p : Pattern} {g : Glimpse}
    (hg : s.next? = some g.kind) (hr : item? g = some r) (hawaits : loop.awaits = [])
    (hmore : ∀ next, Fits (p * item) (loop.begun next)) (hmakes : Fits loop.makes rule.makes) :
    Builds rule (.call r (.goto loop)) s p := by
  have hmem := item?_mem hr
  -- An item waits for nothing, or for the terminal by which it was chosen.
  have hstarts : s.Starts r.awaits := by
    rcases item?_awaits hr with h | h
    · rw [h]
      trivial
    · rw [h]
      exact ⟨hg, trivial⟩
  -- An item is made by one of six rules, which all make a tree of a kind of its own.
  have hbegun : Fits 1 (r.begun s.next?) ∧ Fits r.makes item := by
    simp only [List.mem_cons, List.not_mem_nil, or_false] at hmem
    rcases hmem with rfl | rfl | rfl | rfl | rfl | rfl
    case inr.inr.inr.inr.inr => exact ⟨.nil _, .treeOf (by decide)⟩
    all_goals exact ⟨.refl 1, .treeOf (by decide)⟩
  refine ⟨hstarts, hbegun.1, ?_⟩
  intro s' _
  exact ⟨loop.starts hawaits s', ((Fits.refl p).mul hbegun.2).trans (hmore _), hmakes⟩

/-- What starts no item is none of the marks that items start with. -/
theorem kind_of_item?_none {g : Glimpse} (h : item? g = none) :
    g.kind ∉ [Kind.doubleSlash, .blockCommentStart, .leftBracket] := by
  intro hmem
  simp only [List.mem_cons, List.not_mem_nil, or_false] at hmem
  rcases hmem with hk | hk | hk
  all_goals simp [item?, hk] at h

/-- A unit has items, and terminals that are not words, up to the end of the text. -/
theorem builds_unitItems (s : Stream) :
    Builds .unitItems Rule.unitItems.body s (Rule.begun s.next? .unitItems) := by
  rw [Rule.body, unitItems_eq]
  intro t ht hl
  have hnext := Stream.next?_of_ahead ht rfl
  refine .elim (fun hitem => ?_) fun r hitem => ?_
  · refine .ite (fun hend => ?_) fun hend => ?_
    · refine .bump (Stream.next?_of_ahead ht hend) fun _ => ?_
      exact ⟨.refl _, .refl _⟩
    · refine .ite (fun _ => trivial) fun hident => ?_
      refine .bump hnext fun hlex => ?_
      refine ⟨trivial, (Fits.refl _).snoc (.right (.anyBut hlex ?_)), .refl _⟩
      have hother := kind_of_item?_none hitem
      simp only [List.mem_cons, List.not_mem_nil, or_false, not_or] at hother ⊢
      exact ⟨hident, hother.1, hother.2.1, hother.2.2, hend⟩
  · refine builds_item .unitItems hnext hitem rfl ?_ (.refl _)
    intro next
    exact (Fits.refl _).snoc (.left (.refl _))

/-- Between `using` and the name there may be `static`, or a word and an equals sign. -/
theorem builds_usingDirective {s : Stream} (hs : s.Starts [.ident]) :
    Builds .usingDirective Rule.usingDirective.body s 1 := by
  -- What comes between `using` and the name is optional.
  have hpath : ∀ s, Builds .usingDirective
      (.call .qualifiedName (expect .semicolon .usingWithoutSemicolon (.close .usingDirective))) s
      (terminal .ident * optional (terminal .staticMod + terminal .ident * terminal .equals)) := by
    intro s
    refine ⟨trivial, .refl 1, ?_⟩
    intro s' _
    exact .expect ⟨.refl _, .refl _⟩
  refine .bump hs.1 fun _ => ?_
  intro t ht hl
  refine .ite (fun _ => ?_) fun _ => .ite (fun hident => ?_) fun _ => ?_
  · refine .tagged (by decide) ((hpath _).mono ?_)
    exact (Fits.unit (.refl _)).mul (.some (.left (.refl _)))
  · intro t₁ ht₁ hl₁
    refine .ite (fun hequals => ?_) fun _ => ?_
    · refine .bump (Stream.next?_of_ahead ht hident) fun _ => ?_
      refine .bump (Stream.next?_tail_of_ahead ht₁ hequals) fun _ => ?_
      exact (hpath _).mono (.group ((Fits.unit (.refl _)).mul (.some (.right (.refl _)))))
    · exact (hpath _).mono (.unit (.skip (.refl _)))
  · exact (hpath _).mono (.unit (.skip (.refl _)))

theorem builds_namespaceDecl {s : Stream} (hs : s.Starts [.ident]) :
    Builds .namespaceDecl Rule.namespaceDecl.body s 1 := by
  refine .bump hs.1 fun _ => ⟨trivial, .refl 1, ?_⟩
  intro s' _
  refine ⟨(Fits.unit (.refl _)).mul (.refl _), .expect ⟨trivial, .start (.refl _), .refl _⟩⟩

/-- A terminal that is passed over is kept, and the namespace goes on. -/
theorem builds_passOver {rule : Rule} {s : Stream} {depth : Nat} {g : Glimpse}
    (hg : s.next? = some g.kind) (hend : g.kind ≠ .endOfInput)
    (hmakes : Fits (tree .namespaceDecl) rule.makes) :
    Builds rule (passOver depth g) s (Rule.begun s.next? .namespaceItems) := by
  -- Any terminal but the end extends what the namespace holds.
  have hmore : g.kind.isLexical = true →
      Fits (Rule.begun s.next? .namespaceItems * terminal g.kind)
        (Rule.begun s.tail.next? .namespaceItems) := by
    intro hlex
    exact (Fits.refl _).more (.right (.anyBut hlex (by simpa using hend)))
  rw [passOver_eq]
  refine .bump hg fun hlex => ?_
  have hitems : Builds rule (.goto .namespaceItems) s.tail
      (Rule.begun s.next? .namespaceItems * terminal g.kind) := ⟨trivial, hmore hlex, hmakes⟩
  have hpassing : ∀ n, Builds rule (.goto (.passing n)) s.tail
      (Rule.begun s.next? .namespaceItems * terminal g.kind) :=
    fun n => ⟨trivial, hmore hlex, hmakes⟩
  -- However deep the braces are, the same pattern has grown by this terminal.
  refine .ite (fun _ => hpassing _) fun _ => .ite (fun _ => ?_) fun _ =>
    .ite (fun _ => ?_) fun _ => ?_
  · exact .ite (fun _ => hitems) fun _ => hpassing _
  · exact .ite (fun _ => hitems) fun _ => hpassing _
  · exact hpassing _

/-- A namespace ends with its closing brace, behind items and what was passed over. -/
theorem builds_namespaceItems (s : Stream) :
    Builds .namespaceItems Rule.namespaceItems.body s (Rule.begun s.next? .namespaceItems) := by
  rw [Rule.body, namespaceItems_eq]
  intro t ht hl
  have hnext := Stream.next?_of_ahead ht rfl
  refine .elim (fun _ => ?_) fun r hitem => ?_
  · refine .ite (fun hclose => ?_) fun _ => .ite (fun _ => trivial) fun hend => ?_
    · exact .bump (Stream.next?_of_ahead ht hclose) fun _ => ⟨.refl _, .refl _⟩
    · exact builds_passOver hnext hend (.refl _)
  · refine builds_item .namespaceItems hnext hitem rfl ?_ (.refl _)
    intro next
    exact (Fits.refl _).more (.left (.refl _))

/-- What is passed over adds terminals to the namespace; its items go on behind it. -/
theorem builds_passing (depth : Nat) (s : Stream) :
    Builds (.passing depth) (Rule.passing depth).body s (Rule.begun s.next? (.passing depth)) := by
  intro t ht hl
  have hnext := Stream.next?_of_ahead ht rfl
  have hitems : Builds (.passing depth) (.goto .namespaceItems) s
      (Rule.begun s.next? (.passing depth)) := ⟨trivial, .refl _, .refl _⟩
  refine .ite (fun _ => ?_) fun hend => ?_
  · exact .ite (fun _ => hitems) fun _ => trivial
  · exact .ite (fun _ => hitems) fun _ => builds_passOver hnext hend (.refl _)

/-! ### Comments -/

/-- A comment has two slashes, and a text unless they end their line. -/
theorem builds_lineComment {s : Stream} (hs : s.Starts [.doubleSlash]) :
    Builds .lineComment Rule.lineComment.body s 1 := by
  have hclose : ∀ s, Builds .lineComment (.close .comment) s (1 * terminal .doubleSlash) :=
    fun s => ⟨.unit (.skip (.refl _)), .refl _⟩
  intro t ht hl
  refine .bump hs.1 fun _ => .ite (fun _ => hclose _) fun _ => ?_
  refine .ifAt (fun _ => hclose _) fun _ => ⟨trivial, .nil _, ?_⟩
  intro s' _
  exact ⟨(Fits.unit (.refl _)).mul (.some (.refl _)), .refl _⟩

/-- The text of a comment is fused from at least one terminal. -/
theorem builds_commentText (s : Stream) :
    Builds .commentText Rule.commentText.body s (Rule.begun s.next? .commentText) := by
  intro t ht hl
  refine .bump (Stream.next?_of_ahead ht rfl) fun hlex => ?_
  have hjoin : ∀ p, Builds .commentText (.join .commentText) s.tail p := fun p => ⟨rfl, .refl _⟩
  refine .ite (fun _ => hjoin _) fun _ => .ifAt (fun _ => hjoin _) fun _ => ?_
  refine ⟨trivial, (Fits.refl _).snoc (.oneOf ?_), .refl _⟩
  exact List.mem_filter.2 ⟨Kind.mem_all _, hlex⟩

/-- What is kept up to a mark has its front, terminals other than the mark, and the mark. -/
theorem Verbatim.fits_content (what : Verbatim) :
    Fits (what.front * upTo what.mark * terminal what.mark) (content what.kind) := by
  cases what with
  | blockComment => exact .refl _
  | propertyBody => exact .refl _
  | methodBody =>
    have hbody : Fits (terminal .leftBrace * (upTo .rightBrace * terminal .rightBrace))
        (terminal .semicolon + terminal .leftBrace * upTo .rightBrace * terminal .rightBrace) :=
      .right (.ungroup (.refl _))
    exact .group (.group ((Fits.refl signature).mul hbody))

theorem Verbatim.fits_front (what : Verbatim) :
    Fits (what.before * terminal .leftBrace) what.front := by
  cases what with
  | blockComment => exact .of_zero_mul _ _
  | propertyBody => exact .unit (.refl _)
  | methodBody => exact .refl _

/-- Terminals are kept up to the first closing mark, which ends the node. -/
theorem builds_upToClose (what : Verbatim) (s : Stream) :
    Builds (.upToClose what) (Rule.upToClose what).body s
      (Rule.begun s.next? (.upToClose what)) := by
  intro t ht hl
  have hnext := Stream.next?_of_ahead ht rfl
  refine .ite (fun _ => trivial) fun hend => .bump hnext fun hlex => ?_
  refine .ite (fun hmark => ?_) fun hmark => ?_
  · have hbrace : s.next? ≠ some .leftBrace := by
      rw [hnext, show t.token.kind = what.mark from hmark]
      cases what <;> decide
    refine ⟨?_, .refl _⟩
    rw [show t.token.kind = what.mark from hmark, Rule.begun, if_neg hbrace]
    exact .of_add_mul what.fits_content (.of_zero_mul _ _)
  · refine ⟨trivial, .left (.of_add_mul ?_ ?_), .refl _⟩
    · refine (Fits.refl _).more (.anyBut hlex ?_)
      simp only [List.mem_cons, List.not_mem_nil, or_false, not_or]
      exact ⟨hmark, hend⟩
    · -- The opening brace of a body completes what stands in front of it.
      split
      · rename_i hbrace
        rw [show t.token.kind = .leftBrace from Stream.kind_of_next? ht hbrace]
        exact .start what.fits_front
      · exact .of_zero_mul _ _

/-! ### Attributes and names -/

/-- An attribute has a name and may have arguments, between square brackets. -/
theorem builds_attributeSection {s : Stream} (hs : s.Starts [.leftBracket]) :
    Builds .attributeSection Rule.attributeSection.body s 1 := by
  refine .bump hs.1 fun _ => ⟨trivial, .refl 1, ?_⟩
  intro s' _
  refine .optionally rfl (fun _ => .refl 1) fun s => .expect ⟨?_, .refl _⟩
  exact ((Fits.unit (.refl _)).mul (.refl _)).mul (.refl _) |>.mul (.refl _)

/-- A word may begin a name with points; other values stand alone. -/
theorem fits_values {k : Kind} (h : values.contains k = true) :
    Fits (terminal k) (if decide (k = .ident) then dotted else oneOf [.stringLit, .numberLit]) := by
  rw [values_contains] at h
  have hmem : k ∈ [Kind.stringLit, .numberLit, .ident] := List.contains_iff_mem.1 h
  simp only [List.mem_cons, List.not_mem_nil, or_false] at hmem
  rcases hmem with rfl | rfl | rfl
  · exact .oneOf (by decide)
  · exact .oneOf (by decide)
  · exact .start (.refl _)

theorem builds_argumentValue {rule : Rule} {s : Stream} {p : Pattern} {g : Glimpse}
    (assignable : Bool) (hg : s.next? = some g.kind) (hp : Fits p (argumentFront assignable))
    (hmakes : Fits (tree .attributeArgs) rule.makes) :
    Builds rule (argumentValue assignable g) s p := by
  refine .ite (fun hvalue => .bump hg fun _ => ⟨trivial, ?_, hmakes⟩) fun _ => trivial
  exact hp.mul (fits_values hvalue)

/-- An argument list ends with its parenthesis, also right behind the opening one. -/
theorem builds_argumentItems (s : Stream) :
    Builds .argumentItems Rule.argumentItems.body s (Rule.begun s.next? .argumentItems) := by
  intro t ht hl
  have hnext := Stream.next?_of_ahead ht rfl
  refine .ite (fun hclose => ?_) fun hclose => ?_
  · have hparen := Stream.next?_of_ahead ht hclose
    refine .bump hparen fun _ => ⟨?_, .refl _⟩
    rw [Rule.begun, hparen, listed_mark]
    exact .refl _
  · refine builds_argumentValue true hnext ?_ (.refl _)
    rw [Rule.begun, listed_of_ne (Stream.next?_ne_of_ahead ht hclose)]
    exact .refl _

/-- Behind a value come a point and more of a name, an equals sign and one more value, a comma or
the end of the list. -/
theorem builds_argumentTail (named assignable : Bool) (s : Stream) :
    Builds (.argumentTail named assignable) (Rule.argumentTail named assignable).body s
      (Rule.begun s.next? (.argumentTail named assignable)) := by
  have hvalue : Fits (if named then dotted else oneOf [.stringLit, .numberLit]) value := by
    cases named with
    | true => exact .right (.refl _)
    | false => exact .left (.refl _)
  -- The value completes the argument, whether it is assigned or not.
  have hargument : Fits (Rule.begun s.next? (.argumentTail named assignable))
      (terminal .leftParen * (argument * terminal .comma).star * argument) := by
    cases assignable with
    | true =>
      exact (Fits.refl _).mul hvalue.skipped
    | false => exact .regroup ((Fits.mul (.refl _) (.some (.refl _))).mul hvalue)
  intro t ht hl
  have hending : Builds (.argumentTail named assignable)
      (if assignable ∧ t.token.kind = .equals then bump (.look 0 (argumentValue false))
        else if t.token.kind = .comma then bump (.goto .argumentItems)
        else if t.token.kind = .rightParen then .goto .argumentItems
        else .fail .attributeArgument) s (Rule.begun s.next? (.argumentTail named assignable)) := by
    refine .ite (fun h => ?_) fun _ => .ite (fun hcomma => ?_) fun _ =>
      .ite (fun hclose => ?_) fun _ => trivial
    · rcases h with ⟨rfl, hequals⟩
      refine .bump (Stream.next?_of_ahead ht hequals) fun _ => ?_
      intro t₁ ht₁ hl₁
      refine builds_argumentValue false (Stream.next?_of_ahead ht₁ rfl) ?_ (.refl _)
      exact .group ((Fits.refl _).mul (hvalue.mul (.refl _)))
    · refine .bump (Stream.next?_of_ahead ht hcomma) fun _ => ⟨trivial, ?_, .refl _⟩
      refine (hargument.mul (.refl _)).trans (fits_listed_of_star ?_)
      exact .group ((Fits.refl _).more (.refl _))
    · refine ⟨trivial, ?_, .refl _⟩
      rw [Rule.begun, Stream.next?_of_ahead ht hclose, listed_mark]
      exact .regroup (hargument.trans ((Fits.refl _).mul (.some (.refl _))))
  refine .ite (fun h => ?_) fun _ => hending
  rcases h with ⟨rfl, hdot⟩
  intro t₁ ht₁ hl₁
  refine .ite (fun hident => ?_) fun _ => hending
  refine .bump (Stream.next?_of_ahead ht hdot) fun _ => ?_
  refine .bump (Stream.next?_tail_of_ahead ht₁ hident) fun _ => ?_
  refine ⟨trivial, .group (.group ?_), .refl _⟩
  exact (Fits.refl _).mul ((Fits.refl _).more (.refl _))

theorem builds_qualifiedName (s : Stream) :
    Builds .qualifiedName Rule.qualifiedName.body s 1 :=
  .expect ⟨trivial, .unit (.start (.refl _)), .refl _⟩

/-- A name goes on behind each point that a word follows. -/
theorem builds_qualifiedTail (s : Stream) :
    Builds .qualifiedTail Rule.qualifiedTail.body s dotted := by
  have hclose : Builds .qualifiedTail (.close .qualifiedName) s dotted := ⟨.refl _, .refl _⟩
  refine .ifAt (fun hdot => ?_) fun _ => hclose
  intro t ht hl
  refine .ite (fun hident => ?_) fun _ => hclose
  refine .bump hdot fun _ => ?_
  refine .bump (Stream.next?_tail_of_ahead ht hident) fun _ => ?_
  exact ⟨trivial, .group ((Fits.refl _).more (.refl _)), .refl _⟩

/-! ### Classes -/

/-- Modifiers are collected in front of `class`, each under its own kind. -/
theorem builds_classDecl (s : Stream) :
    Builds .classDecl Rule.classDecl.body s classModifiers := by
  rw [Rule.body, classDecl_eq]
  intro t ht hl
  refine .elim (fun _ => .ite (fun hword => ?_) fun _ => trivial) fun tag htag => ?_
  · refine .classWord ht hword ?_
    intro t₁ ht₁ hl₁
    refine .ite (fun hident => ?_) fun _ => trivial
    refine .bump (Stream.next?_of_ahead ht₁ hident) fun _ => ?_
    exact ⟨trivial, .refl _, .refl _⟩
  · have hmem := classModifier?_mem (word?_bind htag).2
    have hsub : [Kind.accessor, .abstractMod, .sealedMod, .staticMod] ⊆ Kind.tags := by decide
    exact .tagged (hsub hmem) ⟨trivial, (Fits.refl _).snoc (.oneOf hmem), .refl _⟩

/-- Behind the name come type parameters, base types and a comment, each if it is there, and then
the block. -/
theorem builds_classTail (name : String) (s : Stream) :
    Builds (.classTail name) (Rule.classTail name).body s
      (classModifiers * char .classWord * terminal .ident) := by
  refine .optionally rfl (fun _ => .refl 1) fun s => ?_
  refine .optionally rfl (fun _ => .refl 1) fun s => ⟨.refl _, ?_⟩
  refine .optionally rfl (fun _ => .refl 1) fun s => ?_
  refine .ifAt (fun hbrace => ⟨⟨hbrace, trivial⟩, .refl 1, ?_⟩) fun _ => trivial
  intro s' _
  exact ⟨.refl _, .refl _⟩

/-- Base types follow a colon. -/
theorem builds_inheritance {s : Stream} (hs : s.Starts [.colon]) :
    Builds .inheritance Rule.inheritance.body s 1 := by
  refine .bump hs.1 fun _ => ⟨trivial, .refl 1, ?_⟩
  intro s' _
  exact ⟨trivial, .start ((Fits.unit (.refl _)).mul (.refl _)), .refl _⟩

/-- Another base type follows each comma. -/
theorem builds_inheritanceTail (s : Stream) :
    Builds .inheritanceTail Rule.inheritanceTail.body s
      (terminal .colon * tree .typeRef * (terminal .comma * tree .typeRef).star) := by
  refine .ifAt (fun hcomma => ?_) fun _ => ⟨.refl _, .refl _⟩
  refine .bump hcomma fun _ => ⟨trivial, .refl 1, ?_⟩
  intro s' _
  exact ⟨trivial, .group ((Fits.refl _).more (.refl _)), .refl _⟩

/-- Whether a class is nested is decided by looks, so both ways start from the same nodes. -/
theorem builds_ifNestedClass {rule : Rule} {s : Stream} {p : Pattern} {g : Glimpse} {yes no : Step}
    (hyes : Builds rule yes s p) (hno : Builds rule no s p) :
    Builds rule (ifNestedClass g yes no) s p := by
  refine .ite (fun _ => hyes) fun _ => .ite (fun _ => ?_) fun _ => hno
  intro t ht hl
  refine .ite (fun _ => hyes) fun _ => .ite (fun _ => ?_) fun _ => hno
  intro t₁ ht₁ hl₁
  exact .ite (fun _ => hyes) fun _ => hno

/-- A block has comments, attributes, classes and members up to its closing brace. -/
theorem builds_classItems (name : String) (s : Stream) :
    Builds (.classItems name) (Rule.classItems name).body s
      (Rule.begun s.next? (.classItems name)) := by
  -- What is called for is one more child of the block.
  have hcall : ∀ r : Rule, s.Starts r.awaits → Fits 1 (r.begun s.next?) →
      Fits r.makes
        (treeOf [.comment, .blockComment, .attributeSection, .classDecl] + treeOf memberKinds) →
      Builds (.classItems name) (.call r (.goto (.classItems name))) s
        (Rule.begun s.next? (.classItems name)) := by
    intro r hstarts hbegun hmakes
    refine ⟨hstarts, hbegun, ?_⟩
    intro s' _
    exact ⟨trivial, (Fits.refl _).more hmakes, .refl _⟩
  rw [Rule.body, classItems_eq]
  intro t ht hl
  refine .ite (fun hclose => ?_) fun _ => .ite (fun _ => trivial) fun _ => ?_
  · exact .bump (Stream.next?_of_ahead ht hclose) fun _ => ⟨.refl _, .refl _⟩
  refine .ite (fun hk => ?_) fun _ => .ite (fun hk => ?_) fun _ => .ite (fun hk => ?_) fun _ => ?_
  · exact hcall .lineComment ⟨Stream.next?_of_ahead ht hk, trivial⟩ (.refl 1)
      (.left (.treeOf (by decide)))
  · exact hcall .blockComment ⟨Stream.next?_of_ahead ht hk, trivial⟩ (.refl 1)
      (.left (.treeOf (by decide)))
  · exact hcall .attributeSection ⟨Stream.next?_of_ahead ht hk, trivial⟩ (.refl 1)
      (.left (.treeOf (by decide)))
  · exact builds_ifNestedClass (hcall .classDecl trivial (.nil _) (.left (.treeOf (by decide))))
      (hcall (.member name) trivial (.nil _) (.right (.refl _)))

/-! ### Members -/

/-- A member starts with its accessors. -/
theorem builds_member (name : String) (s : Stream) :
    Builds (.member name) (Rule.member name).body s (terminal .accessor).star := by
  intro t ht hl
  refine .ite (fun _ => ?_) fun _ => ⟨trivial, .start (.refl _), .refl _⟩
  exact .tagged (by decide) ⟨trivial, (Fits.refl _).snoc (.refl _), .refl _⟩

/-- A name that is a single part in front of a parenthesis ends there. -/
theorem Rule.Leaves.memberName {s s' : Stream} (h : Rule.memberName.Leaves s s')
    (hk : s.tail.next? = some .leftParen) : s' = s.tail := by
  -- The derivation is taken apart step by step: one part is taken, and the look behind it sees a
  -- parenthesis, with which no name goes on.
  rcases h with ⟨node, log, log', h⟩
  cases h with
  | look seen rest =>
    dsimp only at rest
    split at rest
    · cases rest with
      | take seen₁ rest =>
        cases rest with
        | goto rest =>
          cases rest with
          | look seen₂ rest =>
            dsimp only at rest
            rw [if_neg] at rest
            · cases rest
              rfl
            · rw [show (Glimpse.ofTerminal _).kind = _ from Stream.kind_of_next? seen₂ hk,
                nameParts_contains]
              decide
    · cases rest

/-- Behind the modifiers come a type and a name; only a constructor with the name of its class has
no type. -/
theorem builds_memberModifiers (name : String) (s : Stream) :
    Builds (.memberModifiers name) (Rule.memberModifiers name).body s header := by
  rw [Rule.body, memberModifiers_eq]
  intro t ht hl
  refine .elim (fun _ => .ite (fun _ => trivial) fun _ => ?_) fun tag htag => ?_
  · intro t₁ ht₁ hl₁
    have hplain : Builds (.memberModifiers name)
        (if (Glimpse.ofTerminal t).is name ∧ (Glimpse.ofTerminal t₁).kind = .leftParen then
          .call .memberName (.goto (.memberTail true))
        else .call .typeRef (.call .memberName (.goto (.memberTail false)))) s header := by
      refine .ite (fun hctor => ⟨trivial, .refl 1, ?_⟩) fun _ => ⟨trivial, .refl 1, ?_⟩
      · -- The type may be missing only because a parenthesis is known to follow the name.
        intro s' hs'
        have hparen : s.tail.next? = some .leftParen :=
          Stream.next?_tail_of_ahead ht₁ hctor.2
        rw [hs'.memberName hparen]
        refine ⟨trivial, ?_, .refl _⟩
        rw [hparen]
        exact (Fits.skip (.refl _)).mul (.refl _)
      · intro s₁ _
        refine ⟨trivial, .refl 1, ?_⟩
        intro s₂ _
        exact ⟨trivial, .refl _, .refl _⟩
    refine .ite (fun _ => ?_) fun _ => hplain
    intro t₂ ht₂ hl₂
    refine .ite (fun _ => ⟨trivial, .refl 1, ?_⟩) fun _ => hplain
    intro s₁ _
    refine ⟨trivial, .refl 1, ?_⟩
    intro s₂ _
    refine ⟨trivial, ((Fits.refl _).mul ?_).mul (.refl _), .refl _⟩
    split
    · exact .some (.refl _)
    · exact .refl _
  · have hmem := memberModifier?_mem (word?_bind htag).2
    have hsub : modifierWords.map Prod.snd ⊆ Kind.tags := by decide
    exact .tagged (hsub hmem) ⟨trivial, (Fits.refl _).more (.oneOf hmem), .refl _⟩

/-- What a member is shows behind its name: a semicolon, an initializer, a body in braces or
parameters. -/
theorem builds_memberTail (isCtor : Bool) (s : Stream) :
    Builds (.memberTail isCtor) (Rule.memberTail isCtor).body s
      (Rule.begun s.next? (.memberTail isCtor)) := by
  rw [Rule.body, memberTail_eq]
  intro t ht hl
  -- Anything but a parenthesis tells that there is a type.
  have htyped : ∀ {k : Kind}, t.token.kind = k → k ≠ .leftParen →
      Fits (Rule.begun s.next? (.memberTail isCtor))
        (header * tree .typeRef * tree .memberName) := by
    rintro k rfl hk
    rw [Rule.begun, if_neg fun h => Stream.next?_ne_of_ahead ht hk h.2]
    exact .refl _
  refine .ite (fun hk => ?_) fun _ => .ite (fun hk => ?_) fun _ => .ite (fun hk => ?_) fun _ =>
    .ite (fun hk => ?_) fun _ => trivial
  · refine .bump (Stream.next?_of_ahead ht hk) fun _ => ⟨?_, .treeOf (by decide)⟩
    exact (htyped hk (by decide)).skip.mul (.refl _)
  · refine ⟨⟨Stream.next?_of_ahead ht hk, trivial⟩, .refl 1, ?_⟩
    intro s' _
    refine .expect ⟨?_, .treeOf (by decide)⟩
    exact ((htyped hk (by decide)).mul (.some (.refl _))).mul (.refl _)
  · refine ⟨trivial, ?_, ?_⟩
    · rw [Rule.begun, if_pos (Stream.next?_of_ahead ht hk)]
      exact .right (.refl 1)
    · intro s' _
      refine ⟨?_, .treeOf (by decide)⟩
      exact (htyped hk (by decide)).mul (.refl _)
  · refine ⟨⟨Stream.next?_of_ahead ht hk, trivial⟩, .refl 1, ?_⟩
    intro s' _
    cases isCtor with
    | true =>
      refine ⟨?_, .treeOf (by decide)⟩
      rw [Rule.begun, if_pos ⟨rfl, Stream.next?_of_ahead ht hk⟩]
      exact .refl _
    | false =>
      refine ⟨?_, .treeOf (by decide)⟩
      rw [Rule.begun, if_neg fun h => Bool.false_ne_true h.1]
      exact .refl _

theorem fits_nameParts {k : Kind} (h : nameParts.contains k = true) :
    Fits (terminal k) namePart := by
  rw [nameParts_contains] at h
  exact .oneOf (List.contains_iff_mem.1 h)

theorem builds_memberName (s : Stream) : Builds .memberName Rule.memberName.body s 1 := by
  intro t ht hl
  refine .ite (fun hpart => ?_) fun _ => trivial
  refine .bump (Stream.next?_of_ahead ht rfl) fun _ => ?_
  exact ⟨trivial, .unit (.start (fits_nameParts hpart)), .refl _⟩

/-- The name of a member has one or more parts in a row. -/
theorem builds_memberNameTail (s : Stream) :
    Builds .memberNameTail Rule.memberNameTail.body s (namePart * namePart.star) := by
  intro t ht hl
  refine .ite (fun hpart => ?_) fun _ => ⟨.refl _, .refl _⟩
  refine .bump (Stream.next?_of_ahead ht rfl) fun _ => ?_
  exact ⟨trivial, (Fits.refl _).more (fits_nameParts hpart), .refl _⟩

theorem builds_ctorName (s : Stream) : Builds .ctorName Rule.ctorName.body s 1 := by
  refine ⟨trivial, .refl 1, ?_⟩
  intro s' _
  exact ⟨.unit (.start (.oneOf (by decide))), .refl _⟩

theorem builds_ctorMark (s : Stream) : Builds .ctorMark Rule.ctorMark.body s 1 :=
  .expect (.expect ⟨rfl, .refl _⟩)

/-- An initializer reaches up to the semicolon. -/
theorem builds_initializerTail (s : Stream) :
    Builds .initializerTail Rule.initializerTail.body s (terminal .equals * upTo .semicolon) := by
  intro t ht hl
  refine .ite (fun _ => ⟨.refl _, .refl _⟩) fun hclose => .ite (fun _ => trivial) fun hend => ?_
  refine .bump (Stream.next?_of_ahead ht rfl) fun hlex => ?_
  refine ⟨trivial, (Fits.refl _).more (.anyBut hlex ?_), .refl _⟩
  simp only [List.mem_cons, List.not_mem_nil, or_false, not_or]
  exact ⟨hclose, hend⟩

/-- Parameters are separated by commas up to the closing parenthesis. -/
theorem builds_parameterItems (s : Stream) :
    Builds .parameterItems Rule.parameterItems.body s (Rule.begun s.next? .parameterItems) := by
  intro t ht hl
  refine .ite (fun hclose => ?_) fun hclose => ⟨trivial, .refl 1, ?_⟩
  · have hparen := Stream.next?_of_ahead ht hclose
    rw [Rule.begun, hparen, listed_mark]
    refine .bump hparen fun _ => .optionally rfl (fun _ => .refl 1) fun s => ?_
    intro t ht hl
    refine .ite (fun hk => ?_) fun _ => .ite (fun hk => ?_) fun _ => trivial
    · refine .bump (Stream.next?_of_ahead ht hk) fun _ => ?_
      exact ⟨(Fits.refl signature).mul (.left (.refl _)), .refl _⟩
    · refine ⟨trivial, ?_, .refl _⟩
      rw [Rule.begun, if_pos (Stream.next?_of_ahead ht hk)]
      exact .right (.refl signature)
  · intro s' _
    exact builds_separator (Stream.next?_ne_of_ahead ht hclose) (fun _ => rfl) rfl (.refl _)

theorem fits_literal {k : Kind} (h : values.contains k = true) : Fits (terminal k) literal := by
  rw [values_contains] at h
  exact .oneOf (List.contains_iff_mem.1 h)

/-- An initializer of a constructor has a colon, a word and arguments. -/
theorem builds_ctorInitializer {s : Stream} (hs : s.Starts [.colon]) :
    Builds .ctorInitializer Rule.ctorInitializer.body s 1 := by
  refine .bump hs.1 fun _ => ?_
  intro t ht hl
  refine .ite (fun hword => ?_) fun _ => trivial
  have hident : t.token.kind = .ident := by
    rcases hword with h | h
    · exact (Glimpse.is_iff.1 h).1
    · exact (Glimpse.is_iff.1 h).1
  refine .bump (Stream.next?_of_ahead ht hident) fun _ => .expect ?_
  refine ⟨trivial, fits_listed_of_star (.start ?_), .refl _⟩
  exact ((Fits.unit (.refl _)).mul (.refl _)).mul (.refl _)

/-- The arguments of a constructor are single values, up to the parenthesis. -/
theorem builds_ctorArguments (s : Stream) :
    Builds .ctorArguments Rule.ctorArguments.body s (Rule.begun s.next? .ctorArguments) := by
  intro t ht hl
  have hnext := Stream.next?_of_ahead ht rfl
  refine .ite (fun hclose => ?_) fun hclose => .ite (fun hvalue => ?_) fun _ => trivial
  · have hparen := Stream.next?_of_ahead ht hclose
    rw [Rule.begun, hparen, listed_mark]
    exact .bump hparen fun _ => ⟨.refl _, .refl _⟩
  · refine .bump hnext fun _ => ?_
    refine .mono ?_ ((Fits.refl _).mul (fits_literal hvalue))
    exact builds_separator (Stream.next?_ne_of_ahead ht hclose) (fun _ => rfl) rfl (.refl _)

/-- A parameter may start with `out` or `ref`, and has a type, a name and possibly a default. -/
theorem builds_parameter (s : Stream) : Builds .parameter Rule.parameter.body s 1 := by
  have hrest : ∀ s, Builds .parameter
      (.call .typeRef (expect .ident .parameterWithoutName
        (ifAt .equals (.call .parameterDefault (.close .parameter)) (.close .parameter)))) s
      (optional (oneOf [.outMod, .refMod])) := by
    intro s
    refine ⟨trivial, .refl 1, ?_⟩
    intro s' _
    exact .expect (.optionally rfl (fun _ => .refl 1) fun _ => ⟨.refl _, .refl _⟩)
  intro t ht hl
  refine .ite (fun _ => ?_) fun _ => .ite (fun _ => ?_) fun _ => ?_
  · exact .tagged (by decide) ((hrest _).mono (.unit (.some (.oneOf (by decide)))))
  · exact .tagged (by decide) ((hrest _).mono (.unit (.some (.oneOf (by decide)))))
  · exact (hrest _).mono (.none _)

/-- A default is a single value behind an equals sign. -/
theorem builds_parameterDefault {s : Stream} (hs : s.Starts [.equals]) :
    Builds .parameterDefault Rule.parameterDefault.body s 1 := by
  refine .bump hs.1 fun _ => ?_
  intro t ht hl
  refine .ite (fun hvalue => .bump (Stream.next?_of_ahead ht rfl) fun _ => ?_) fun _ => trivial
  exact ⟨(Fits.unit (.refl _)).mul (fits_literal hvalue), .refl _⟩

/-! ### Types -/

/-- A type is a tuple or a name, with arguments if it is generic, and the mark of an array. -/
theorem builds_typeRef (s : Stream) : Builds .typeRef Rule.typeRef.body s 1 := by
  -- The mark of an array may stand behind each of the three forms.
  have hsuffix : ∀ s, Builds .typeRef
      (ifAt .leftBracket
        (.look 1 fun h =>
          if h.kind = .rightBracket then .call .arrayMark (.close .typeRef) else .fail .arrayMark)
        (.close .typeRef)) s
      (tree .tupleType + tree .qualifiedName * optional (tree .genericArgs)) := by
    intro s
    refine .ifAt (fun hopen => ?_) fun _ => ⟨.skip (.refl _), .refl _⟩
    intro t ht hl
    refine .ite (fun hclose => ?_) fun _ => trivial
    have hmark := Stream.next?_tail_of_ahead ht hclose
    refine ⟨⟨hopen, hmark, trivial⟩, .refl 1, ?_⟩
    intro s' _
    exact ⟨(Fits.refl _).mul (.some (.refl _)), .refl _⟩
  intro t ht hl
  -- A parenthesis opens a tuple, `void` stands for itself, and all else is a name.
  refine .ite (fun hparen => ?_) fun _ => .ite (fun hvoid => ?_) fun _ => ?_
  · refine ⟨⟨Stream.next?_of_ahead ht hparen, trivial⟩, .refl 1, ?_⟩
    intro s' _
    exact (hsuffix s').mono (.unit (.left (.refl _)))
  · have hident := (Glimpse.is_iff.1 hvoid).1
    refine ⟨⟨Stream.next?_of_ahead ht hident, trivial⟩, .refl 1, ?_⟩
    intro s' _
    exact ⟨.unit (.skip (.right (.skip (.refl _)))), .refl _⟩
  · refine ⟨trivial, .refl 1, ?_⟩
    intro s' _
    refine .optionally rfl (fun _ => .refl 1) fun s => (hsuffix s).mono ?_
    exact .right ((Fits.unit (.refl _)).mul (.refl _))

theorem builds_plainType (s : Stream) : Builds .plainType Rule.plainType.body s 1 := by
  refine .ifAt (fun hident => ⟨⟨hident, trivial⟩, .refl 1, ?_⟩) fun _ => trivial
  intro s' _
  exact ⟨.unit (.skip (.right (.skip (.refl _)))), .refl _⟩

theorem TypeList.fits_content (list : TypeList) :
    Fits (terminal list.opening * separated (tree .typeRef) * terminal list.mark)
      (content list.kind) := by
  cases list with
  | tuple => exact .refl _
  | generic => exact .refl _

/-- A list of types starts with its opening mark. -/
theorem builds_typeList {list : TypeList} {s : Stream} (hs : s.Starts (Rule.typeList list).awaits) :
    Builds (.typeList list) (Rule.typeList list).body s 1 := by
  have hopening : s.next? = some list.opening := by
    cases list with
    | tuple => exact hs.1
    | generic => exact hs.1
  exact .bump hopening fun _ => ⟨trivial, fits_listed_of_star (.start (.unit (.refl _))), .refl _⟩

/-- Types up to the closing mark; a comma may stand behind each of them, also behind the last. -/
theorem builds_typeItems (list : TypeList) (s : Stream) :
    Builds (.typeItems list) (Rule.typeItems list).body s
      (Rule.begun s.next? (.typeItems list)) := by
  intro t ht hl
  refine .ite (fun hclose => ?_) fun hclose => ⟨trivial, .refl 1, ?_⟩
  · have hmark := Stream.next?_of_ahead ht hclose
    rw [Rule.begun, hmark, listed_mark]
    exact .bump hmark fun _ => ⟨list.fits_content, .refl _⟩
  · intro s' _
    exact builds_separator (Stream.next?_ne_of_ahead ht hclose) (fun _ => rfl) rfl (.refl _)

/-! ### All rules -/

/-- Every rule builds what the schema asks for. -/
theorem builds_body (rule : Rule) {s : Stream} (hs : s.Starts rule.awaits) :
    Builds rule rule.body s (rule.begun s.next?) := by
  -- One lemma for each rule; rules that only open a list are read off at once.
  cases rule with
  | unitItems => exact builds_unitItems s
  | usingDirective => exact builds_usingDirective hs
  | namespaceDecl => exact builds_namespaceDecl hs
  | namespaceItems => exact builds_namespaceItems s
  | passing depth => exact builds_passing depth s
  | lineComment => exact builds_lineComment hs
  | commentText => exact builds_commentText s
  | blockComment =>
    exact .bump hs.1 fun _ => ⟨trivial, .unit (.left (.start (.refl _))), .refl _⟩
  | upToClose what => exact builds_upToClose what s
  | attributeSection => exact builds_attributeSection hs
  | attributeArgs =>
    exact .bump hs.1 fun _ => ⟨trivial, fits_listed_of_star (.start (.unit (.refl _))), .refl _⟩
  | argumentItems => exact builds_argumentItems s
  | argumentTail named assignable => exact builds_argumentTail named assignable s
  | qualifiedName => exact builds_qualifiedName s
  | qualifiedTail => exact builds_qualifiedTail s
  | plainName => exact .bump hs.1 fun _ => ⟨.unit (.start (.refl _)), .refl _⟩
  | classDecl => exact builds_classDecl s
  | classTail name => exact builds_classTail name s
  | inheritance => exact builds_inheritance hs
  | inheritanceTail => exact builds_inheritanceTail s
  | classBlock name => exact .bump hs.1 fun _ => ⟨trivial, .unit (.start (.refl _)), .refl _⟩
  | classItems name => exact builds_classItems name s
  | member name => exact builds_member name s
  | memberModifiers name => exact builds_memberModifiers name s
  | memberTail isCtor => exact builds_memberTail isCtor s
  | memberName => exact builds_memberName s
  | memberNameTail => exact builds_memberNameTail s
  | ctorName => exact builds_ctorName s
  | ctorMark => exact builds_ctorMark s
  | fieldInitializer => exact .bump hs.1 fun _ => ⟨trivial, .unit (.start (.refl _)), .refl _⟩
  | initializerTail => exact builds_initializerTail s
  | methodBody =>
    exact .bump hs.1 fun _ => ⟨trivial, fits_listed_of_star (.start (.unit (.refl _))), .refl _⟩
  | parameterItems => exact builds_parameterItems s
  | ctorInitializer => exact builds_ctorInitializer hs
  | ctorArguments => exact builds_ctorArguments s
  | parameter => exact builds_parameter s
  | parameterDefault => exact builds_parameterDefault hs
  | typeRef => exact builds_typeRef s
  | plainType => exact builds_plainType s
  | arrayMark =>
    refine .bump hs.1 fun _ => .bump hs.2.1 fun _ => ?_
    exact ⟨(Fits.unit (.refl _)).mul (.refl _), .refl _⟩
  | typeList list => exact builds_typeList hs
  | typeItems list => exact builds_typeItems list s

/-! ## Runs build what the schema asks for -/

/-- What is joined is a terminal of the given kind. -/
theorem exists_token_joined (kind : Kind) (ns : List Node) :
    ∃ t : Token, joined kind ns = .token t ∧ t.kind = kind := by
  unfold joined Node.merge?
  split
  · exact ⟨_, rfl, rfl⟩
  · cases ns.mapM Node.token? with
    | none => exact ⟨_, rfl, rfl⟩
    | some ts => exact ⟨_, rfl, rfl⟩

/-- All that a parse makes conforms to the schema. -/
theorem Parses.conforms {rule : Rule} {all : Stream}
    (hall : ∀ i t, all.ahead i = .ok t → t.token.kind.isLexical = true) {step : Step}
    {nodes : List Node} {s s' : State} {node : Node} (h : Parses step nodes s node s') :
    ∀ {n : Nat} {p : Pattern}, s.stream = all.drop n → Builds rule step s.stream p →
      nodes.reverse.map Node.symbol ∈ p.matches' → (∀ c ∈ nodes, c.Conforms) →
      [node.symbol] ∈ rule.makes.matches' ∧ node.Conforms := by
  -- The invariant is that the nodes collected so far match the pattern and conform.
  induction h generalizing rule with
  | @look i next nodes s s' t node seen rest ih =>
    intro n p hs hb hp hc
    refine ih hs (hb t seen (hall (n + i) t ?_)) hp hc
    rw [← Stream.ahead_drop, ← hs]
    exact seen
  | @take tag next nodes s s' t node seen rest ih =>
    intro n p hs hb hp hc
    have hlex : t.token.kind.isLexical = true := by
      apply hall n t
      rw [← Nat.add_zero n, ← Stream.ahead_drop, ← hs]
      exact seen
    rcases hb t seen hlex with ⟨hleaf, hnext⟩
    refine ih (n := n + 1) ?_ hnext ?_ ?_
    · show s.stream.tail = all.drop (n + 1)
      rw [hs, Stream.tail_drop]
    · rw [List.reverse_cons, List.map_append, matches'_mul]
      exact Language.append_mem_mul hp rfl
    · exact List.forall_mem_cons.2 ⟨hleaf, hc⟩
  | @call r next nodes s s₁ s' inner node called rest ihc ih =>
    intro n p hs hb hp hc
    rcases hb with ⟨hstarts, hbegun, hnext⟩
    rcases called.exists_passed with ⟨m, hm, -⟩
    rcases ihc hs (builds_body r hstarts) (hbegun rfl) (by simp) with ⟨hmade, hinner⟩
    refine ih (n := n + m) ?_ (hnext s₁.stream ⟨inner, s.log, s₁.log, called⟩) ?_ ?_
    · rw [hm, hs, Stream.drop_drop]
    · rw [List.reverse_cons, List.map_append, matches'_mul]
      exact Language.append_mem_mul hp hmade
    · exact List.forall_mem_cons.2 ⟨hinner, hc⟩
  | @goto r nodes s s' node rest ih =>
    intro n p hs hb hp hc
    rcases hb with ⟨hstarts, hbegun, hmakes⟩
    rcases ih hs (builds_body r hstarts) (hbegun hp) hc with ⟨hmade, hnode⟩
    exact ⟨hmakes hmade, hnode⟩
  | @gather kind next nodes s s' node rest ih =>
    intro n p hs hb hp hc
    rcases hb with ⟨hfits, hnext⟩
    refine ih hs hnext rfl ?_
    rw [List.forall_mem_singleton, Node.conforms_tree]
    exact ⟨hfits hp, by simpa using hc⟩
  | note rest ih =>
    intro n p hs hb hp hc
    exact ih hs hb hp hc
  | @close kind nodes s =>
    intro n p hs hb hp hc
    rcases hb with ⟨hfits, hmakes⟩
    refine ⟨hmakes rfl, ?_⟩
    rw [Node.conforms_tree]
    exact ⟨hfits hp, by simpa using hc⟩
  | @join kind nodes s =>
    intro n p hs hb hp hc
    rcases hb with ⟨hkind, hmakes⟩
    rcases exists_token_joined kind nodes.reverse with ⟨t, ht, rfl⟩
    rw [ht, Node.conforms_token]
    exact ⟨hmakes (fits_token t rfl), hkind⟩

end Grammar

/-! ## Whole texts -/

/-- The terminals of a text have the kinds of lexemes or that of the end. -/
theorem Stream.isLexical_of_ahead {p i : Nat} {cs : List Char} {t : Terminal}
    (h : (ofLexer (.fresh p cs)).ahead i = .ok t) : t.token.kind.isLexical = true :=
  decide_eq_true (kind_le_of_ahead h)

/-- What a rule parses from a text by itself conforms to the schema, and is a node that the rule
makes. -/
theorem Grammar.conforms_of_parse (rule : Rule) {entry : rule.needs = 0} {p : Nat} {cs : List Char}
    {node : Node} (hawaits : rule.awaits = []) (hbegun : ∀ next, Pattern.Fits 1 (rule.begun next))
    (h : (parse rule entry (Stream.ofLexer (.fresh p cs))).result = .ok node) :
    [node.symbol] ∈ rule.makes.matches' ∧ node.Conforms := by
  rcases parse_ok_iff.1 h with ⟨s', hparses⟩
  have hstarts := rule.starts hawaits (Stream.ofLexer (.fresh p cs))
  have hlexical : ∀ i t, (Stream.ofLexer (.fresh p cs)).ahead i = .ok t →
      t.token.kind.isLexical = true := fun _ _ => Stream.isLexical_of_ahead
  exact hparses.conforms hlexical (n := 0) rfl
    (builds_body rule hstarts) (hbegun _ rfl) (by simp)

/-- Every tree that is parsed, from a whole text or as a class at an offset, obeys the schema at
every node. -/
theorem conforms_of_parse_ok (text : String) :
    (∀ tree, parseUnit text = .ok tree → tree.symbol = .tree .compilationUnit ∧ tree.Conforms) ∧
      ∀ offset tree, parseDeclarationAt text offset = .ok tree →
        tree.symbol = .tree .classDecl ∧ tree.Conforms := by
  constructor
  · intro tree h
    rw [parseUnit, reportUnit, Lexer.new_eq_fresh] at h
    rcases Grammar.conforms_of_parse .unitItems rfl (fun _ => .nil _) h with ⟨hmade, hconforms⟩
    exact ⟨List.singleton_inj.1 hmade, hconforms⟩
  · intro offset tree h
    rcases parse_of_declaration h with ⟨rest, -, h⟩
    rcases Grammar.conforms_of_parse .classDecl rfl (fun _ => .nil _) h with ⟨hmade, hconforms⟩
    exact ⟨List.singleton_inj.1 hmade, hconforms⟩

/-- A text whose tree has nodes of every kind. -/
def everyKind : String :=
  "using A; namespace N \x7b class C<T> : (D) //c\n\x7b /**/ [T(1)] int[] f = 3;\n" ++
    "int p \x7b\x7d void m(); C(int x = 3) : base();\x7d\x7d"

/-- A text whose tree has every kind of node, and a class in it that is parsed on its own. -/
theorem everyKind_conforms :
    (∃ tree, parseUnit everyKind = .ok tree ∧
        (∀ k ∈ Kind.all, k.isTerminal = false → k ∈ tree.descendants.map Node.kind) ∧
        tree.symbol = .tree .compilationUnit ∧ tree.Conforms) ∧
      ∃ offset tree, declarationOffset? everyKind "class" = some offset ∧
        parseDeclarationAt everyKind offset = .ok tree ∧
        tree.symbol = .tree .classDecl ∧ tree.Conforms := by
  -- Which kinds there are is evaluated; that the tree conforms follows for any text.
  constructor
  · have hkinds : ∃ tree ∈ (parseUnit everyKind).toOption, ∀ k ∈ Kind.all, k.isTerminal = false →
        k ∈ tree.descendants.map Node.kind := by
      decide +kernel
    rcases hkinds with ⟨tree, htree, hkinds⟩
    have hok := eq_ok_of_mem_toOption htree
    exact ⟨tree, hok, hkinds, (conforms_of_parse_ok everyKind).1 tree hok⟩
  · have hclass : ∃ offset ∈ declarationOffset? everyKind "class",
        (parseDeclarationAt everyKind offset).toOption.isSome = true := by
      decide +kernel
    rcases hclass with ⟨offset, hoffset, hsome⟩
    rcases Option.isSome_iff_exists.1 hsome with ⟨tree, htree⟩
    have hok := eq_ok_of_mem_toOption htree
    exact ⟨offset, tree, hoffset, hok, (conforms_of_parse_ok everyKind).2 offset tree hok⟩

end Lossless
