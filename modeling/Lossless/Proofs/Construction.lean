import Lossless.Proofs.Occurrences
import Lossless.Proofs.Schema

/-!
# What the steps of a rule build

While a rule runs, the nodes that it has collected so far match a pattern. `Builds` follows that
pattern through the steps of a rule: a terminal that is taken and a node that is called for are
added to it, a rule that takes over must expect it (`Rule.begun`), and where the nodes are closed
under a kind it has to fit what the schema says of that kind. The lemmas on `Builds` say this for
the building blocks of the rules and for lists with commas.
-/

namespace Lossless

namespace Stream

/-- The kind of the next terminal. -/
def next? (s : Stream) : Option Kind :=
  match s.ahead 0 with
  | .ok t => some t.token.kind
  | .error _ => none

/-- What is known of the terminal ahead is known of its kind. -/
theorem next?_of_ahead {s : Stream} {t : Terminal} {k : Kind} (h : s.ahead 0 = .ok t)
    (hk : t.token.kind = k) : s.next? = some k := by
  simp only [next?, h, hk]

theorem kind_of_next? {s : Stream} {t : Terminal} {k : Kind} (h : s.ahead 0 = .ok t)
    (hk : s.next? = some k) : t.token.kind = k := by
  rw [next?_of_ahead h rfl] at hk
  exact Option.some.inj hk

theorem next?_ne_of_ahead {s : Stream} {t : Terminal} {k : Kind} (h : s.ahead 0 = .ok t)
    (hk : t.token.kind ≠ k) : s.next? ≠ some k := by
  intro hs
  exact hk (kind_of_next? h hs)

/-- The second terminal ahead is the next one once the first is taken. -/
theorem next?_tail_of_ahead {s : Stream} {t : Terminal} {k : Kind} (h : s.ahead 1 = .ok t)
    (hk : t.token.kind = k) : s.tail.next? = some k := by
  refine next?_of_ahead ?_ hk
  rw [tail_eq_drop, ahead_drop]
  exact h

/-- The kinds of the next terminals. -/
@[simp] def Starts : List Kind → Stream → Prop
  | [], _ => True
  | k :: ks, s => s.next? = some k ∧ Starts ks s.tail

end Stream

namespace Grammar

open Pattern Schema RegularExpression

/-! ## What rules begin with -/

/-- The kinds of the terminals at which a rule begins, where the rule itself does not look. -/
@[simp] def Rule.awaits : Rule → List Kind
  | .usingDirective | .namespaceDecl | .plainName => [.ident]
  | .lineComment => [.doubleSlash]
  | .blockComment => [.blockCommentStart]
  | .attributeSection => [.leftBracket]
  | .attributeArgs | .methodBody | .typeList .tuple => [.leftParen]
  | .inheritance | .ctorInitializer => [.colon]
  | .classBlock _ => [.leftBrace]
  | .fieldInitializer | .parameterDefault => [.equals]
  | .arrayMark => [.leftBracket, .rightBracket]
  | .typeList .generic => [.less]
  | _ => []

/-- A rule that waits for nothing can be entered anywhere. -/
theorem Rule.starts {rule : Rule} (h : rule.awaits = []) (s : Stream) : s.Starts rule.awaits := by
  rw [h]
  trivial

/-- The nodes that a rule makes. -/
@[simp] def Rule.makes : Rule → Pattern
  | .unitItems => tree .compilationUnit
  | .usingDirective => tree .usingDirective
  | .namespaceDecl | .namespaceItems | .passing _ => tree .namespaceDecl
  | .lineComment => tree .comment
  | .commentText => terminal .commentText
  | .blockComment => tree .blockComment
  | .upToClose what => tree what.kind
  | .attributeSection => tree .attributeSection
  | .attributeArgs | .argumentItems | .argumentTail .. => tree .attributeArgs
  | .qualifiedName | .qualifiedTail | .plainName => tree .qualifiedName
  | .classDecl | .classTail _ => tree .classDecl
  | .inheritance | .inheritanceTail => tree .classInheritance
  | .classBlock _ | .classItems _ => tree .classBlock
  | .member _ | .memberModifiers _ | .memberTail _ => treeOf memberKinds
  | .memberName | .memberNameTail | .ctorName => tree .memberName
  | .ctorMark => terminal .ident
  | .fieldInitializer | .initializerTail => tree .fieldInitializer
  | .methodBody | .parameterItems => tree .methodBody
  | .ctorInitializer | .ctorArguments => tree .ctorInitializer
  | .parameter => tree .parameter
  | .parameterDefault => tree .parameterDefault
  | .typeRef | .plainType => tree .typeRef
  | .arrayMark => tree .arrayType
  | .typeList list | .typeItems list => tree list.kind

/-- What has been collected of a list with commas. The last thing may be without its comma only if
the closing mark comes next. -/
def listed (p : Pattern) (mark : Kind) (next : Option Kind) : Pattern :=
  if next = some mark then separated p else (p * terminal .comma).star

/-- What comes in front of a value in a list of arguments. A value that may not be assigned to is
one that is assigned. -/
def argumentFront (assignable : Bool) : Pattern :=
  let front := terminal .leftParen * (argument * terminal .comma).star
  if assignable then front else front * (value * terminal .equals)

/-- What stands in front of the opening brace of a verbatim text, if that is part of it. -/
def Verbatim.before : Verbatim → Pattern
  | .blockComment => 0
  | .propertyBody => 1
  | .methodBody => signature

/-- What stands in front of a verbatim text. -/
def Verbatim.front : Verbatim → Pattern
  | .blockComment => terminal .blockCommentStart
  | .propertyBody => terminal .leftBrace
  | .methodBody => signature * terminal .leftBrace

/-- The mark that opens a list of types. -/
def TypeList.opening : TypeList → Kind
  | .tuple => .leftParen
  | .generic => .less

/-- What has been collected when a rule begins, where `next` is the kind of the next terminal. A
rule that is called begins with nothing. -/
@[simp] def Rule.begun (next : Option Kind) : Rule → Pattern
  | .unitItems =>
    (item + anyBut [.ident, .doubleSlash, .blockCommentStart, .leftBracket, .endOfInput]).star
  | .namespaceItems | .passing _ =>
    tree .namespaceStatement * terminal .leftBrace * (item + anyBut [.endOfInput]).star
  | .commentText => (oneOf Kind.lexical).star
  | .upToClose what =>
    what.front * upTo what.mark + if next = some .leftBrace then what.before else 0
  | .argumentItems => terminal .leftParen * listed argument .rightParen next
  | .argumentTail named assignable =>
    argumentFront assignable * if named then dotted else oneOf [.stringLit, .numberLit]
  | .qualifiedTail => dotted
  | .classDecl => classModifiers
  | .classTail _ => classModifiers * char .classWord * terminal .ident
  | .inheritanceTail => terminal .colon * tree .typeRef * (terminal .comma * tree .typeRef).star
  | .classItems _ =>
    terminal .leftBrace *
      (treeOf [.comment, .blockComment, .attributeSection, .classDecl] + treeOf memberKinds).star
  | .member _ => (terminal .accessor).star
  | .memberModifiers _ => header
  | .memberTail isCtor =>
    header *
      (if isCtor = true ∧ next = some .leftParen then optional (tree .typeRef)
        else tree .typeRef) *
      tree .memberName
  | .memberNameTail => namePart * namePart.star
  | .initializerTail => terminal .equals * upTo .semicolon
  | .parameterItems => terminal .leftParen * listed (tree .parameter) .rightParen next
  | .ctorArguments =>
    terminal .colon * terminal .ident * terminal .leftParen * listed literal .rightParen next
  | .typeItems list => terminal list.opening * listed (tree .typeRef) list.mark next
  | _ => 1

/-- A rule can end with this much of a stream left. -/
def Rule.Leaves (rule : Rule) (s s' : Stream) : Prop :=
  ∃ node log log', Parses rule.body [] ⟨s, log⟩ node ⟨s', log'⟩

/-! ## What steps build -/

/-- The steps of `rule` build what the schema asks for, from nodes that match a pattern and a stream
of terminals. -/
def Builds (rule : Rule) : Step → Stream → Pattern → Prop
  | .look n next, s, p =>
    ∀ t, s.ahead n = .ok t → t.token.kind.isLexical = true →
      Builds rule (next (.ofTerminal t)) s p
  | .take tag next, s, p =>
    ∀ t, s.ahead 0 = .ok t → t.token.kind.isLexical = true →
      (leaf tag t).Conforms ∧ Builds rule next s.tail (p * char (leaf tag t).symbol)
  | .call r next, s, p =>
    s.Starts r.awaits ∧ Fits 1 (r.begun s.next?) ∧
      ∀ s', r.Leaves s s' → Builds rule next s' (p * r.makes)
  | .goto r, s, p =>
    s.Starts r.awaits ∧ Fits p (r.begun s.next?) ∧ Fits r.makes rule.makes
  | .gather kind next, s, p => Fits p (content kind) ∧ Builds rule next s (tree kind)
  | .note _ next, s, p => Builds rule next s p
  | .close kind, _, p => Fits p (content kind) ∧ Fits (tree kind) rule.makes
  | .join kind, _, _ => kind.isTerminal = true ∧ Fits (terminal kind) rule.makes
  | .fail _, _, _ => True

namespace Builds

variable {rule : Rule} {s : Stream} {p q : Pattern}

/-- What is built from more is built from less. -/
theorem mono {step : Step} (h : Builds rule step s q) (hp : Fits p q) : Builds rule step s p := by
  -- The pattern so far is a factor on the left in every step, so replacing it commutes with growing
  -- it.
  induction step generalizing s p q with
  | look n next ih =>
    intro t ht hl
    exact ih _ (h t ht hl) hp
  | take tag next ih =>
    intro t ht hl
    rcases h t ht hl with ⟨hleaf, hnext⟩
    exact ⟨hleaf, ih hnext (hp.mul (.refl _))⟩
  | call r next ih =>
    rcases h with ⟨hstarts, hbegun, hnext⟩
    refine ⟨hstarts, hbegun, ?_⟩
    intro s' hs'
    exact ih (hnext s' hs') (hp.mul (.refl _))
  | goto r => exact ⟨h.1, hp.trans h.2.1, h.2.2⟩
  | gather kind next ih => exact ⟨hp.trans h.1, h.2⟩
  | note event next ih => exact ih h hp
  | close kind => exact ⟨hp.trans h.1, h.2⟩
  | join kind => exact h
  | fail cause => trivial

/-- A choice builds what its rule makes if each branch does where the condition leads to it. -/
theorem ite {c : Prop} [Decidable c] {a b : Step} (ha : c → Builds rule a s p)
    (hb : ¬c → Builds rule b s p) : Builds rule (if c then a else b) s p := by
  split
  · rename_i hc
    exact ha hc
  · rename_i hc
    exact hb hc

/-- A choice by an option, in the same way. -/
theorem elim {α : Type} {o : Option α} {a : Step} {f : α → Step}
    (ha : o = none → Builds rule a s p) (hf : ∀ x, o = some x → Builds rule (f x) s p) :
    Builds rule (o.elim a f) s p := by
  cases o with
  | none => exact ha rfl
  | some x => exact hf x rfl

/-- A terminal is taken as it is. -/
theorem bump {next : Step} {k : Kind} (hk : s.next? = some k)
    (h : k.isLexical = true → Builds rule next s.tail (p * terminal k)) :
    Builds rule (bump next) s p := by
  intro t ht hl
  have htk := Stream.kind_of_next? ht hk
  rw [htk] at hl
  refine ⟨?_, (h hl).mono ((Fits.refl p).mul ?_)⟩
  · rw [leaf_none, Node.conforms_token, htk, Kind.isTerminal, hl, Bool.true_or]
  · rw [leaf_none, ← htk]
    exact fits_token t.token

/-- The word `class` is taken as such. -/
theorem classWord {next : Step} {t : Terminal} (ht : s.ahead 0 = .ok t)
    (hw : (Glimpse.ofTerminal t).is "class" = true)
    (h : Builds rule next s.tail (p * char .classWord)) : Builds rule (Grammar.bump next) s p := by
  rcases Glimpse.is_iff.1 hw with ⟨hk, htext⟩
  intro t' ht' hl
  rw [ht] at ht'
  cases ht'
  refine ⟨?_, ?_⟩
  · rw [leaf_none, Node.conforms_token, Kind.isTerminal, hl, Bool.true_or]
  · rw [leaf_none, Node.symbol, if_pos ⟨hk, htext⟩]
    exact h

/-- A terminal is taken under the kind of a modifier. -/
theorem tagged {next : Step} {tag : Kind} (htag : tag ∈ Kind.tags)
    (h : Builds rule next s.tail (p * terminal tag)) : Builds rule (.take (some tag) next) s p := by
  intro t ht hl
  refine ⟨?_, h.mono ((Fits.refl p).mul ?_)⟩
  · rw [leaf, Node.conforms_token, Option.getD_some, Kind.isTerminal, List.contains_iff_mem.2 htag,
      Bool.or_true]
  · exact fits_token { t.token with kind := tag }

/-- A terminal that is expected is added to the nodes; if it is not there, nothing is built. -/
theorem expect {next : Step} {k : Kind} {cause : GrammarCause}
    (h : Builds rule next s.tail (p * terminal k)) : Builds rule (expect k cause next) s p := by
  intro t ht hl
  refine ite (fun hk => ?_) fun _ => trivial
  exact bump (Stream.next?_of_ahead ht hk) fun _ => h

/-- A choice by the kind of the next terminal, which each branch may rely on. -/
theorem ifAt {yes no : Step} {k : Kind} (hyes : s.next? = some k → Builds rule yes s p)
    (hno : s.next? ≠ some k → Builds rule no s p) : Builds rule (ifAt k yes no) s p := by
  intro t ht hl
  refine ite (fun hk => ?_) fun hk => ?_
  · exact hyes (Stream.next?_of_ahead ht hk)
  · exact hno (Stream.next?_ne_of_ahead ht hk)

/-- A rule is called if the terminal is there with which it begins. -/
theorem optionally {r : Rule} {next : Step} {k : Kind} (hawaits : r.awaits = [k])
    (hbegun : ∀ n, Fits 1 (r.begun n)) (h : ∀ s, Builds rule next s (p * optional r.makes)) :
    Builds rule (Grammar.ifAt k (.call r next) next) s p := by
  refine ifAt (fun hk => ?_) fun _ => (h s).mono (.skip (.refl p))
  refine ⟨?_, hbegun _, ?_⟩
  · rw [hawaits]
    exact ⟨hk, trivial⟩
  · intro s' _
    exact (h s').mono ((Fits.refl p).mul (.some (.refl _)))

end Builds

/-! ### Lists with commas -/

section Listed

variable {p q : Pattern} {mark : Kind} {next : Option Kind}

theorem listed_mark : listed p mark (some mark) = separated p := if_pos rfl

/-- In front of anything but the mark, each item so far has its comma. -/
theorem listed_of_ne (h : next ≠ some mark) : listed p mark next = (p * terminal .comma).star :=
  if_neg h

/-- Items with a comma behind each are a list in front of anything, also in front of the mark. -/
theorem fits_listed_of_star (h : Fits q (r * (p * terminal .comma).star)) :
    Fits q (r * listed p mark next) := by
  by_cases hm : next = some mark
  · rw [hm, listed_mark]
    exact .regroup h.skip
  · rw [listed_of_ne hm]
    exact h

/-- A thing and its comma are one more repetition. -/
theorem fits_listed_comma {next' : Option Kind} (h : next ≠ some mark) :
    Fits (q * listed p mark next * p * terminal .comma) (q * listed p mark next') := by
  rw [listed_of_ne h]
  exact fits_listed_of_star (.group ((Fits.refl _).more (.refl _)))

/-- The last thing may be without its comma. -/
theorem fits_listed_last (h : next ≠ some mark) :
    Fits (q * listed p mark next * p) (q * listed p mark (some mark)) := by
  rw [listed_of_ne h, listed_mark]
  exact .regroup ((Fits.refl _).mul (.some (.refl p)))

end Listed

/-- Behind a thing of a list comes a comma or the closing mark, and the list goes on. -/
theorem builds_separator {rule items : Rule} {s : Stream} {p q : Pattern} {mark : Kind}
    {next : Option Kind} {cause : GrammarCause} (hne : next ≠ some mark)
    (hbegun : ∀ next, items.begun next = q * listed p mark next) (hawaits : items.awaits = [])
    (hmakes : Fits items.makes rule.makes) :
    Builds rule (.look 0 fun h =>
      if h.kind = .comma then bump (.goto items)
      else if h.kind = mark then .goto items
      else .fail cause) s (q * listed p mark next * p) := by
  intro t ht hl
  -- A comma is taken and the list waits for the next thing; the mark is left for the list to take.
  refine .ite (fun hcomma => ?_) fun _ => .ite (fun hmark => ?_) fun _ => trivial
  · refine .bump (Stream.next?_of_ahead ht hcomma) fun _ => ⟨items.starts hawaits _, ?_, hmakes⟩
    rw [hbegun]
    exact fits_listed_comma hne
  · refine ⟨items.starts hawaits _, ?_, hmakes⟩
    rw [hbegun, Stream.next?_of_ahead ht hmark]
    exact fits_listed_last hne

end Grammar

end Lossless
