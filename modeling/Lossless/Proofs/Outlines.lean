import Lossless.Proofs.Spelling
import Lossless.Proofs.Traversal
import Mathlib.Data.List.Nodup

/-!
# Outlines tell trees apart

The printed outline of a tree shows no blanks and no values, and it shows everything else: the
nesting, every kind, which nodes are terminals, and the text of each terminal. So two trees have the
same outline iff they are equal up to blanks and values (`Node.dump_faithful`). The outline is read
back in three steps, each of which gives up nothing:

* a character is read back from its written form, whatever follows (`Text.readWritten?_escapeChar`),
  so that a quoted text ends where its quotation mark says;
* the lines of an outline are a code in which no word begins another (`OutlineEntry.prefixFree_line`),
  so that a text is cut into lines in one way only;
* the depths in pre-order give the nesting: what is deeper than a node, up to the next line that is
  not, is below it (`Node.eq_of_entriesIn`).
-/

namespace Lossless

namespace Text

/-! ## Codes -/

/-- No word of the code begins another, so a word is known as soon as it is complete. -/
def PrefixFree {α : Type} (code : α → List Char) : Prop :=
  ∀ {a b : α} {r s : List Char}, code a ++ r = code b ++ s → a = b ∧ r = s

/-- A code whose words can be read back from the front of any text is free of prefixes. -/
theorem prefixFree_of_read {α : Type} {code : α → List Char}
    {read? : List Char → Option (α × List Char)} (h : ∀ a r, read? (code a ++ r) = some (a, r)) :
    PrefixFree code := by
  intro a b r s heq
  have ha := h a r
  rw [heq, h b s] at ha
  cases ha
  exact ⟨rfl, rfl⟩

/-- Words in a row are known if what stands behind them begins with no word. -/
theorem PrefixFree.eq_of_flatMap {α : Type} {code : α → List Char} (h : PrefixFree code)
    {as bs : List α} {r s : List Char} (hr : ∀ a w, r ≠ code a ++ w)
    (hs : ∀ a w, s ≠ code a ++ w) (heq : as.flatMap code ++ r = bs.flatMap code ++ s) :
    as = bs ∧ r = s := by
  -- By induction on both rows: as long as there is a word on one side, the other side begins with
  -- the same.
  induction as generalizing bs with
  | nil =>
    cases bs with
    | nil => exact ⟨rfl, heq⟩
    | cons b bs =>
      rw [List.flatMap_nil, List.nil_append, List.flatMap_cons, List.append_assoc] at heq
      exact absurd heq (hr b _)
  | cons a as ih =>
    cases bs with
    | nil =>
      rw [List.flatMap_nil, List.nil_append, List.flatMap_cons, List.append_assoc] at heq
      exact absurd heq.symm (hs a _)
    | cons b bs =>
      rw [List.flatMap_cons, List.flatMap_cons, List.append_assoc, List.append_assoc] at heq
      rcases h heq with ⟨rfl, hrest⟩
      rcases ih hrest with ⟨rfl, hrs⟩
      exact ⟨rfl, hrs⟩

/-- A stretch of characters of one class ends where the class does. -/
theorem eq_of_class {p : Char → Bool} {a b r s : List Char} (ha : ∀ c ∈ a, p c = true)
    (hb : ∀ c ∈ b, p c = true) (hr : ∀ c ∈ r.head?, p c = false) (hs : ∀ c ∈ s.head?, p c = false)
    (heq : a ++ r = b ++ s) : a = b ∧ r = s := by
  have htake : ∀ {w x : List Char}, (∀ c ∈ w, p c = true) → (∀ c ∈ x.head?, p c = false) →
      (w ++ x).takeWhile p = w := by
    intro w x hw hx
    rw [List.takeWhile_append_of_pos hw]
    cases x with
    | nil => simp
    | cons c x => simp [hx c rfl]
  have hab : a = b := by rw [← htake ha hr, heq, htake hb hs]
  subst hab
  exact ⟨rfl, List.append_cancel_left heq⟩

/-! ## Quoted texts -/

/-- The character that a backslash with a letter behind it stands for. -/
def named? : Char → Option Char
  | '"' => some '"'
  | '\\' => some '\\'
  | '0' => some '\x00'
  | 't' => some '\t'
  | 'n' => some '\n'
  | 'r' => some '\r'
  | _ => none

/-- Reads one character back from its written form inside quotation marks. -/
def readWritten? : List Char → Option (Char × List Char)
  | '\\' :: 'u' :: '{' :: cs =>
    ((cs.takeWhile (· != '}')).mapM hexDigit?).map fun ds =>
      (Char.ofNat (ofHexDigits ds), (cs.dropWhile (· != '}')).drop 1)
  | '\\' :: c :: cs => (named? c).map (·, cs)
  | c :: cs => some (c, cs)
  | [] => none

/-- The digits that are written are read back as the number. -/
theorem mapM_hexDigits (n : Nat) :
    ∃ ds, (hexDigits n).mapM hexDigit? = some ds ∧ ofHexDigits ds = n := by
  have hcased : (Nat.toDigits 16 n).mapIdx (fun _ c => cased false c) = Nat.toDigits 16 n := by
    apply List.ext_getElem <;> simp [cased]
  rw [hexDigits, ← hcased]
  exact mapM_toDigits (fun _ => false) n

theorem brace_notMem_hexDigits (n : Nat) : ∀ c ∈ hexDigits n, (c != '}') = true := by
  intro c hc
  rcases mapM_hexDigits n with ⟨ds, hds, -⟩
  rcases exists_hexDigit hds c hc with ⟨d, hd⟩
  apply bne_iff_ne.2
  rintro rfl
  cases hd

/-- A character is read back, whatever stands behind it. -/
theorem readWritten?_escapeChar (c : Char) (r : List Char) :
    readWritten? (escapeChar c ++ r) = some (c, r) := by
  by_cases hquote : c = '"'
  · subst hquote
    rfl
  by_cases hslash : c = '\\'
  · subst hslash
    rfl
  by_cases hnull : c = '\x00'
  · subst hnull
    rfl
  by_cases htab : c = '\t'
  · subst htab
    rfl
  by_cases hfeed : c = '\n'
  · subst hfeed
    rfl
  by_cases hreturn : c = '\r'
  · subst hreturn
    rfl
  simp only [escapeChar, hquote, hslash, hnull, htab, hfeed, hreturn, if_false]
  by_cases hprint : isPrintable c = true
  · -- A character that is written as itself is no backslash.
    rw [if_pos hprint]
    simp [readWritten?, hslash]
  · -- The digits of its number end at the closing brace.
    rcases mapM_hexDigits c.toNat with ⟨ds, hds, hvalue⟩
    have hdigits := brace_notMem_hexDigits c.toNat
    have htake : (hexDigits c.toNat ++ '}' :: r).takeWhile (· != '}') = hexDigits c.toNat := by
      simp [List.takeWhile_append_of_pos hdigits]
    have hdrop : (hexDigits c.toNat ++ '}' :: r).dropWhile (· != '}') = '}' :: r := by
      simp [List.dropWhile_append_of_pos hdigits]
    rw [if_neg hprint]
    simp [readWritten?, htake, hdrop, hds, hvalue]

theorem prefixFree_escapeChar : PrefixFree escapeChar :=
  prefixFree_of_read readWritten?_escapeChar

/-- A quotation mark by itself is the written form of no character. -/
theorem quote_ne_escapeChar (c : Char) (r w : List Char) : '"' :: r ≠ escapeChar c ++ w := by
  intro heq
  have hread := readWritten?_escapeChar c w
  rw [← heq] at hread
  have hc : c = '"' := by
    cases hread
    rfl
  rw [hc] at heq
  cases heq

/-- A quoted text ends at its second quotation mark. -/
theorem prefixFree_quoted : PrefixFree quoted := by
  intro a b r s heq
  simp only [quoted, List.cons_append, List.append_assoc, List.nil_append, List.cons.injEq,
    true_and] at heq
  rcases prefixFree_escapeChar.eq_of_flatMap (fun c => quote_ne_escapeChar c r)
    (fun c => quote_ne_escapeChar c s) heq with ⟨hab, hrs⟩
  exact ⟨hab, (List.cons.inj hrs).2⟩

end Text

/-! ## Names of kinds -/

namespace Kind

/-- Kinds have different names. -/
theorem name_injective {a b : Kind} (h : a.name = b.name) : a = b := by
  have hnodup : (all.map name).Nodup := by decide +kernel
  exact List.inj_on_of_nodup_map hnodup (mem_all a) (mem_all b) h

/-- The characters that a name of a kind can consist of. -/
def isNameChar (c : Char) : Bool := c != ' ' && c != '\n'

/-- A name ends where a blank stands or the line ends. -/
theorem isNameChar_name (k : Kind) :
    k.name.toList ≠ [] ∧ ∀ c ∈ k.name.toList, isNameChar c = true := by
  have hname : k.name.toList ≠ [] ∧ k.name.toList.all isNameChar = true := by
    cases k <;> decide +kernel
  exact ⟨hname.1, List.all_eq_true.1 hname.2⟩

end Kind

/-! ## Lines -/

/-- What one line of an outline shows: the depth of a node, its kind and, of a terminal, the
text. -/
structure OutlineEntry where
  depth : Nat
  kind : Kind
  text? : Option String
deriving DecidableEq, Repr

namespace OutlineEntry

/-- What is shown of a node at a depth. -/
def ofNode (depth : Nat) (n : Node) : OutlineEntry := ⟨depth, n.kind, n.text?⟩

/-- What a line shows behind the kind. -/
def ending (text? : Option String) : List Char :=
  (match text? with
    | some text => ' ' :: Text.quoted text.toList
    | none => []) ++ ['\n']

/-- The line of an entry. -/
def line (e : OutlineEntry) : List Char :=
  List.replicate (2 * e.depth) ' ' ++ (e.kind.name.toList ++ ending e.text?)

/-- The line of a node is that of its entry. -/
theorem line_ofNode (depth : Nat) (n : Node) : (ofNode depth n).line = n.outlineLine depth := by
  cases n <;> simp [line, ofNode, ending, Node.outlineLine, Node.text?, Node.token?]

/-- A line ends behind the text that it shows. -/
theorem prefixFree_ending : Text.PrefixFree ending := by
  intro a b r s heq
  cases a with
  | none =>
    cases b with
    | none => exact ⟨rfl, (List.cons.inj heq).2⟩
    | some v => exact absurd (List.cons.inj heq).1 (by decide)
  | some u =>
    cases b with
    | none => exact absurd (List.cons.inj heq).1 (by decide)
    | some v =>
      simp only [ending, List.cons_append, List.append_assoc, List.cons.injEq, true_and] at heq
      rcases Text.prefixFree_quoted heq with ⟨huv, hrs⟩
      exact ⟨congrArg some (String.toList_injective huv), (List.cons.inj hrs).2⟩

/-- Behind the kind stands no character of a name. -/
theorem head?_ending (text? : Option String) (r : List Char) :
    ∀ c ∈ (ending text? ++ r).head?, Kind.isNameChar c = false := by
  intro c hc
  cases text? <;> cases hc <;> rfl

/-- Behind the indentation stands the kind. -/
theorem head?_name (k : Kind) (r : List Char) :
    ∀ c ∈ (k.name.toList ++ r).head?, (c == ' ') = false := by
  intro c hc
  rcases k.isNameChar_name with ⟨hne, hall⟩
  rw [List.head?_append_of_ne_nil _ hne] at hc
  have hname := hall c (List.mem_of_head? hc)
  simp only [Kind.isNameChar, Bool.and_eq_true, bne_iff_ne] at hname
  simpa using hname.1

/-- A line shows its entry and ends where it does. -/
theorem prefixFree_line : Text.PrefixFree line := by
  rintro ⟨depth, kind, text?⟩ ⟨depth', kind', text?'⟩ r s heq
  simp only [line, List.append_assoc] at heq
  have hspaces : ∀ n, ∀ c ∈ List.replicate n ' ', (c == ' ') = true := by
    intro n c hc
    rw [List.eq_of_mem_replicate hc]
    rfl
  rcases Text.eq_of_class (hspaces _) (hspaces _) (head?_name kind _) (head?_name kind' _) heq with
    ⟨hindent, heq⟩
  rcases Text.eq_of_class kind.isNameChar_name.2 kind'.isNameChar_name.2 (head?_ending text? r)
    (head?_ending text?' s) heq with ⟨hname, heq⟩
  rcases prefixFree_ending heq with ⟨rfl, hrs⟩
  have hdepth : depth = depth' := by
    have hlength := congrArg List.length hindent
    simp only [List.length_replicate] at hlength
    omega
  have hkind : kind = kind' := Kind.name_injective (String.toList_injective hname)
  rw [hdepth, hkind]
  exact ⟨rfl, hrs⟩

/-- Lines in a row show their entries. -/
theorem eq_of_lines {es fs : List OutlineEntry} (h : es.flatMap line = fs.flatMap line) :
    es = fs := by
  have hend : ∀ (e : OutlineEntry) (w : List Char), [] ≠ e.line ++ w := by
    intro e w heq
    have hname : e.kind.name.toList = [] := by simp_all [line]
    exact e.kind.isNameChar_name.1 hname
  rw [← List.append_nil (es.flatMap line), ← List.append_nil (fs.flatMap line)] at h
  exact (prefixFree_line.eq_of_flatMap hend hend h).1

end OutlineEntry

/-! ## From depths to trees -/

/-- The token without its blanks and its value. -/
def Token.stripped (t : Token) : Token where
  kind := t.kind
  text := t.text

namespace Node

mutual

/-- The tree without its blanks and values. -/
def stripped : Node → Node
  | .token t => .token t.stripped
  | .tree k cs => .tree k (strippedIn cs)

def strippedIn : List Node → List Node
  | [] => []
  | n :: ns => n.stripped :: strippedIn ns

end

/-- What the outline of a tree at a depth shows. -/
def entriesAt (depth : Nat) (n : Node) : List OutlineEntry :=
  (n.outlineAt depth).map fun (d, m) => .ofNode d m

/-- What the outlines of some trees at a depth show. -/
def entriesIn (depth : Nat) (ns : List Node) : List OutlineEntry :=
  (outlineIn depth ns).map fun (d, m) => .ofNode d m

theorem entriesAt_token (depth : Nat) (t : Token) :
    entriesAt depth (.token t) = [⟨depth, t.kind, some t.text⟩] := rfl

theorem entriesAt_tree (depth : Nat) (k : Kind) (cs : List Node) :
    entriesAt depth (.tree k cs) = ⟨depth, k, none⟩ :: entriesIn (depth + 1) cs := rfl

theorem entriesIn_nil (depth : Nat) : entriesIn depth [] = [] := rfl

theorem entriesIn_cons (depth : Nat) (n : Node) (ns : List Node) :
    entriesIn depth (n :: ns) = entriesAt depth n ++ entriesIn depth ns := by
  simp [entriesIn, entriesAt, outlineIn]

mutual

/-- Blanks and values are not shown. -/
theorem entriesAt_stripped : (n : Node) → (depth : Nat) →
    entriesAt depth n.stripped = entriesAt depth n
  | .token t, depth => rfl
  | .tree k cs, depth => by
    rw [stripped, entriesAt_tree, entriesAt_tree, entriesIn_strippedIn cs (depth + 1)]

/-- Blanks and values are not shown in a list of trees either. -/
theorem entriesIn_strippedIn : (ns : List Node) → (depth : Nat) →
    entriesIn depth (strippedIn ns) = entriesIn depth ns
  | [], depth => rfl
  | n :: ns, depth => by
    rw [strippedIn, entriesIn_cons, entriesIn_cons, entriesAt_stripped n depth,
      entriesIn_strippedIn ns depth]

end

/-- The outline of a list begins with its first tree. -/
theorem head?_entriesIn (depth : Nat) (n : Node) (ns : List Node) (es : List OutlineEntry) :
    (entriesIn depth (n :: ns) ++ es).head? = some (.ofNode depth n) := by
  rw [entriesIn_cons]
  cases n <;> rfl

/-- The first of some entries, if there is one, is less deep than `depth`. -/
def Above (depth : Nat) (es : List OutlineEntry) : Prop := ∀ e ∈ es.head?, e.depth < depth

/-- A node is not above its own depth. -/
theorem not_above (depth : Nat) (n : Node) (ns : List Node) (es : List OutlineEntry) :
    ¬Above depth (entriesIn depth (n :: ns) ++ es) := by
  intro h
  have hlt := h _ (head?_entriesIn depth n ns es)
  exact Nat.lt_irrefl depth hlt

/-- Behind a node comes the next one at its depth, or what is above both. -/
theorem Above.entriesIn {depth : Nat} {es : List OutlineEntry} (h : Above depth es)
    (ns : List Node) : Above (depth + 1) (Node.entriesIn depth ns ++ es) := by
  intro e he
  cases ns with
  | nil => exact Nat.lt_succ_of_lt (h e he)
  | cons n ns =>
    rw [head?_entriesIn] at he
    cases he
    exact Nat.lt_succ_self depth

mutual

/-- A tree is known from the entries of its outline, up to blanks and values, if what follows is not
below it. -/
theorem eq_of_entriesAt : (n m : Node) → {depth : Nat} → {r s : List OutlineEntry} →
    Above (depth + 1) r → Above (depth + 1) s →
    entriesAt depth n ++ r = entriesAt depth m ++ s → n.stripped = m.stripped ∧ r = s
  | .token t, .token u, depth, r, s, _, _, h => by
    simp only [entriesAt_token, List.cons_append, List.nil_append, List.cons.injEq,
      OutlineEntry.mk.injEq, Option.some.injEq, true_and] at h
    rcases h with ⟨⟨hkind, htext⟩, hrs⟩
    simp [stripped, Token.stripped, hkind, htext, hrs]
  | .token t, .tree k cs, depth, r, s, _, _, h => by
    simp [entriesAt_token, entriesAt_tree] at h
  | .tree k cs, .token t, depth, r, s, _, _, h => by
    simp [entriesAt_token, entriesAt_tree] at h
  | .tree j as, .tree k bs, depth, r, s, hr, hs, h => by
    simp only [entriesAt_tree, List.cons_append, List.cons.injEq, OutlineEntry.mk.injEq, true_and,
      and_true] at h
    rcases h with ⟨rfl, h⟩
    rcases eq_of_entriesIn as bs hr hs h with ⟨hchildren, hrs⟩
    rw [stripped, stripped, hchildren]
    exact ⟨rfl, hrs⟩

/-- Trees in a row are known from the entries of their outlines, up to blanks and values, if what
follows is above them. -/
theorem eq_of_entriesIn : (ns ms : List Node) → {depth : Nat} → {r s : List OutlineEntry} →
    Above depth r → Above depth s →
    entriesIn depth ns ++ r = entriesIn depth ms ++ s → strippedIn ns = strippedIn ms ∧ r = s
  | [], [], depth, r, s, _, _, h => ⟨rfl, h⟩
  | [], m :: ms, depth, r, s, hr, _, h => by
    rw [entriesIn_nil, List.nil_append] at h
    rw [h] at hr
    exact absurd hr (not_above depth m ms s)
  | n :: ns, [], depth, r, s, _, hs, h => by
    rw [entriesIn_nil, List.nil_append] at h
    rw [← h] at hs
    exact absurd hs (not_above depth n ns r)
  | n :: ns, m :: ms, depth, r, s, hr, hs, h => by
    rw [entriesIn_cons, entriesIn_cons, List.append_assoc, List.append_assoc] at h
    rcases eq_of_entriesAt n m (hr.entriesIn ns) (hs.entriesIn ms) h with ⟨hfirst, h⟩
    rcases eq_of_entriesIn ns ms hr hs h with ⟨hmore, hrs⟩
    rw [strippedIn, strippedIn, hfirst, hmore]
    exact ⟨rfl, hrs⟩

end

/-! ## Outlines and walks -/

/-- The printed outline is that of the entries. -/
theorem dump_eq (n : Node) : n.dump = String.ofList ((entriesAt 0 n).flatMap OutlineEntry.line) := by
  rw [dump, entriesAt, List.flatMap_map, outline]
  congr 2
  funext entry
  exact (OutlineEntry.line_ofNode entry.1 entry.2).symm

end Node

/-- What is printed along a walk: a node that is entered is printed at the depth reached, which is
one more below it and again the same behind it. -/
def Visit.print (depth : Nat) : List Visit → List Char
  | [] => []
  | .enter n :: vs => n.outlineLine depth ++ print (depth + 1) vs
  | .leave _ :: vs => print (depth - 1) vs

namespace Node

mutual

/-- The depth behind a node is the depth in front of it. -/
theorem print_visits : (n : Node) → (depth : Nat) → (vs : List Visit) →
    Visit.print depth (n.visits ++ vs) =
      (entriesAt depth n).flatMap OutlineEntry.line ++ Visit.print depth vs
  | .token t, depth, vs => by
    rw [visits, List.cons_append, List.singleton_append, Visit.print, Visit.print,
      Nat.add_sub_cancel, ← OutlineEntry.line_ofNode, entriesAt_token, List.flatMap_singleton]
    rfl
  | .tree k cs, depth, vs => by
    rw [visits, List.cons_append, List.append_assoc, List.singleton_append, Visit.print,
      print_visitsIn cs, Visit.print, Nat.add_sub_cancel, ← OutlineEntry.line_ofNode, entriesAt_tree,
      List.flatMap_cons, List.append_assoc]
    rfl

/-- A walk through a list prints the lines of its trees and comes back to the same depth. -/
theorem print_visitsIn : (ns : List Node) → (depth : Nat) → (vs : List Visit) →
    Visit.print depth (visitsIn ns ++ vs) =
      (entriesIn depth ns).flatMap OutlineEntry.line ++ Visit.print depth vs
  | [], depth, vs => rfl
  | n :: ns, depth, vs => by
    rw [visitsIn, List.append_assoc, print_visits n, print_visitsIn ns, entriesIn_cons,
      List.flatMap_append, List.append_assoc]

end

/-- The outline is printed along a walk, and two trees have the same outline iff they are equal up
to blanks and values. -/
theorem dump_faithful (a b : Node) :
    a.dump = String.ofList (Visit.print 0 a.walk) ∧
      (a.dump = b.dump ↔ a.stripped = b.stripped) := by
  refine ⟨?_, ?_, ?_⟩
  · rw [dump_eq, walk_eq_visits]
    have hprint := a.print_visits 0 []
    rw [List.append_nil] at hprint
    rw [hprint]
    simp [Visit.print]
  · intro h
    rw [dump_eq, dump_eq] at h
    have hentries := OutlineEntry.eq_of_lines (String.ofList_injective h)
    have habove : Above 1 [] := by
      intro e he
      cases he
    rw [← List.append_nil (entriesAt 0 a), ← List.append_nil (entriesAt 0 b)] at hentries
    exact (eq_of_entriesAt a b habove habove hentries).1
  · intro h
    rw [dump_eq, dump_eq, ← a.entriesAt_stripped, h, b.entriesAt_stripped]

/-- A text cannot imitate a line of its own. -/
example : (Node.token { kind := .ident, text := "a\"\n  IDENT \"b" }).dump =
    "IDENT \"a\\\"\\n  IDENT \\\"b\"\n" := by decide +kernel

end Node

end Lossless
