import Mathlib.Data.List.Forall2
import Mathlib.Data.List.TakeWhile
import Mathlib.Data.Nat.Digits.Defs
import Lossless.Proofs.Spelling
import Lossless.View.Comment

/-!
# Offsets in comments

A comment gives an offset if, without the white space around it and without one mark `0x` or `0X`,
it consists of hexadecimal digits, perhaps behind one plus sign, whose value fits in 64 bits. Here
each of these parts is stated without the functions that cut the text and read the digits, and
`CommentView.offset?_exact` says that the functions find an offset exactly where the parts do.
-/

namespace Lossless

namespace Text

/-! ## White space around a text -/

/-- The text `y` is `x` without the white space at its two ends. -/
structure Trims (x y : List Char) : Prop where
  split : ∃ front back, x = front ++ y ++ back ∧ (∀ c ∈ front, isBlank c = true) ∧
    ∀ c ∈ back, isBlank c = true
  head : ∀ c ∈ y.head?, isBlank c = false
  last : ∀ c ∈ y.getLast?, isBlank c = false

/-- What is left of a text without the blanks at its front does not begin with one. -/
theorem head?_trimStart (x : List Char) : ∀ c ∈ (trimStart x).head?, isBlank c = false := by
  intro c hc
  have hhead := List.head?_dropWhile_not isBlank x
  rw [show (x.dropWhile isBlank).head? = some c from hc] at hhead
  simpa using hhead

/-- Trimming takes blanks off both ends, and none is left there. -/
theorem trims_trim (x : List Char) : Trims x (trim x) := by
  have hfront : x.takeWhile isBlank ++ trimStart x = x := List.takeWhile_append_dropWhile
  -- The blanks at the end are those in front of the reversed text.
  have hback : trimEnd (trimStart x) ++ ((trimStart x).reverse.takeWhile isBlank).reverse =
      trimStart x := by
    rw [trimEnd, ← List.reverse_append, List.takeWhile_append_dropWhile, List.reverse_reverse]
  constructor
  · refine ⟨x.takeWhile isBlank, ((trimStart x).reverse.takeWhile isBlank).reverse, ?_, ?_, ?_⟩
    · rw [trim, List.append_assoc, hback, hfront]
    · exact fun c => List.mem_takeWhile_imp
    · intro c hc
      exact List.mem_takeWhile_imp (List.mem_reverse.1 hc)
  · intro c hc
    apply head?_trimStart x c
    rw [← hback, List.head?_append, show (trimEnd (trimStart x)).head? = some c from hc]
    rfl
  · intro c hc
    rw [trim, trimEnd, List.getLast?_reverse] at hc
    exact head?_trimStart (trimStart x).reverse c hc

/-- White space is taken off the ends of a text in one way. -/
theorem Trims.eq_trim {x y : List Char} (h : Trims x y) : y = trim x := by
  rcases h with ⟨⟨front, back, rfl, hfront, hback⟩, hhead, hlast⟩
  have hstart : trimStart (front ++ y ++ back) = trimStart (y ++ back) := by
    rw [trimStart, trimStart, List.append_assoc, List.dropWhile_append_of_pos hfront]
  have hstop : ∀ w : List Char, (∀ c ∈ w.head?, isBlank c = false) → w.dropWhile isBlank = w := by
    intro w hw
    cases w with
    | nil => rfl
    | cons c w => simp [hw c rfl]
  have hback' : ∀ c ∈ back.reverse, isBlank c = true := fun c hc => hback c (List.mem_reverse.1 hc)
  rw [trim, hstart]
  cases y with
  | nil =>
    -- Nothing but white space is there.
    have hnil : trimStart back = [] := by
      rw [trimStart, List.dropWhile_eq_nil_iff]
      exact hback
    rw [List.nil_append, hnil]
    rfl
  | cons c y =>
    have hfirst : trimStart (c :: y ++ back) = c :: y ++ back := hstop _ hhead
    rw [hfirst, trimEnd, List.reverse_append, List.dropWhile_append_of_pos hback',
      hstop (c :: y).reverse (by rwa [List.head?_reverse]), List.reverse_reverse]

/-! ## The mark -/

/-- The text `z` is `y` without one mark in front, or all of `y` if it has none. -/
def Unmarks (y z : List Char) : Prop :=
  y = '0' :: 'x' :: z ∨ y = '0' :: 'X' :: z ∨
    z = y ∧ ¬['0', 'x'] <+: y ∧ ¬['0', 'X'] <+: y

/-- A mark is cut off if the text begins with one, and then only once. -/
theorem unmarks_iff {y z : List Char} : Unmarks y z ↔ z = dropHexMark y := by
  unfold Unmarks
  fun_cases dropHexMark y with
  | case1 cs => simp [eq_comm]
  | case2 cs => simp [eq_comm]
  | case3 _ hlower hupper =>
    constructor
    · rintro (h | h | ⟨h, -, -⟩)
      · exact (hlower z h).elim
      · exact (hupper z h).elim
      · exact h
    · intro h
      refine Or.inr (Or.inr ⟨h, ?_, ?_⟩)
      · rintro ⟨w, hw⟩
        exact hlower w hw.symm
      · rintro ⟨w, hw⟩
        exact hupper w hw.symm

/-! ## Digits -/

/-- The character stands for the digit in one of the two cases. -/
def IsHexDigit (c : Char) (d : Nat) : Prop :=
  "0123456789abcdef".toList[d]? = some c ∨ "0123456789ABCDEF".toList[d]? = some c

instance (c : Char) (d : Nat) : Decidable (IsHexDigit c d) := inferInstanceAs (Decidable (_ ∨ _))

/-- The letters among the digits end with `f`, so digits are found among the first 103 characters. -/
theorem toNat_lt_of_hexDigit {c : Char} {d : Nat} (h : hexDigit? c = some d) : c.toNat < 103 := by
  unfold hexDigit? at h
  split at h
  · rename_i hc
    exact Nat.lt_of_le_of_lt hc.2 (by decide)
  split at h
  · rename_i hc
    exact Nat.lt_of_le_of_lt hc.2 (by decide)
  split at h
  · rename_i hc
    exact Nat.lt_of_le_of_lt hc.2 (by decide)
  · cases h

/-- The digits are read with their values, and nothing else is. -/
theorem hexDigit?_eq_some_iff {c : Char} {d : Nat} : hexDigit? c = some d ↔ IsHexDigit c d := by
  constructor
  · intro h
    have hall : ∀ n < 103, ∀ d ∈ hexDigit? (Char.ofNat n), IsHexDigit (Char.ofNat n) d := by
      decide +kernel
    have hc := hall c.toNat (toNat_lt_of_hexDigit h)
    rw [Char.ofNat_toNat] at hc
    exact hc d h
  · have hlower : ∀ d < 16, "0123456789abcdef".toList[d]?.bind hexDigit? = some d := by
      decide +kernel
    have hupper : ∀ d < 16, "0123456789ABCDEF".toList[d]?.bind hexDigit? = some d := by
      decide +kernel
    rintro (h | h)
    · have hd := hlower d (List.getElem?_eq_some_iff.1 h).1
      rwa [h, Option.bind_some] at hd
    · have hd := hupper d (List.getElem?_eq_some_iff.1 h).1
      rwa [h, Option.bind_some] at hd

/-- Digits are read one by one. -/
theorem mapM_hexDigit?_iff {cs : List Char} {ds : List Nat} :
    cs.mapM hexDigit? = some ds ↔ List.Forall₂ IsHexDigit cs ds := by
  induction cs generalizing ds with
  | nil => simp [eq_comm]
  | cons c cs ih =>
    rw [List.mapM_cons]
    simp only [Option.bind_eq_bind, Option.bind_eq_some_iff, Option.pure_def, Option.some.injEq]
    constructor
    · rintro ⟨d, hd, ds', hds, rfl⟩
      exact .cons (hexDigit?_eq_some_iff.1 hd) (ih.1 hds)
    · intro h
      cases h with
      | cons hd hds => exact ⟨_, hexDigit?_eq_some_iff.2 hd, _, ih.2 hds, rfl⟩

/-- Digits from the left denote what the library's digits from the right denote. -/
theorem ofHexDigits_eq (ds : List Nat) : ofHexDigits ds = Nat.ofDigits 16 ds.reverse := by
  rw [Nat.ofDigits_eq_foldr, List.foldr_reverse, ofHexDigits]
  congr 1
  funext n d
  rw [Nat.cast_id]
  omega

/-- One or more hexadecimal digits with a value. -/
def SpellsHex (digits : List Char) (v : Nat) : Prop :=
  digits ≠ [] ∧ ∃ ds, List.Forall₂ IsHexDigit digits ds ∧ Nat.ofDigits 16 ds.reverse = v

/-- A number is read iff there are digits and nothing else, and it is the one that they denote. -/
theorem hexNumber?_eq_some_iff {cs : List Char} {v : Nat} :
    hexNumber? cs = some v ↔ SpellsHex cs v := by
  unfold hexNumber? SpellsHex
  by_cases hcs : cs = []
  · simp [hcs]
  · simp only [List.isEmpty_iff, hcs, if_false, Option.map_eq_some_iff, mapM_hexDigit?_iff,
      ofHexDigits_eq, ne_eq, not_false_eq_true, true_and]

/-- Hexadecimal digits, perhaps behind one plus sign, with a value that fits in 64 bits. -/
def SpellsOffset (z : List Char) (v : Nat) : Prop :=
  ∃ digits, (z = digits ∨ z = '+' :: digits) ∧ SpellsHex digits v ∧ v < 2 ^ 64

/-- A plus sign is no digit, so at most one is passed over. -/
theorem SpellsHex.dropPlus_eq {digits : List Char} {v : Nat} (h : SpellsHex digits v) :
    dropPlus digits = digits := by
  unfold dropPlus
  split
  · rename_i cs
    rcases h with ⟨-, ds, hds, -⟩
    cases hds with
    | cons hd _ =>
      have hplus := hexDigit?_eq_some_iff.2 hd
      cases hplus
  · rfl

/-- A plus sign may stand in front, once, and the number has to fit into 64 bits. -/
theorem spellsOffset_iff {z : List Char} {v : Nat} :
    SpellsOffset z v ↔ SpellsHex (dropPlus z) v ∧ v < 2 ^ 64 := by
  constructor
  · rintro ⟨digits, rfl | rfl, hdigits, hv⟩
    · rw [hdigits.dropPlus_eq]
      exact ⟨hdigits, hv⟩
    · exact ⟨hdigits, hv⟩
  · rintro ⟨hdigits, hv⟩
    refine ⟨dropPlus z, ?_, hdigits, hv⟩
    unfold dropPlus
    split
    · exact Or.inr rfl
    · exact Or.inl rfl

theorem hexOffset?_eq_some_iff {x : List Char} {v : Nat} :
    hexOffset? x = some v ↔ SpellsOffset (dropHexMark (trim x)) v := by
  rw [hexOffset?, Option.filter_eq_some_iff, hexNumber?_eq_some_iff, spellsOffset_iff,
    decide_eq_true_eq]
  rfl

end Text

/-- The offset that a comment gives. Let `y` be the text of the comment, which is empty if it has
none, without the white space around it, and `z` be `y` without one mark. The comment gives the
offset `v` iff `z` spells it in at most 64 bits, and none otherwise. -/
theorem CommentView.offset?_exact (c : CommentView) :
    (c.node.firstOfKind? .commentText = none → c.text = "") ∧
      (∃ y z, Text.Trims c.text.toList y ∧ Text.Unmarks y z) ∧
      ∀ y z, Text.Trims c.text.toList y → Text.Unmarks y z →
        (∀ v, c.offset? = some v ↔ Text.SpellsOffset z v) ∧
          (c.offset? = none ↔ ¬∃ v, Text.SpellsOffset z v) := by
  refine ⟨?_, ?_, ?_⟩
  · intro h
    rw [text, h]
    rfl
  · exact ⟨_, _, Text.trims_trim c.text.toList, Text.unmarks_iff.2 rfl⟩
  · intro y z hy hz
    have hsome : ∀ v, c.offset? = some v ↔ Text.SpellsOffset z v := by
      intro v
      rw [offset?, Text.hexOffset?_eq_some_iff, ← hy.eq_trim, ← Text.unmarks_iff.1 hz]
    refine ⟨hsome, ?_⟩
    rw [Option.eq_none_iff_forall_ne_some, not_exists]
    exact forall_congr' fun v => not_congr (hsome v)

/-- A comment with white space of several kinds, a mark in upper case, a plus sign behind it, and
more zeros than 64 bits have digits. -/
def paddedComment : CommentView where
  node := .tree .comment
    [.token { kind := .doubleSlash, text := "//" },
      .token { kind := .commentText, text := "\u3000 0X+00000000000000000000fF\t" }]
  kind_eq := rfl

/-- A plus sign, more zeros than 64 bits have digits, both cases of letters, and blanks that are not
ASCII. -/
theorem CommentView.offset?_exact_padded :
    Text.SpellsOffset "+00000000000000000000fF".toList 255 ∧ paddedComment.offset? = some 255 := by
  have hy : Text.Trims paddedComment.text.toList "0X+00000000000000000000fF".toList := by
    have htrim : Text.trim paddedComment.text.toList = "0X+00000000000000000000fF".toList := by
      decide
    rw [← htrim]
    exact Text.trims_trim _
  have hz : Text.Unmarks "0X+00000000000000000000fF".toList "+00000000000000000000fF".toList :=
    Text.unmarks_iff.2 (by decide)
  have hv : Text.SpellsOffset "+00000000000000000000fF".toList 255 := by
    refine ⟨"00000000000000000000fF".toList, Or.inr (by decide), ?_, by decide⟩
    exact Text.hexNumber?_eq_some_iff.1 (by decide)
  exact ⟨hv, ((paddedComment.offset?_exact.2.2 _ _ hy hz).1 255).2 hv⟩

/-- Only significant digits count, and a mark is passed over once and before the sign. -/
example :
    Text.hexOffset? "0xFFFFFFFFFFFFFFFF".toList = some (2 ^ 64 - 1) ∧
      Text.hexOffset? "0x10000000000000000".toList = none ∧
      Text.hexOffset? "0x0x1".toList = none ∧ Text.hexOffset? "+0x1".toList = none := by
  decide

end Lossless
