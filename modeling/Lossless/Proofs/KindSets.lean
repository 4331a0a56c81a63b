import Lossless.KindSet
import Mathlib.Data.Nat.Bitwise

/-!
# Sets of kinds are sets

A set of kinds is kept in two words. Laid end to end, the words are one row of bits, and the number
of a kind is the place of its bit in the row (`KindSet.contains_eq_bit`). Each way of making a set is
one equation on bits. A set that is made from groups of kinds has the bits of these kinds and no
others (`KindSet.bit_ofGroups`), so its words say nothing beyond its members.
-/

namespace Lossless

/-- The mask of a kind has one bit, at the place of the kind in its word. -/
theorem Kind.toNat_mask (k : Kind) : k.mask.toNat = 2 ^ (k.number % 64) := by
  have hbit : k.number % 64 < 64 := Nat.mod_lt _ (by decide)
  have hpow : 2 ^ (k.number % 64) < 2 ^ 64 := Nat.pow_lt_pow_right (by decide) hbit
  have hshift : (UInt64.ofNat (k.number % 64)).toNat % 64 = k.number % 64 := by
    rw [UInt64.toNat_ofNat']
    omega
  rw [mask, UInt64.toNat_shiftLeft, hshift, Nat.shiftLeft_eq, UInt64.toNat_one, Nat.one_mul]
  exact Nat.mod_eq_of_lt hpow

namespace KindSet

/-- Whether a bit is set in the words laid end to end. Behind the words no bit is set. -/
def bit (s : KindSet) (p : Nat) : Bool := (s.words[p / 64]?).any (·.toNat.testBit (p % 64))

/-- The kinds of some groups, group by group. -/
def ofGroups (gs : List (List Kind)) : KindSet := gs.foldl (fun s g => s.union (ofList g)) empty

/-- The word with the bit of a kind is there, and the kind is a member iff its bit is set. -/
theorem exists_word (s : KindSet) (k : Kind) :
    ∃ w, s.words[k.number / 64]? = some w ∧ s.contains k = w.toNat.testBit (k.number % 64) := by
  have hslot : k.number / 64 < 2 := k.slot.isLt
  refine ⟨s.words[k.number / 64], Vector.getElem?_eq_getElem hslot, ?_⟩
  show (s.words[k.number / 64] &&& k.mask != 0) = _
  rw [Bool.eq_iff_iff, bne_iff_ne, ne_eq, ← UInt64.toNat_inj, UInt64.toNat_and, k.toNat_mask,
    Nat.and_two_pow]
  cases (s.words[k.number / 64]).toNat.testBit (k.number % 64) <;> simp

/-- Membership is the bit at the number of the kind. -/
theorem contains_eq_bit (s : KindSet) (k : Kind) : s.contains k = s.bit k.number := by
  obtain ⟨w, hw, hcontains⟩ := s.exists_word k
  rw [hcontains, bit, hw, Option.any_some]

/-! ## Bits of the operations -/

theorem bit_of_lt {s : KindSet} {p : Nat} (hp : p / 64 < 2) :
    s.bit p = s.words[p / 64].toNat.testBit (p % 64) := by
  rw [bit, Vector.getElem?_eq_getElem hp, Option.any_some]

theorem bit_of_ge {s : KindSet} {p : Nat} (hp : ¬p / 64 < 2) : s.bit p = false := by
  rw [bit, Vector.getElem?_eq_none (Nat.le_of_not_lt hp), Option.any_none]

/-- Both words of the empty set are zero. -/
theorem empty_word {i : Nat} (hi : i < 2) : empty.words[i] = 0 := by
  rcases i with _ | _ | i
  · rfl
  · rfl
  · omega

@[simp] theorem bit_empty (p : Nat) : empty.bit p = false := by
  by_cases hp : p / 64 < 2
  · rw [bit_of_lt hp, empty_word hp]
    exact Nat.zero_testBit _
  · exact bit_of_ge hp

/-- The bits of a union are those of its two parts. -/
@[simp] theorem bit_union (a b : KindSet) (p : Nat) : (a.union b).bit p = (a.bit p || b.bit p) := by
  by_cases hp : p / 64 < 2
  · simp only [bit_of_lt hp, union, Vector.getElem_zipWith, UInt64.toNat_or, Nat.testBit_or]
  · simp only [bit_of_ge hp, Bool.or_false]

/-- A set of one kind has one bit, in the word of the kind and nowhere else. -/
@[simp] theorem bit_singleton (k : Kind) (p : Nat) :
    (singleton k).bit p = decide (p = k.number) := by
  have hslot : k.slot.val = k.number / 64 := rfl
  -- There are two words; places behind them are in no set.
  by_cases hp : p / 64 < 2
  · rw [bit_of_lt hp, Bool.eq_iff_iff, decide_eq_true_iff]
    by_cases hword : k.number / 64 = p / 64
    · have hbit : (singleton k).words[p / 64] = k.mask := by
        simp [singleton, hslot, hword]
      rw [hbit, k.toNat_mask, Nat.testBit_two_pow, decide_eq_true_iff]
      omega
    · have hzero : (singleton k).words[p / 64] = 0 := by
        simp [singleton, hslot, hword, empty_word hp]
      have hne : p ≠ k.number := by
        rintro rfl
        exact hword rfl
      simp [hzero, hne]
  · have hne : p ≠ k.number := by
      rintro rfl
      exact hp k.slot.isLt
    rw [bit_of_ge hp, decide_eq_false hne]

/-- A fold of unions has the bits of the set it starts from and those of the sets it adds. -/
theorem bit_foldl {α : Type} (f : α → KindSet) (xs : List α) (s : KindSet) (p : Nat) :
    (xs.foldl (fun s x => s.union (f x)) s).bit p = (s.bit p || xs.any fun x => (f x).bit p) := by
  induction xs generalizing s with
  | nil => rw [List.foldl_nil, List.any_nil, Bool.or_false]
  | cons x xs ih => rw [List.foldl_cons, ih, bit_union, List.any_cons, Bool.or_assoc]

/-- The bits of a set of kinds are their numbers and no others. -/
theorem bit_ofList (ks : List Kind) (p : Nat) :
    (ofList ks).bit p = true ↔ ∃ k ∈ ks, p = k.number := by
  rw [ofList, bit_foldl, bit_empty, Bool.false_or, List.any_eq_true]
  simp only [bit_singleton, decide_eq_true_iff]

/-- The bits of a set made from groups are the numbers of the kinds in the groups. -/
theorem bit_ofGroups (gs : List (List Kind)) (p : Nat) :
    (ofGroups gs).bit p = true ↔ ∃ g ∈ gs, ∃ k ∈ g, p = k.number := by
  rw [ofGroups, bit_foldl, bit_empty, Bool.false_or, List.any_eq_true]
  simp only [bit_ofList]

/-! ## Equal members, equal words -/

/-- Words with the same bits are the same words. -/
theorem eq_of_bit {a b : KindSet} (h : ∀ p, a.bit p = b.bit p) : a = b := by
  obtain ⟨as⟩ := a
  obtain ⟨bs⟩ := b
  congr 1
  apply Vector.ext
  intro i hi
  apply UInt64.toNat_inj.1
  apply Nat.eq_of_testBit_eq
  intro j
  by_cases hj : j < 64
  · have hplace := h (64 * i + j)
    have hword : (64 * i + j) / 64 = i := by omega
    have hbit : (64 * i + j) % 64 = j := by omega
    simpa only [bit, hword, hbit, Vector.getElem?_eq_getElem hi, Option.any_some] using hplace
  · -- A word has no bits behind its last one.
    have hpow : 2 ^ 64 ≤ 2 ^ j := Nat.pow_le_pow_right (by decide) (Nat.le_of_not_lt hj)
    have hend : ∀ w : UInt64, w.toNat.testBit j = false := fun w =>
      Nat.testBit_lt_two_pow (Nat.lt_of_lt_of_le w.toNat_lt hpow)
    rw [hend, hend]

/-- Members of a set made from groups are the kinds in the groups, since kinds differ in their
numbers. -/
theorem contains_ofGroups (gs : List (List Kind)) (k : Kind) :
    (ofGroups gs).contains k = true ↔ ∃ g ∈ gs, k ∈ g := by
  rw [contains_eq_bit, bit_ofGroups]
  constructor
  · rintro ⟨g, hg, k', hk', hnumber⟩
    rw [← Kind.number_injective hnumber] at hk'
    exact ⟨g, hg, hk'⟩
  · rintro ⟨g, hg, hk⟩
    exact ⟨g, hg, k, hk, rfl⟩

/-- Sets made from groups with the same members have no bits to differ in. -/
theorem ofGroups_eq_iff (gs hs : List (List Kind)) :
    ofGroups gs = ofGroups hs ↔ ∀ k, (ofGroups gs).contains k = (ofGroups hs).contains k := by
  have hpart : ∀ {gs hs : List (List Kind)} {p : Nat},
      (∀ k, (ofGroups gs).contains k = (ofGroups hs).contains k) →
        (ofGroups gs).bit p = true → (ofGroups hs).bit p = true := by
    intro gs hs p hsame hbit
    obtain ⟨-, -, k, -, rfl⟩ := (bit_ofGroups gs p).1 hbit
    rw [← contains_eq_bit] at hbit ⊢
    rw [← hsame, hbit]
  constructor
  · intro h k
    rw [h]
  · intro hsame
    apply eq_of_bit
    intro p
    rw [Bool.eq_iff_iff]
    exact ⟨hpart hsame, hpart fun k => (hsame k).symm⟩

/-- Sets of kinds are finite sets. A set made from groups has as members the kinds in the groups. Two
such sets are equal, word by word, iff they have the same members, and so iff the same kinds occur in
the groups, in whatever order, grouping and number. The word that is looked up for a kind is always
there, and the kind is a member iff its own bit is set in it. -/
theorem ofGroups_faithful :
    (∀ (gs : List (List Kind)) (k : Kind), (ofGroups gs).contains k = true ↔ ∃ g ∈ gs, k ∈ g) ∧
    (∀ gs hs : List (List Kind), ofGroups gs = ofGroups hs ↔
      ∀ k, (ofGroups gs).contains k = (ofGroups hs).contains k) ∧
    (∀ gs hs : List (List Kind), ofGroups gs = ofGroups hs ↔
      ∀ k, (∃ g ∈ gs, k ∈ g) ↔ ∃ h ∈ hs, k ∈ h) ∧
    ∀ (s : KindSet) (k : Kind), ∃ w, s.words[k.number / 64]? = some w ∧
      s.contains k = w.toNat.testBit (k.number % 64) := by
  refine ⟨contains_ofGroups, ofGroups_eq_iff, ?_, exists_word⟩
  intro gs hs
  rw [ofGroups_eq_iff]
  refine forall_congr' fun k => ?_
  rw [Bool.eq_iff_iff, contains_ofGroups, contains_ofGroups]

end KindSet

end Lossless
