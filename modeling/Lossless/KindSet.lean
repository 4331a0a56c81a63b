import Lossless.Kind

/-!
# Sets of kinds

A set of kinds is kept in two words of 64 bits, one bit for each kind. A kind's number picks the
word by its quotient by 64 and the bit by its remainder.
-/

namespace Lossless

/-- A set of kinds. -/
structure KindSet where
  words : Vector UInt64 2
deriving DecidableEq, Repr

/-- The word that holds the bit of a kind. -/
def Kind.slot (k : Kind) : Fin 2 := ⟨k.number / 64, by have := k.number_lt; omega⟩

/-- The bit of a kind inside its word. -/
def Kind.mask (k : Kind) : UInt64 := 1 <<< UInt64.ofNat (k.number % 64)

namespace KindSet

def empty : KindSet := ⟨#v[0, 0]⟩

def singleton (k : Kind) : KindSet := ⟨empty.words.set k.slot k.mask⟩

def union (a b : KindSet) : KindSet := ⟨Vector.zipWith (· ||| ·) a.words b.words⟩

def ofList (ks : List Kind) : KindSet := ks.foldl (fun s k => s.union (singleton k)) empty

def contains (s : KindSet) (k : Kind) : Bool := s.words[k.slot] &&& k.mask != 0

/-- The members in the order of the kinds. -/
def members (s : KindSet) : List Kind := Kind.all.filter s.contains

/-! ## Membership -/

/-- The bits of a mask can be picked out of each of two words on its own. -/
theorem or_and (x y m : UInt64) : (x ||| y) &&& m = (x &&& m) ||| (y &&& m) := by
  apply UInt64.toBitVec_inj.1
  simp only [UInt64.toBitVec_and, UInt64.toBitVec_or]
  ext i hi
  simp [Bool.and_or_distrib_right]

@[simp] theorem contains_empty (k : Kind) : empty.contains k = false := by
  cases k <;> rfl

@[simp] theorem contains_union (a b : KindSet) (k : Kind) :
    (a.union b).contains k = (a.contains k || b.contains k) := by
  simp only [contains, union, Fin.getElem_fin, Vector.getElem_zipWith, or_and]
  rw [Bool.eq_iff_iff]
  by_cases ha : a.words[k.slot.val] &&& k.mask = 0 <;> simp [UInt64.or_eq_zero_iff, ha]

/-- No two kinds share a bit. -/
theorem contains_singleton_table :
    (Kind.all.all fun a =>
      Kind.all.all fun k => (singleton a).contains k == decide (a = k)) = true := by
  decide +kernel

@[simp] theorem contains_singleton (a k : Kind) : (singleton a).contains k = decide (a = k) := by
  have h := contains_singleton_table
  rw [List.all_eq_true] at h
  have := h a (Kind.mem_all a)
  rw [List.all_eq_true] at this
  exact eq_of_beq (this k (Kind.mem_all k))

/-- A set to which kinds are added one by one has its old members and these kinds. -/
theorem contains_foldl (ks : List Kind) (s : KindSet) (k : Kind) :
    (ks.foldl (fun s k => s.union (singleton k)) s).contains k =
      (s.contains k || ks.contains k) := by
  induction ks generalizing s with
  | nil => simp
  | cons a ks ih =>
    rw [List.foldl_cons, ih, contains_union, contains_singleton, List.contains_cons, Bool.or_assoc]
    have hcomm : decide (a = k) = (k == a) := by
      rw [Bool.eq_iff_iff, decide_eq_true_iff, beq_iff_eq]
      exact eq_comm
    rw [hcomm]

/-- A set made from a list has the members of the list. -/
@[simp] theorem contains_ofList (ks : List Kind) (k : Kind) :
    (ofList ks).contains k = ks.contains k := by
  rw [ofList, contains_foldl, contains_empty, Bool.false_or]

end KindSet

end Lossless
