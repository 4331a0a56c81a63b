import Mathlib.Algebra.Order.Field.Basic
import Mathlib.Algebra.Order.Field.Rat
import Mathlib.Tactic.Linarith
import Mathlib.Tactic.Ring

/-!
# Rounding to a scale

A scale is an increasing sequence of rational numbers, of which only the first ones may be used. To
round a number is to find the place of the scale that is nearest to it, and of two that are equally
near the even one (`NearestEven`). There is at most one such place (`NearestEven.unique`), and it
can be told from the midpoints on its two sides alone (`Around.nearestEven`). Whether the places
that may be used suffice is decided by one midpoint, the one behind the last of them
(`Around.lt_iff`).
-/

namespace Lossless

/-- The place `b` of a scale is, among the first `top` places, nearest to a number, and if another
place is equally near, it is even. -/
structure NearestEven (scale : ℕ → ℚ) (top : ℕ) (u : ℚ) (b : ℕ) : Prop where
  lt : b < top
  nearest : ∀ c < top, |u - scale b| ≤ |u - scale c|
  even : ∀ c < top, c ≠ b → |u - scale c| = |u - scale b| → b % 2 = 0

/-- The number half way between a place of a scale and the next one. -/
def midpoint (scale : ℕ → ℚ) (b : ℕ) : ℚ := (scale b + scale (b + 1)) / 2

/-- A number lies between the midpoints on both sides of a place, and on one of them only if the
place is even. -/
structure Around (scale : ℕ → ℚ) (u : ℚ) (b : ℕ) : Prop where
  above : u ≤ midpoint scale b
  above_even : u = midpoint scale b → b % 2 = 0
  below : ∀ c, c + 1 = b → midpoint scale c ≤ u
  below_even : ∀ c, c + 1 = b → u = midpoint scale c → b % 2 = 0

section Scales

variable {scale : ℕ → ℚ} {top b c : ℕ} {u x y : ℚ}

theorem abs_sub_le_iff_left (h : x < y) : |u - x| ≤ |u - y| ↔ 2 * u ≤ x + y := by
  rcases abs_cases (u - x) with hx | hx <;> rcases abs_cases (u - y) with hy | hy <;>
    constructor <;> intro hle <;> linarith

theorem abs_sub_le_iff_right (h : x < y) : |u - y| ≤ |u - x| ↔ x + y ≤ 2 * u := by
  rcases abs_cases (u - x) with hx | hx <;> rcases abs_cases (u - y) with hy | hy <;>
    constructor <;> intro hle <;> linarith

/-- The midpoints between the steps of a growing scale grow with it. -/
theorem midpoint_strictMono (hs : StrictMono scale) : StrictMono (midpoint scale) := by
  intro b c hbc
  have hleft := hs hbc
  have hright := hs (Nat.add_lt_add_right hbc 1)
  simp only [midpoint]
  linarith

/-- A number is rounded to the place around which it lies. -/
theorem Around.nearestEven (hs : StrictMono scale) (h : Around scale u b) (hb : b < top) :
    NearestEven scale top u b := by
  -- The midpoint to a place further up is no lower than the one to the next place.
  have hup : ∀ c, b < c → 2 * u ≤ scale b + scale c ∧
      (2 * u = scale b + scale c → u = midpoint scale b) := by
    intro c hbc
    have hnext : scale (b + 1) ≤ scale c := hs.monotone hbc
    have habove := h.above
    simp only [midpoint] at habove ⊢
    constructor
    · linarith
    · intro heq
      linarith
  -- Below it is the other way round, and the next place down has the last midpoint.
  have hdown : ∀ c, c < b → scale c + scale b ≤ 2 * u ∧
      (2 * u = scale c + scale b → ∃ a, a + 1 = b ∧ u = midpoint scale a) := by
    intro c hcb
    obtain ⟨a, rfl⟩ : ∃ a, a + 1 = b := ⟨b - 1, by omega⟩
    have hprev : scale c ≤ scale a := hs.monotone (Nat.le_of_lt_succ hcb)
    have hbelow := h.below a rfl
    simp only [midpoint] at hbelow ⊢
    constructor
    · linarith
    · intro heq
      exact ⟨a, rfl, by linarith⟩
  refine ⟨hb, ?_, ?_⟩
  · intro c _
    rcases lt_trichotomy b c with hbc | rfl | hcb
    · exact (abs_sub_le_iff_left (hs hbc)).2 (hup c hbc).1
    · exact le_refl _
    · exact (abs_sub_le_iff_right (hs hcb)).2 (hdown c hcb).1
  · intro c _ hne heq
    rcases lt_or_gt_of_ne hne with hcb | hbc
    · have htie := (abs_sub_le_iff_left (hs hcb)).1 (le_of_eq heq)
      obtain ⟨a, ha, hu⟩ := (hdown c hcb).2 (le_antisymm htie (hdown c hcb).1)
      exact h.below_even a ha hu
    · have htie := (abs_sub_le_iff_right (hs hbc)).1 (le_of_eq heq)
      exact h.above_even ((hup c hbc).2 (le_antisymm (hup c hbc).1 htie))

/-- A number is rounded to one place at most: of two neighbours one is odd, and a place between two
others would be nearer. -/
theorem NearestEven.unique (hs : StrictMono scale) (hb : NearestEven scale top u b)
    (hc : NearestEven scale top u c) : b = c := by
  by_contra hne
  wlog hbc : b < c generalizing b c
  · exact this hc hb (fun h => hne h.symm) (by omega)
  have heq : |u - scale b| = |u - scale c| :=
    le_antisymm (hb.nearest c hc.lt) (hc.nearest b hb.lt)
  have hbeven := hb.even c hc.lt (fun h => hne h.symm) heq.symm
  have hceven := hc.even b hb.lt hne heq
  have hbetween : b + 1 < c := by omega
  have htie := (abs_sub_le_iff_right (hs hbc)).1 (le_of_eq heq.symm)
  have hnear := (abs_sub_le_iff_left (hs (Nat.lt_succ_self b))).1
    (hb.nearest (b + 1) (hbetween.trans hc.lt))
  have hlt := hs hbetween
  linarith

/-- What is rounded to a place below an even one is below the midpoint in front of that one. -/
theorem Around.lt_iff (hs : StrictMono scale) (h : Around scale u b) (hodd : c % 2 = 1) :
    b < c + 1 ↔ u < midpoint scale c := by
  constructor
  · intro hlt
    rcases Nat.lt_or_ge b c with hbc | hcb
    · exact lt_of_le_of_lt h.above (midpoint_strictMono hs hbc)
    · obtain rfl : b = c := by omega
      apply lt_of_le_of_ne h.above
      intro heq
      have heven := h.above_even heq
      omega
  · intro hlt
    by_contra hge
    obtain ⟨a, rfl⟩ : ∃ a, a + 1 = b := ⟨b - 1, by omega⟩
    have hbelow := h.below a rfl
    have hmono : midpoint scale c ≤ midpoint scale a :=
      (midpoint_strictMono hs).monotone (by omega)
    linarith

/-- The unit in which a scale is measured has no influence. -/
theorem Around.div (h : Around scale u b) {q : ℚ} (hq : 0 < q) :
    Around (fun b => scale b / q) (u / q) b := by
  have hmid : ∀ c, midpoint (fun b => scale b / q) c = midpoint scale c / q := by
    intro c
    simp only [midpoint]
    ring
  constructor
  · rw [hmid]
    exact div_le_div_of_nonneg_right h.above hq.le
  · intro heq
    rw [hmid, div_left_inj' hq.ne'] at heq
    exact h.above_even heq
  · intro c hc
    rw [hmid]
    exact div_le_div_of_nonneg_right (h.below c hc) hq.le
  · intro c hc heq
    rw [hmid, div_left_inj' hq.ne'] at heq
    exact h.below_even c hc heq

end Scales

end Lossless
