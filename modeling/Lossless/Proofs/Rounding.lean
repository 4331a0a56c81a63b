import Mathlib.Algebra.Order.Field.Power
import Mathlib.Tactic.FieldSimp
import Mathlib.Tactic.LinearCombination
import Mathlib.Tactic.NormNum
import Mathlib.Tactic.Positivity
import Mathlib.Tactic.Qify
import Lossless.Number.Binary
import Lossless.Proofs.Scales

/-!
# Correct rounding

The finite patterns of a binary format, read as an exponent and the places of a significand, are a
scale of rational numbers (`BinaryFormat.value`). Counted in quanta they are naturals, and there the
rounding division is compared with the midpoints of the scale (`BinaryFormat.around_place`). So a
fraction with a sign gets a pattern exactly if it is below the limit of the format
(`BinaryFormat.isSome_signedBits?`), and then the only one to which it is rounded
(`BinaryFormat.rounds_iff_of_signedBits?`).
-/

namespace Lossless

/-! ## Patterns and the numbers they stand for -/

namespace BinaryFormat

/-- The significand and the exponent have at least two bits each. -/
structure WellFormed (f : BinaryFormat) : Prop where
  two_le_precision : 2 ≤ f.precision
  two_le_exponentBits : 2 ≤ f.exponentBits

theorem wellFormed_binary32 : binary32.WellFormed := ⟨by decide, by decide⟩

theorem wellFormed_binary64 : binary64.WellFormed := ⟨by decide, by decide⟩

/-- What the exponent field of a pattern is too large by. -/
def bias (f : BinaryFormat) : ℤ := 2 ^ (f.exponentBits - 1) - 1

/-- The number that a pattern without a sign stands for. Its low bits are the places of a
significand with a one in front of them, and its high bits the exponent. If the exponent field is
zero, there is no one in front and the exponent is that of field one. -/
def value (f : BinaryFormat) (bits : ℕ) : ℚ :=
  let field := bits / 2 ^ (f.precision - 1)
  let places : ℚ := (bits % 2 ^ (f.precision - 1) : ℕ) / 2 ^ (f.precision - 1)
  if field = 0 then places * 2 ^ (1 - f.bias) else (1 + places) * 2 ^ (field - f.bias)

/-- The number that a pattern stands for, counted in quanta. -/
def quanta (f : BinaryFormat) (bits : ℕ) : ℕ :=
  let field := bits / 2 ^ (f.precision - 1)
  let places := bits % 2 ^ (f.precision - 1)
  if field = 0 then places else (2 ^ (f.precision - 1) + places) * 2 ^ (field - 1)

section Quanta

variable {f : BinaryFormat}

theorem WellFormed.two_pow_precision (hf : f.WellFormed) :
    2 ^ f.precision = 2 * 2 ^ (f.precision - 1) := by
  rw [← Nat.pow_succ']
  congr 1
  have hp := hf.two_le_precision
  omega

theorem WellFormed.even_step (hf : f.WellFormed) : 2 ^ (f.precision - 1) % 2 = 0 := by
  have hp := hf.two_le_precision
  obtain ⟨m, hm⟩ : ∃ m, f.precision - 1 = m + 1 := ⟨f.precision - 2, by omega⟩
  rw [hm, Nat.pow_succ]
  omega

/-- A significand that is shifted to the left by some places, also one that has just become too
long, has a pattern. -/
theorem quanta_place (hf : f.WellFormed) {k n : ℕ} (hn : n ≤ 2 ^ f.precision)
    (hk : k = 0 ∨ 2 ^ (f.precision - 1) ≤ n) :
    f.quanta (k * 2 ^ (f.precision - 1) + n) = n * 2 ^ k := by
  rw [hf.two_pow_precision] at hn
  have hpos : 0 < 2 ^ (f.precision - 1) := Nat.two_pow_pos _
  simp only [quanta]
  generalize 2 ^ (f.precision - 1) = step at hn hk hpos ⊢
  rcases Nat.lt_or_ge n step with hsmall | hlarge
  · -- Below the first exponent the pattern is the number itself.
    obtain rfl : k = 0 := by omega
    rw [Nat.zero_mul, Nat.zero_add, Nat.div_eq_of_lt hsmall, Nat.mod_eq_of_lt hsmall, if_pos rfl,
      Nat.pow_zero, Nat.mul_one]
  · obtain ⟨m, rfl⟩ := Nat.exists_eq_add_of_le hlarge
    rcases Nat.lt_or_ge m step with hm | hm
    · have hsplit : k * step + (step + m) = m + step * (k + 1) := by ring
      rw [hsplit, Nat.add_mul_div_left _ _ hpos, Nat.add_mul_mod_self_left,
        Nat.div_eq_of_lt hm, Nat.mod_eq_of_lt hm, Nat.zero_add, if_neg (Nat.succ_ne_zero k),
        Nat.add_sub_cancel]
    · -- The carry into the exponent leaves no places.
      obtain rfl : m = step := by omega
      have hsplit : k * m + (m + m) = 0 + m * (k + 2) := by ring
      rw [hsplit, Nat.add_mul_div_left _ _ hpos, Nat.add_mul_mod_self_left, Nat.zero_div,
        Nat.zero_mod, Nat.zero_add, if_neg (Nat.succ_ne_zero _), Nat.add_zero,
        show k + 2 - 1 = k + 1 by omega, Nat.pow_succ]
      ring

/-- Every pattern is that of a significand which is not too long. -/
theorem exists_place (hf : f.WellFormed) (bits : ℕ) :
    ∃ k n, bits = k * 2 ^ (f.precision - 1) + n ∧ n < 2 ^ f.precision ∧
      (k = 0 ∨ 2 ^ (f.precision - 1) ≤ n) := by
  rw [hf.two_pow_precision]
  have hpos : 0 < 2 ^ (f.precision - 1) := Nat.two_pow_pos _
  generalize 2 ^ (f.precision - 1) = step at hpos ⊢
  have hdiv := Nat.div_add_mod bits step
  have hmod := Nat.mod_lt bits hpos
  rcases Nat.eq_zero_or_pos (bits / step) with hzero | hfield
  · exact ⟨0, bits % step, by rw [hzero] at hdiv; omega, by omega, Or.inl rfl⟩
  · obtain ⟨k, hk⟩ : ∃ k, bits / step = k + 1 := ⟨bits / step - 1, by omega⟩
    refine ⟨k, step + bits % step, ?_, by omega, Or.inr (by omega)⟩
    rw [hk, Nat.mul_succ, Nat.mul_comm] at hdiv
    omega

theorem quanta_strictMono (hf : f.WellFormed) : StrictMono f.quanta := by
  apply strictMono_nat_of_lt_succ
  intro bits
  obtain ⟨k, n, rfl, hn, hk⟩ := exists_place hf bits
  rw [quanta_place hf hn.le hk, Nat.add_assoc, quanta_place hf hn (by omega)]
  exact Nat.mul_lt_mul_of_pos_right (Nat.lt_succ_self n) (Nat.two_pow_pos k)

/-- The range of the exponent, less the two fields for zero and infinity. -/
theorem WellFormed.exists_exponent (hf : f.WellFormed) :
    ∃ e, 2 ^ (f.exponentBits - 1) = e + 2 := by
  have hw := hf.two_le_exponentBits
  have hle : 2 ^ 1 ≤ 2 ^ (f.exponentBits - 1) := Nat.pow_le_pow_right (by decide) (by omega)
  exact ⟨2 ^ (f.exponentBits - 1) - 2, by omega⟩

theorem WellFormed.quantumPlaces_eq (hf : f.WellFormed) {e : ℕ}
    (he : 2 ^ (f.exponentBits - 1) = e + 2) : f.quantumPlaces = f.precision - 1 + e := by
  have hp := hf.two_le_precision
  simp only [quantumPlaces, Nat.pow_eq, he]
  omega

/-- A pattern stands for a multiple of the quantum. -/
theorem value_eq (hf : f.WellFormed) (bits : ℕ) :
    f.value bits = f.quanta bits / 2 ^ f.quantumPlaces := by
  obtain ⟨e, he⟩ := hf.exists_exponent
  -- The exponents of the standard, and those of the quantum without its places.
  have hshift : ∀ j : ℕ, (2 : ℚ) ^ ((j + 1 : ℕ) - f.bias) = 2 ^ j / 2 ^ e := by
    intro j
    have hexp : ((j + 1 : ℕ) : ℤ) - f.bias = (j : ℤ) - (e : ℤ) := by
      have hcast : (2 : ℤ) ^ (f.exponentBits - 1) = e + 2 := by exact_mod_cast he
      simp only [bias, hcast]
      omega
    rw [hexp, zpow_sub₀ two_ne_zero, zpow_natCast, zpow_natCast]
  have hstep : (2 : ℚ) ^ (f.precision - 1) ≠ 0 := pow_ne_zero _ two_ne_zero
  rw [hf.quantumPlaces_eq he, pow_add]
  simp only [value, quanta]
  by_cases hfield : bits / 2 ^ (f.precision - 1) = 0
  · rw [if_pos hfield, if_pos hfield]
    have hone := hshift 0
    rw [Nat.zero_add, Nat.cast_one, pow_zero] at hone
    rw [hone]
    field_simp
  · obtain ⟨j, hj⟩ := Nat.exists_eq_succ_of_ne_zero hfield
    rw [if_neg hfield, if_neg hfield, hj, Nat.succ_eq_add_one, hshift j, Nat.add_sub_cancel]
    push_cast
    field_simp

theorem value_strictMono (hf : f.WellFormed) : StrictMono f.value := by
  intro b c hbc
  rw [value_eq hf, value_eq hf]
  apply div_lt_div_of_pos_right _ (by positivity)
  exact_mod_cast quanta_strictMono hf hbc

end Quanta

/-! ## The rounding division -/

/-- A quotient is rounded to at most half of the divisor, and by exactly half only to an even
number. -/
theorem roundDiv_spec (num : ℕ) {den : ℕ} (hden : 0 < den) :
    2 * roundDiv num den * den ≤ 2 * num + den ∧
      2 * num ≤ 2 * roundDiv num den * den + den ∧
      (2 * roundDiv num den * den = 2 * num + den ∨
        2 * num = 2 * roundDiv num den * den + den → roundDiv num den % 2 = 0) := by
  have hmod := Nat.mod_lt num hden
  have hdiv := Nat.div_add_mod num den
  rw [Nat.mul_comm] at hdiv
  have hsame : 2 * (num / den) * den = 2 * (num / den * den) := Nat.mul_assoc ..
  have hnext : 2 * (num / den + 1) * den = 2 * (num / den * den) + 2 * den := by ring
  simp only [roundDiv]
  split
  · rw [hsame]
    omega
  · split
    · rw [hnext]
      omega
    · -- A remainder of exactly half goes to the even neighbour.
      rcases Nat.mod_two_eq_zero_or_one (num / den) with heven | hodd
      · rw [heven, Nat.add_zero, hsame]
        omega
      · rw [hodd, hnext]
        omega

section Algorithm

variable {f : BinaryFormat} {num den : ℕ}

/-- So many places are dropped that the quotient fits the precision, and no more. -/
theorem dropped_spec (hf : f.WellFormed) (num : ℕ) (hden : 0 < den) :
    num * 2 ^ f.quantumPlaces < 2 ^ f.precision * (den * 2 ^ f.dropped num den) ∧
      (f.dropped num den = 0 ∨
        2 ^ (f.precision - 1) * (den * 2 ^ f.dropped num den) ≤ num * 2 ^ f.quantumPlaces) := by
  -- Both bounds speak of the quotient of the significand, which is cut to its highest bits.
  have hregroup : ∀ a k : ℕ, 2 ^ a * (den * 2 ^ k) = 2 ^ (a + k) * den := by
    intro a k
    rw [Nat.pow_add]
    ring
  rw [hregroup, hregroup, ← Nat.div_lt_iff_lt_mul hden, ← Nat.le_div_iff_mul_le hden]
  simp only [dropped, Nat.pow_eq]
  generalize num * 2 ^ f.quantumPlaces / den = quotient
  split
  · rename_i hsmall
    exact ⟨hsmall, Or.inl rfl⟩
  · rename_i hlarge
    have hp := hf.two_le_precision
    have hne : quotient ≠ 0 := by
      rintro rfl
      exact hlarge (Nat.two_pow_pos _)
    have hlog : f.precision ≤ quotient.log2 := (Nat.le_log2 hne).2 (Nat.not_lt.1 hlarge)
    constructor
    · rw [show f.precision + (quotient.log2 + 1 - f.precision) = quotient.log2 + 1 by omega]
      exact Nat.lt_log2_self
    · right
      rw [show f.precision - 1 + (quotient.log2 + 1 - f.precision) = quotient.log2 by omega]
      exact Nat.log2_self_le hne

/-- The pattern that is computed for a fraction, before it is compared with infinity. -/
def roundedBits (f : BinaryFormat) (num den : ℕ) : ℕ :=
  f.dropped num den * 2 ^ (f.precision - 1) +
    roundDiv (num * 2 ^ f.quantumPlaces) (den * 2 ^ f.dropped num den)

theorem nearestBits?_eq (f : BinaryFormat) (num den : ℕ) :
    f.nearestBits? num den =
      if f.roundedBits num den < f.infinityBits then some (f.roundedBits num den) else none := rfl

/-- Half way between a significand and the next one, if neither is too short or too long. -/
theorem midpoint_quanta (hf : f.WellFormed) {k n : ℕ} (hn : n < 2 ^ f.precision)
    (hk : k = 0 ∨ 2 ^ (f.precision - 1) ≤ n) :
    midpoint (fun b => f.quanta b) (k * 2 ^ (f.precision - 1) + n) = (2 * n + 1) * 2 ^ k / 2 := by
  rw [midpoint, Nat.add_assoc, quanta_place hf hn.le hk, quanta_place hf hn (by omega)]
  push_cast
  ring

/-- The next pattern belongs to the next significand, unless this one has just become too long. -/
theorem lt_midpoint_or_eq (hf : f.WellFormed) {k n : ℕ} {u : ℚ} (hn : n ≤ 2 ^ f.precision)
    (hk : k = 0 ∨ 2 ^ (f.precision - 1) ≤ n) (hfits : u < 2 ^ f.precision * 2 ^ k) :
    u < midpoint (fun b => f.quanta b) (k * 2 ^ (f.precision - 1) + n) ∨
      midpoint (fun b => f.quanta b) (k * 2 ^ (f.precision - 1) + n) =
        (2 * n + 1) * 2 ^ k / 2 := by
  rcases Nat.lt_or_ge n (2 ^ f.precision) with hlt | hge
  · exact Or.inr (midpoint_quanta hf hlt hk)
  · left
    obtain rfl : n = 2 ^ f.precision := le_antisymm hn hge
    have hthis : (f.quanta (k * 2 ^ (f.precision - 1) + 2 ^ f.precision) : ℚ) =
        2 ^ f.precision * 2 ^ k := by
      exact_mod_cast quanta_place hf hn hk
    have hnext : (f.quanta (k * 2 ^ (f.precision - 1) + 2 ^ f.precision) : ℚ) <
        f.quanta (k * 2 ^ (f.precision - 1) + 2 ^ f.precision + 1) := by
      exact_mod_cast quanta_strictMono hf (Nat.lt_succ_self _)
    rw [midpoint]
    linarith

/-- The pattern in front belongs to the significand in front, unless that one is too short. -/
theorem midpoint_lt_or_eq (hf : f.WellFormed) {k n c : ℕ} {u : ℚ} (hn : n ≤ 2 ^ f.precision)
    (hk : k = 0 ∨ 2 ^ (f.precision - 1) ≤ n) (hfull : k = 0 ∨ 2 ^ (f.precision - 1) * 2 ^ k ≤ u)
    (hc : c + 1 = k * 2 ^ (f.precision - 1) + n) :
    midpoint (fun b => f.quanta b) c < u ∨
      midpoint (fun b => f.quanta b) c = (2 * n - 1) * 2 ^ k / 2 := by
  -- The shortest significand of its range is no more than the number, so the midpoint in front of
  -- it is less.
  by_cases hshort : k ≠ 0 ∧ n = 2 ^ (f.precision - 1)
  · left
    have hthis : (f.quanta (c + 1) : ℚ) = 2 ^ (f.precision - 1) * 2 ^ k := by
      rw [hc, quanta_place hf hn hk, hshort.2]
      push_cast
      rfl
    have hprev : (f.quanta c : ℚ) < f.quanta (c + 1) := by
      exact_mod_cast quanta_strictMono hf (Nat.lt_succ_self c)
    have hu := hfull.resolve_left hshort.1
    rw [midpoint]
    linarith
  · right
    -- Otherwise both patterns drop the same places.
    have hpos : n ≠ 0 := by
      rintro rfl
      have hstep : 0 < 2 ^ (f.precision - 1) := Nat.two_pow_pos _
      obtain rfl : k = 0 := by omega
      omega
    obtain ⟨m, rfl⟩ := Nat.exists_eq_succ_of_ne_zero hpos
    obtain rfl : c = k * 2 ^ (f.precision - 1) + m := by omega
    rw [midpoint_quanta hf (by omega) (by omega)]
    push_cast
    ring

/-- A number lies around the pattern of a significand if it differs from it by at most half of the
last place, as long as it is in the range of the significands with so many places dropped. -/
theorem around_place (hf : f.WellFormed) {k n : ℕ} {u : ℚ} (hn : n ≤ 2 ^ f.precision)
    (hk : k = 0 ∨ 2 ^ (f.precision - 1) ≤ n) (habove : 2 * u ≤ (2 * n + 1) * 2 ^ k)
    (hbelow : (2 * n - 1) * 2 ^ k ≤ 2 * u)
    (heven : 2 * u = (2 * n + 1) * 2 ^ k ∨ (2 * n - 1) * 2 ^ k = 2 * u → n % 2 = 0)
    (hfits : u < 2 ^ f.precision * 2 ^ k) (hfull : k = 0 ∨ 2 ^ (f.precision - 1) * 2 ^ k ≤ u) :
    Around (fun b => f.quanta b) u (k * 2 ^ (f.precision - 1) + n) := by
  -- The significand and the pattern are even together, because the step between ranges is even.
  have hparity : n % 2 = 0 → (k * 2 ^ (f.precision - 1) + n) % 2 = 0 := by
    intro hzero
    rw [Nat.add_mod, Nat.mul_mod, hf.even_step, hzero]
    simp
  have hup := lt_midpoint_or_eq hf hn hk hfits
  constructor
  · rcases hup with hlt | heq
    · exact hlt.le
    · rw [heq]
      linarith
  · intro htie
    rcases hup with hlt | heq
    · exact absurd htie hlt.ne
    · exact hparity (heven (Or.inl (by rw [htie, heq]; ring)))
  · intro c hc
    rcases midpoint_lt_or_eq hf hn hk hfull hc with hlt | heq
    · exact hlt.le
    · rw [heq]
      linarith
  · intro c hc htie
    rcases midpoint_lt_or_eq hf hn hk hfull hc with hlt | heq
    · exact absurd htie hlt.ne'
    · exact hparity (heven (Or.inr (by rw [htie, heq]; ring)))

/-- The fraction lies around the pattern that is computed for it, both counted in quanta. -/
theorem around_quanta (hf : f.WellFormed) (num : ℕ) (hden : 0 < den) :
    Around (fun b => f.quanta b) (num * 2 ^ f.quantumPlaces / den) (f.roundedBits num den) := by
  obtain ⟨hfits, hfull⟩ := dropped_spec hf num hden
  obtain ⟨hbelow, habove, heven⟩ := roundDiv_spec (num * 2 ^ f.quantumPlaces)
    (Nat.mul_pos hden (Nat.two_pow_pos (f.dropped num den)))
  simp only [roundedBits]
  generalize f.dropped num den = k at hfits hfull hbelow habove heven ⊢
  generalize hquotient : roundDiv (num * 2 ^ f.quantumPlaces) (den * 2 ^ k) = n
  rw [hquotient] at hbelow habove heven
  have hlong : n ≤ 2 ^ f.precision := by
    have hlt : 2 * n * (den * 2 ^ k) < (2 * 2 ^ f.precision + 1) * (den * 2 ^ k) := by linarith
    have hlt' := Nat.lt_of_mul_lt_mul_right hlt
    omega
  have hshort : k = 0 ∨ 2 ^ (f.precision - 1) ≤ n := by
    rcases hfull with hzero | hfull
    · exact Or.inl hzero
    · right
      have hle : 2 * 2 ^ (f.precision - 1) * (den * 2 ^ k) ≤ (2 * n + 1) * (den * 2 ^ k) := by
        linarith
      have hle' := Nat.le_of_mul_le_mul_right hle (Nat.mul_pos hden (Nat.two_pow_pos k))
      omega
  -- The same bounds, divided by the denominator.
  have hdenQ : (0 : ℚ) < den := by exact_mod_cast hden
  have hcancel : (num * 2 ^ f.quantumPlaces / den : ℚ) * den = num * 2 ^ f.quantumPlaces :=
    div_mul_cancel₀ _ hdenQ.ne'
  generalize (num * 2 ^ f.quantumPlaces / den : ℚ) = u at hcancel ⊢
  qify at hbelow habove hfits
  rw [← hcancel] at hbelow habove hfits
  apply around_place hf hlong hshort
  · apply le_of_mul_le_mul_right _ hdenQ
    linarith
  · apply le_of_mul_le_mul_right _ hdenQ
    linarith
  · intro htie
    apply heven
    qify
    rw [← hcancel]
    rcases htie with htie | htie
    · right
      linear_combination (den : ℚ) * htie
    · left
      linear_combination (den : ℚ) * htie
  · apply lt_of_mul_lt_mul_right _ hdenQ.le
    linarith
  · rcases hfull with hzero | hfull
    · exact Or.inl hzero
    · right
      qify at hfull
      rw [← hcancel] at hfull
      apply le_of_mul_le_mul_right _ hdenQ
      linarith

/-! ## The limit of a format -/

/-- The number from which on all numbers are rounded to infinity: half of the last place above the
largest finite number. -/
def limit (f : BinaryFormat) : ℚ :=
  2 ^ 2 ^ (f.exponentBits - 1) - 2 ^ ((2 : ℤ) ^ (f.exponentBits - 1) - f.precision - 1)

/-- Single precision overflows half a last place above its largest number. -/
theorem limit_binary32 : binary32.limit = 2 ^ 128 - 2 ^ 103 := by
  have hexp : (2 : ℤ) ^ (8 - 1) - (24 : ℕ) - 1 = (103 : ℕ) := by norm_num
  simp only [limit, binary32, hexp, zpow_natCast]
  norm_num

/-- Double precision overflows half a last place above its largest number. -/
theorem limit_binary64 : binary64.limit = 2 ^ 1024 - 2 ^ 970 := by
  have hexp : (2 : ℤ) ^ (11 - 1) - (53 : ℕ) - 1 = (970 : ℕ) := by norm_num
  simp only [limit, binary64, hexp, zpow_natCast]
  norm_num

theorem limit_binary32_lt : binary32.limit < binary64.limit := by
  rw [limit_binary32, limit_binary64]
  calc (2 ^ 128 - 2 ^ 103 : ℚ) < 2 ^ 128 := sub_lt_self _ (by positivity)
    _ ≤ 2 ^ 1023 := pow_le_pow_right₀ one_le_two (by decide)
    _ = 2 ^ 1024 - 2 ^ 1023 := by rw [pow_succ' 2 1023, two_mul, add_sub_cancel_right]
    _ ≤ 2 ^ 1024 - 2 ^ 970 := sub_le_sub_left (pow_le_pow_right₀ one_le_two (by decide)) _

/-- The pattern of infinity is even, and the limit is the midpoint in front of it. -/
theorem exists_last (hf : f.WellFormed) :
    ∃ last, last + 1 = f.infinityBits ∧ last % 2 = 1 ∧ midpoint f.value last = f.limit := by
  obtain ⟨e, he⟩ := hf.exists_exponent
  have hw := hf.two_le_exponentBits
  have hpos : 0 < 2 ^ f.precision := Nat.two_pow_pos _
  -- Infinity stands behind the last pattern of the highest range.
  have hinfinity : f.infinityBits = (2 * e + 1) * 2 ^ (f.precision - 1) + 2 ^ f.precision := by
    have hfull : 2 ^ f.exponentBits = 2 * (e + 2) := by
      rw [← he, ← Nat.pow_succ']
      congr 1
      omega
    rw [hf.two_pow_precision]
    simp only [infinityBits, Nat.pow_eq, hfull]
    rw [show 2 * (e + 2) - 1 = 2 * e + 1 + 2 by omega]
    ring
  refine ⟨(2 * e + 1) * 2 ^ (f.precision - 1) + (2 ^ f.precision - 1), ?_, ?_, ?_⟩
  · rw [hinfinity]
    omega
  · have hprecision := hf.two_pow_precision
    rw [Nat.add_mod, Nat.mul_mod, hf.even_step]
    omega
  · have hhalf : (2 : ℚ) ^ f.precision = 2 * 2 ^ (f.precision - 1) := by
      exact_mod_cast hf.two_pow_precision
    -- The limit is written with the exponent of the format, and the midpoint with the quantum.
    have hcut : (2 : ℚ) ^ ((2 : ℤ) ^ (f.exponentBits - 1) - f.precision - 1) =
        2 ^ e / 2 ^ (f.precision - 1) := by
      have hexp : (2 : ℤ) ^ (f.exponentBits - 1) - f.precision - 1 =
          (e : ℤ) - (f.precision - 1 : ℕ) := by
        have hcast : (2 : ℤ) ^ (f.exponentBits - 1) = e + 2 := by exact_mod_cast he
        have hp := hf.two_le_precision
        omega
      rw [hexp, zpow_sub₀ two_ne_zero, zpow_natCast, zpow_natCast]
    have hlong := hf.two_pow_precision
    rw [midpoint, value_eq hf, value_eq hf, Nat.add_assoc, Nat.sub_add_cancel hpos,
      quanta_place hf (by omega) (by omega), quanta_place hf le_rfl (by omega),
      hf.quantumPlaces_eq he, limit, hcut, he]
    push_cast [Nat.one_le_two_pow]
    rw [hhalf]
    field_simp
    ring

/-- The fraction lies around the pattern that is computed for it. -/
theorem around_value (hf : f.WellFormed) (hden : 0 < den) :
    Around f.value (num / den) (f.roundedBits num den) := by
  have hquanta := (around_quanta hf num hden).div (q := 2 ^ f.quantumPlaces)
    (by positivity)
  have hscale : (fun b => (f.quanta b : ℚ) / 2 ^ f.quantumPlaces) = f.value :=
    funext fun b => (value_eq hf b).symm
  rw [hscale, div_right_comm, mul_div_cancel_right₀ _ (by positivity)] at hquanta
  exact hquanta

/-- Rounding stays finite below the limit, and only there. -/
theorem roundedBits_lt_iff (hf : f.WellFormed) (hden : 0 < den) :
    f.roundedBits num den < f.infinityBits ↔ (num / den : ℚ) < f.limit := by
  obtain ⟨last, hlast, hodd, hlimit⟩ := exists_last hf
  rw [← hlast, ← hlimit]
  exact (around_value hf hden).lt_iff (value_strictMono hf) hodd

/-- A fraction below the limit gets a pattern, and no other does. -/
theorem isSome_nearestBits? (hf : f.WellFormed) (hden : 0 < den) :
    (f.nearestBits? num den).isSome = true ↔ (num / den : ℚ) < f.limit := by
  rw [← roundedBits_lt_iff hf hden, nearestBits?_eq]
  split <;> simp_all

/-- The pattern that a fraction gets is the one to which it is rounded. -/
theorem nearestEven_of_nearestBits? (hf : f.WellFormed) (hden : 0 < den) {b : ℕ}
    (h : f.nearestBits? num den = some b) :
    NearestEven f.value f.infinityBits (num / den) b := by
  rw [nearestBits?_eq] at h
  split at h
  · rename_i hfinite
    cases h
    exact (around_value hf hden).nearestEven (value_strictMono hf) hfinite
  · cases h

end Algorithm

/-! ## Signs -/

/-- A number with a sign in front of it. -/
def withSign (negative : Bool) (r : ℚ) : ℚ := if negative then -r else r

/-- A pattern with the bit of a sign. -/
def signed (f : BinaryFormat) (negative : Bool) (b : ℕ) : ℕ := if negative then f.signBit + b else b

/-- The number that a pattern stands for. -/
def number (f : BinaryFormat) (bits : ℕ) : ℚ :=
  if bits < f.signBit then f.value bits else -f.value (bits - f.signBit)

/-- A pattern of the format that stands for a finite number. -/
def IsFinite (f : BinaryFormat) (bits : ℕ) : Prop :=
  bits < 2 * f.signBit ∧ f.magnitude bits < f.infinityBits

/-- A number is rounded to a pattern with the given sign: no finite pattern stands for a number that
is nearer, and if one stands for another number that is equally near, this one is even. -/
structure Rounds (f : BinaryFormat) (negative : Bool) (q : ℚ) (bits : ℕ) : Prop where
  finite : f.IsFinite bits
  sign : f.signBit ≤ bits ↔ negative = true
  nearest : ∀ other, f.IsFinite other → |q - f.number bits| ≤ |q - f.number other|
  even : ∀ other, f.IsFinite other → f.number other ≠ f.number bits →
    |q - f.number other| = |q - f.number bits| → bits % 2 = 0

section Signs

variable {f : BinaryFormat} {negative : Bool} {b c bits num den : ℕ} {r v : ℚ}

/-- A common sign leaves the distance of two numbers as it is. -/
theorem abs_withSign_sub (negative : Bool) (r v : ℚ) :
    |withSign negative r - withSign negative v| = |r - v| := by
  cases negative with
  | false => rfl
  | true =>
    simp only [withSign, if_true]
    rw [← abs_neg]
    congr 1
    ring

/-- Numbers of opposite signs are as far apart as their magnitudes add up to. -/
theorem abs_withSign_sub_not (hr : 0 ≤ r) (hv : 0 ≤ v) :
    |withSign negative r - withSign (!negative) v| = r + v := by
  cases negative with
  | false =>
    simp only [withSign, Bool.not_false, if_true, Bool.false_eq_true, if_false]
    rw [sub_neg_eq_add, abs_of_nonneg (by linarith)]
  | true =>
    simp only [withSign, Bool.not_true, if_true, Bool.false_eq_true, if_false]
    rw [abs_of_nonpos (by linarith)]
    ring

theorem value_nonneg (hf : f.WellFormed) (b : ℕ) : 0 ≤ f.value b := by
  rw [value_eq hf]
  positivity

theorem value_zero (hf : f.WellFormed) : f.value 0 = 0 := by
  rw [value_eq hf]
  simp [quanta]

/-- The pattern of infinity has the sign bit clear. -/
theorem infinityBits_lt_signBit (hf : f.WellFormed) : f.infinityBits < f.signBit := by
  have hp := hf.two_le_precision
  have hsign : f.signBit = 2 ^ f.exponentBits * 2 ^ (f.precision - 1) := by
    rw [signBit, Nat.pow_eq, ← Nat.pow_add]
    congr 1
    omega
  rw [hsign, infinityBits, Nat.pow_eq, Nat.pow_eq]
  apply Nat.mul_lt_mul_of_pos_right _ (Nat.two_pow_pos _)
  have hpos : 0 < 2 ^ f.exponentBits := Nat.two_pow_pos _
  omega

theorem infinityBits_pos (hf : f.WellFormed) : 0 < f.infinityBits := by
  obtain ⟨last, hlast, -⟩ := exists_last hf
  omega

/-- The sign bit leaves the last bit as it is, so a pattern keeps its parity. -/
theorem signed_mod_two (hf : f.WellFormed) (negative : Bool) (b : ℕ) :
    f.signed negative b % 2 = b % 2 := by
  have hp := hf.two_le_precision
  have heven : f.signBit % 2 = 0 := by
    obtain ⟨m, hm⟩ : ∃ m, f.exponentBits + f.precision - 1 = m + 1 :=
      ⟨f.exponentBits + f.precision - 2, by omega⟩
    rw [signBit, Nat.pow_eq, hm, Nat.pow_succ]
    omega
  cases negative with
  | false => rfl
  | true =>
    simp only [signed, if_true]
    omega

/-- A pattern with its sign bit stands for the signed value of its magnitude. -/
theorem number_signed (hf : f.WellFormed) (negative : Bool) (hb : b < f.infinityBits) :
    f.number (f.signed negative b) = withSign negative (f.value b) := by
  have hlt := infinityBits_lt_signBit hf
  cases negative with
  | false =>
    simp only [signed, number, withSign, Bool.false_eq_true, if_false]
    exact if_pos (by omega)
  | true =>
    simp only [signed, number, withSign, if_true]
    rw [if_neg (by omega), Nat.add_sub_cancel_left]

/-- A finite pattern has the sign bit set exactly when the number is negative. -/
theorem signBit_le_signed (hf : f.WellFormed) (hb : b < f.infinityBits) :
    f.signBit ≤ f.signed negative b ↔ negative = true := by
  have hlt := infinityBits_lt_signBit hf
  cases negative with
  | false =>
    simp only [signed, Bool.false_eq_true, if_false, iff_false]
    omega
  | true =>
    simp only [signed, if_true, iff_true]
    omega

/-- A finite pattern is one below that of infinity, with a sign. -/
theorem isFinite_iff (hf : f.WellFormed) :
    f.IsFinite bits ↔ ∃ negative, ∃ b < f.infinityBits, bits = f.signed negative b := by
  have hlt := infinityBits_lt_signBit hf
  constructor
  · rintro ⟨hbits, hmagnitude⟩
    -- The sign bit is the highest one, so the magnitude is what remains below it.
    rcases Nat.lt_or_ge bits f.signBit with hplus | hminus
    · rw [magnitude, Nat.mod_eq_of_lt hplus] at hmagnitude
      exact ⟨false, bits, hmagnitude, rfl⟩
    · rw [magnitude, Nat.mod_eq_sub_mod hminus, Nat.mod_eq_of_lt (by omega)] at hmagnitude
      refine ⟨true, bits - f.signBit, hmagnitude, ?_⟩
      simp only [signed, if_true]
      omega
  · rintro ⟨negative, b, hb, rfl⟩
    cases negative with
    | false =>
      simp only [signed, Bool.false_eq_true, if_false]
      refine ⟨by omega, ?_⟩
      rw [magnitude, Nat.mod_eq_of_lt (by omega)]
      exact hb
    | true =>
      simp only [signed, if_true]
      refine ⟨by omega, ?_⟩
      rw [magnitude, Nat.add_mod_left, Nat.mod_eq_of_lt (by omega)]
      exact hb

/-- With the same sign, a number is as far from a pattern as without. -/
theorem abs_sub_number_signed (hf : f.WellFormed) (negative : Bool) (r : ℚ)
    (hc : c < f.infinityBits) :
    |withSign negative r - f.number (f.signed negative c)| = |r - f.value c| := by
  rw [number_signed hf negative hc, abs_withSign_sub]

/-- From a pattern with the other sign it is at the distance of the sum. -/
theorem abs_sub_number_signed_not (hf : f.WellFormed) (negative : Bool) (hr : 0 ≤ r)
    (hc : c < f.infinityBits) :
    |withSign negative r - f.number (f.signed (!negative) c)| = r + f.value c ∧
      |r - f.value c| ≤ r + f.value c := by
  have hv := value_nonneg hf c
  rw [number_signed hf _ hc, abs_withSign_sub_not hr hv]
  exact ⟨rfl, abs_le.2 ⟨by linarith, by linarith⟩⟩

/-- What a number is rounded to is the pattern that it is rounded to without its sign. -/
theorem Rounds.exists_nearestEven (hf : f.WellFormed)
    (h : f.Rounds negative (withSign negative r) bits) :
    ∃ b, bits = f.signed negative b ∧ NearestEven f.value f.infinityBits r b := by
  obtain ⟨sign, b, hb, rfl⟩ := (isFinite_iff hf).1 h.finite
  -- The sign of the pattern is known, so patterns are compared by their magnitudes.
  obtain rfl : sign = negative :=
    Bool.eq_iff_iff.2 ((signBit_le_signed hf hb).symm.trans h.sign)
  have hfinite : ∀ c < f.infinityBits, f.IsFinite (f.signed sign c) :=
    fun c hc => (isFinite_iff hf).2 ⟨sign, c, hc, rfl⟩
  refine ⟨b, rfl, hb, ?_, ?_⟩
  · intro c hc
    rw [← abs_sub_number_signed hf sign r hb, ← abs_sub_number_signed hf sign r hc]
    exact h.nearest _ (hfinite c hc)
  · intro c hc hne heq
    rw [← signed_mod_two hf sign]
    apply h.even _ (hfinite c hc)
    · rw [number_signed hf sign hc, number_signed hf sign hb]
      -- Two magnitudes with one value are the same pattern.
      intro hsame
      apply hne
      apply (value_strictMono hf).injective
      cases sign with
      | false => exact hsame
      | true => exact neg_injective hsame
    · rw [abs_sub_number_signed hf sign r hb, abs_sub_number_signed hf sign r hc, heq]

/-- The pattern to which a number is rounded without its sign is the one to which it is rounded:
patterns with the other sign are farther away. -/
theorem rounds_of_nearestEven (hf : f.WellFormed) (hr : 0 ≤ r)
    (h : NearestEven f.value f.infinityBits r b) :
    f.Rounds negative (withSign negative r) (f.signed negative b) := by
  have hdist := abs_sub_number_signed hf negative r h.lt
  refine ⟨(isFinite_iff hf).2 ⟨negative, b, h.lt, rfl⟩, signBit_le_signed hf h.lt, ?_, ?_⟩
  · intro other hfinite
    obtain ⟨sign, c, hc, rfl⟩ := (isFinite_iff hf).1 hfinite
    rw [hdist]
    rcases Bool.eq_or_eq_not sign negative with rfl | rfl
    · rw [abs_sub_number_signed hf sign r hc]
      exact h.nearest c hc
    · obtain ⟨hsum, hle⟩ := abs_sub_number_signed_not hf negative hr hc
      rw [hsum]
      exact le_trans (h.nearest c hc) hle
  · intro other hfinite hne heq
    obtain ⟨sign, c, hc, rfl⟩ := (isFinite_iff hf).1 hfinite
    rw [hdist] at heq
    rw [signed_mod_two hf]
    rcases Bool.eq_or_eq_not sign negative with rfl | rfl
    · rw [abs_sub_number_signed hf sign r hc] at heq
      apply h.even c hc _ heq
      rintro rfl
      exact hne rfl
    · obtain ⟨hsum, hle⟩ := abs_sub_number_signed_not hf negative hr hc
      rw [hsum] at heq
      have htie : |r - f.value c| = |r - f.value b| :=
        le_antisymm (heq ▸ hle) (h.nearest c hc)
      by_cases hcb : c = b
      · -- The sum is not larger than the distance from zero, so both patterns stand for zero.
        subst hcb
        have hzero := h.nearest 0 (infinityBits_pos hf)
        rw [value_zero hf, sub_zero, abs_of_nonneg hr] at hzero
        have hv : f.value c = 0 := le_antisymm (by linarith) (value_nonneg hf c)
        apply absurd _ hne
        rw [number_signed hf _ hc, number_signed hf _ hc, hv]
        simp [withSign]
      · exact h.even c hc hcb htie

/-- A fraction with a sign gets a pattern exactly if it is below the limit. -/
theorem isSome_signedBits? (hf : f.WellFormed) (negative : Bool) (num : ℕ) (hden : 0 < den) :
    (f.signedBits? negative num den).isSome = true ↔ (num / den : ℚ) < f.limit := by
  rw [← isSome_nearestBits? hf hden, signedBits?, Option.isSome_map]

/-- The pattern that a fraction with a sign gets is the only one to which it is rounded. -/
theorem rounds_iff_of_signedBits? (hf : f.WellFormed) (hden : 0 < den)
    (h : f.signedBits? negative num den = some bits) (other : ℕ) :
    f.Rounds negative (withSign negative (num / den)) other ↔ other = bits := by
  obtain ⟨b, hb, rfl⟩ := Option.map_eq_some_iff.1 h
  have hnearest := nearestEven_of_nearestBits? hf hden hb
  constructor
  · intro hrounds
    obtain ⟨c, rfl, hc⟩ := hrounds.exists_nearestEven hf
    rw [hc.unique (value_strictMono hf) hnearest]
    rfl
  · rintro rfl
    exact rounds_of_nearestEven hf (by positivity) hnearest

end Signs

end BinaryFormat

end Lossless
