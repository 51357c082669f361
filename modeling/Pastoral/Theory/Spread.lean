import Mathlib.Data.Nat.Bitwise
import Mathlib.Data.Nat.Log

/-!
# Spreading bits downwards

`y ||| y >>> m` sets the bits `m` places below those of `y`. Repeated with `m = 1, 2, 4, …` it
rounds a number up to a power of two.

## Main results

* `Spread.eq_two_pow_sub_one`: it fills a number with ones below its highest bit
-/

namespace BitSpread

variable {m n x y : ℕ}

/-- Bit `i` of `y` is set where one of the bits `i`, …, `i + m - 1` of `x` is. -/
def Spread (m x y : ℕ) : Prop := ∀ i, y.testBit i ↔ ∃ j < m, x.testBit (i + j)

theorem Spread.self (x : ℕ) : Spread 1 x x := by
  intro i
  constructor
  · exact fun h => ⟨0, Nat.one_pos, h⟩
  · rintro ⟨j, hj, h⟩
    obtain rfl : j = 0 := by omega
    exact h

/-- **One step** covers twice as many places. -/
theorem Spread.double (h : Spread m x y) : Spread (m + m) x (y ||| y >>> m) := by
  intro i
  rw [Nat.testBit_or, Nat.testBit_shiftRight, Bool.or_eq_true, h i, h (m + i)]
  constructor
  · rintro (⟨j, hj, hbit⟩ | ⟨j, hj, hbit⟩)
    · exact ⟨j, by omega, hbit⟩
    · exact ⟨m + j, by omega, by rw [← add_assoc, add_comm i m]; exact hbit⟩
  · rintro ⟨j, hj, hbit⟩
    by_cases hlt : j < m
    · exact .inl ⟨j, hlt, hbit⟩
    · refine .inr ⟨j - m, by omega, ?_⟩
      rw [show m + i + (j - m) = i + j by omega]
      exact hbit

/-- **All ones below the highest bit**, once the steps cover the number. -/
theorem Spread.eq_two_pow_sub_one (h : Spread m x y) (hpos : x ≠ 0) (hlt : x < 2 ^ m) :
    y = 2 ^ (Nat.log2 x + 1) - 1 := by
  refine Nat.eq_of_testBit_eq fun i => ?_
  rw [Nat.testBit_two_pow_sub_one, Bool.eq_iff_iff, h i, decide_eq_true_eq]
  have hlog := (Nat.log2_lt hpos).mpr hlt
  constructor
  · rintro ⟨j, -, hbit⟩
    -- A bit above the highest one is not set.
    by_contra hle
    have hsmall : x < 2 ^ (i + j) :=
      lt_of_lt_of_le Nat.lt_log2_self (Nat.pow_le_pow_right (by decide) (by omega))
    rw [Nat.testBit_lt_two_pow hsmall] at hbit
    exact absurd hbit (by decide)
  · intro hle
    refine ⟨Nat.log2 x - i, by omega, ?_⟩
    rw [show i + (Nat.log2 x - i) = Nat.log2 x by omega]
    exact Nat.testBit_log2 hpos

theorem Spread.le (h : Spread m x y) (hm : 0 < m) : x ≤ y :=
  Nat.le_of_testBit fun i hi => (h i).mpr ⟨0, hm, hi⟩

theorem Spread.lt_two_pow (h : Spread m x y) (hx : x < 2 ^ n) : y < 2 ^ n := by
  refine Nat.lt_pow_two_of_testBit y fun i hi => ?_
  rw [Bool.eq_false_iff]
  intro hy
  obtain ⟨j, -, hbit⟩ := (h i).mp hy
  have hlarge : x < 2 ^ (i + j) :=
    lt_of_lt_of_le hx (Nat.pow_le_pow_right (by decide) (by omega))
  rw [Nat.testBit_lt_two_pow hlarge] at hbit
  exact absurd hbit (by decide)

/-- **All ones**: `m` consecutive places from anywhere on have a bit among them. -/
theorem Spread.eq_ones_iff (h : Spread m x y) (hx : x < 2 ^ n) :
    y = 2 ^ n - 1 ↔ ∀ i < n, ∃ j < m, x.testBit (i + j) := by
  constructor
  · rintro rfl i hi
    exact (h i).mp (by rw [Nat.testBit_two_pow_sub_one]; exact decide_eq_true hi)
  · intro hall
    refine Nat.eq_of_testBit_eq fun i => ?_
    rw [Nat.testBit_two_pow_sub_one, Bool.eq_iff_iff, decide_eq_true_eq]
    refine ⟨fun hy => ?_, fun hi => (h i).mpr (hall i hi)⟩
    by_contra hle
    have hlarge : y < 2 ^ i :=
      lt_of_lt_of_le (h.lt_two_pow hx) (Nat.pow_le_pow_right (by decide) (by omega))
    rw [Nat.testBit_lt_two_pow hlarge] at hy
    exact absurd hy (by decide)

end BitSpread
