import Mathlib.Data.BitVec
import Mathlib.Data.Finset.Range
import Mathlib.Data.List.Basic

/-!
# Bits of a byte array

Bit `b` of an array of bytes is bit `b % 8` of the byte `b / 8`.

## Main definitions

* `test`, `set`, `clear`: one bit; `setRun`, `clearRun?`: consecutive ones, unless one is outside
* `clearCount`: how many of the first bits are clear

## Main results

* `test_set`, `test_clear`, `test_setRun`, `test_clearRun?`: no other bit changes
-/

open BitVec List Option

namespace BitArray

/-- Bit `b`: `(a[b / 8] >> (b % 8)) & 1`. -/
def test (a : List (BitVec 8)) (b : ℕ) : Bool :=
  ((a.getD (b / 8) 0#8 >>> (b % 8)) &&& 1#8) != 0#8

/-- `a[b / 8] |= 1 << (b % 8)`. -/
def set (a : List (BitVec 8)) (b : ℕ) : List (BitVec 8) :=
  a.set (b / 8) (a.getD (b / 8) 0#8 ||| 1#8 <<< (b % 8))

/-- `a[b / 8] &= ~(1 << (b % 8))`. -/
def clear (a : List (BitVec 8)) (b : ℕ) : List (BitVec 8) :=
  a.set (b / 8) (a.getD (b / 8) 0#8 &&& ~~~(1#8 <<< (b % 8)))

/-- The bits `i`, …, `i + n - 1` set in this order. -/
def setRun (a : List (BitVec 8)) (i : ℕ) : ℕ → List (BitVec 8)
  | 0 => a
  | n + 1 => set (setRun a i n) (i + n)

/-- The `n` bits from `i` on cleared in this order, unless one of them is outside the array. -/
def clearRun? (a : List (BitVec 8)) : ℕ → ℕ → Option (List (BitVec 8))
  | 0, _ => some a
  | n + 1, i => if i < 8 * a.length then clearRun? (clear a i) n (i + 1) else none

variable {a a' : List (BitVec 8)} {b c i n : ℕ}

theorem test_eq_getLsbD (a : List (BitVec 8)) (b : ℕ) :
    test a b = (a.getD (b / 8) 0#8).getLsbD (b % 8) := by
  have hone : ∀ x : BitVec 8, ((x &&& 1#8) != 0#8) = x.getLsbD 0 := by decide
  rw [test, hone, getLsbD_ushiftRight, add_zero]

@[simp] theorem length_set (a : List (BitVec 8)) (b : ℕ) : (set a b).length = a.length :=
  List.length_set

@[simp] theorem length_clear (a : List (BitVec 8)) (b : ℕ) : (clear a b).length = a.length :=
  List.length_set

@[simp] theorem length_setRun (a : List (BitVec 8)) (i n : ℕ) :
    (setRun a i n).length = a.length := by
  induction n with
  | zero => rfl
  | succ n ih => simp [setRun, ih]

@[simp] theorem test_replicate_zero (n b : ℕ) : test (replicate n 0#8) b = false := by
  rw [test_eq_getLsbD, getD_eq_getElem?_getD, getElem?_replicate]
  split_ifs <;> simp

theorem lt_of_test (h : test a b = true) : b < 8 * a.length := by
  by_contra hge
  rw [test_eq_getLsbD, getD_eq_getElem?_getD, List.getElem?_eq_none (by omega)] at h
  simp at h

theorem test_of_ge (h : 8 * a.length ≤ b) : test a b = false := by
  by_contra hset
  have hlt := lt_of_test (Bool.of_not_eq_false hset)
  omega

theorem test_append (a a' : List (BitVec 8)) (b : ℕ) :
    test (a ++ a') b = if b < 8 * a.length then test a b else test a' (b - 8 * a.length) := by
  simp only [test_eq_getLsbD, getD_eq_getElem?_getD]
  split_ifs with hb
  · rw [getElem?_append_left (by omega)]
  · have hdiv : b / 8 - a.length = (b - 8 * a.length) / 8 := by omega
    have hmod : b % 8 = (b - 8 * a.length) % 8 := by omega
    rw [getElem?_append_right (by omega), hdiv, hmod]

theorem eq_iff_mod_eq (h : b / 8 = c / 8) : b % 8 = c % 8 ↔ b = c := by omega

theorem test_set (hb : b < 8 * a.length) : test (set a b) c = (decide (c = b) || test a c) := by
  simp only [test_eq_getLsbD, set, getD_eq_getElem?_getD, getElem?_set]
  by_cases h : b / 8 = c / 8
  · have hmod := eq_iff_mod_eq h
    rw [if_pos h, if_pos (by omega)]
    simp only [h]
    by_cases hbc : c = b
    · simp [hbc, Nat.mod_lt]
    · by_cases hlt' : c % 8 < b % 8
      · simp [hbc, hlt']
      · have hsub : c % 8 - b % 8 ≠ 0 := by omega
        simp [hbc, hsub]
  · have hbc : c ≠ b := fun he => h (by rw [he])
    simp [h, hbc]

theorem test_clear (hb : b < 8 * a.length) :
    test (clear a b) c = (!decide (c = b) && test a c) := by
  simp only [test_eq_getLsbD, clear, getD_eq_getElem?_getD, getElem?_set]
  by_cases h : b / 8 = c / 8
  · have hmod := eq_iff_mod_eq h
    have hc8 : c % 8 < 8 := Nat.mod_lt _ (by omega)
    rw [if_pos h, if_pos (by omega)]
    simp only [h]
    by_cases hbc : c = b
    · simp [hbc, Nat.mod_lt]
    · by_cases hlt' : c % 8 < b % 8
      · simp [hbc, hlt', hc8]
      · have hsub : c % 8 - b % 8 ≠ 0 := by omega
        simp [hbc, hsub, hc8]
  · have hbc : c ≠ b := fun he => h (by rw [he])
    simp [h, hbc]

/-- **A run of bits set**: exactly its bits are set in addition. -/
theorem test_setRun (h : i + n ≤ 8 * a.length) :
    test (setRun a i n) c = (decide (i ≤ c ∧ c < i + n) || test a c) := by
  induction n with
  | zero => simp [setRun]
  | succ n ih =>
    rw [setRun, test_set (by simp; omega), ih (by omega), ← Bool.or_assoc]
    congr 1
    rw [← Bool.decide_or]
    exact decide_eq_decide.mpr (by omega)

/-- **A run of bits cleared**: it succeeds exactly inside the array. -/
theorem clearRun?_eq_some (h : i + n ≤ 8 * a.length) : ∃ a', clearRun? a n i = some a' := by
  induction n generalizing a i with
  | zero => exact ⟨a, rfl⟩
  | succ n ih =>
    rw [clearRun?, if_pos (by omega)]
    exact ih (by simp; omega)

theorem test_clearRun? (h : clearRun? a n i = some a') :
    a'.length = a.length ∧ ∀ c, test a' c = (!decide (i ≤ c ∧ c < i + n) && test a c) := by
  induction n generalizing a i with
  | zero =>
    obtain rfl : a = a' := by simpa [clearRun?] using h
    have hnone : ∀ c, ¬ (i ≤ c ∧ c < i + 0) := fun c => by omega
    exact ⟨rfl, fun c => by simp only [hnone, decide_false, Bool.not_false, Bool.true_and]⟩
  | succ n ih =>
    rw [clearRun?] at h
    split_ifs at h with hi
    obtain ⟨hlen, htest⟩ := ih h
    refine ⟨by simpa using hlen, fun c => ?_⟩
    rw [htest, test_clear hi, ← Bool.and_assoc, ← Bool.not_or, ← Bool.decide_or]
    congr 2
    exact decide_eq_decide.mpr (by omega)

/-! ## Counting -/

def clearCount (a : List (BitVec 8)) (n : ℕ) : ℕ :=
  ((Finset.range n).filter fun i => test a i = false).card

theorem clearCount_of_clear (h : ∀ i < n, test a i = false) : clearCount a n = n := by
  rw [clearCount, Finset.filter_true_of_mem fun i hi => h i (mem_range.mp hi),
    Finset.card_range]

theorem clearCount_zeros (m n : ℕ) : clearCount (replicate m 0#8) n = n :=
  clearCount_of_clear fun i _ => test_replicate_zero m i

theorem clearCount_le (a : List (BitVec 8)) (n : ℕ) : clearCount a n ≤ n :=
  (Finset.card_filter_le _ _).trans (Finset.card_range n).le

theorem exists_clear (h : 0 < clearCount a n) : ∃ i < n, test a i = false := by
  obtain ⟨i, hi⟩ := Finset.card_pos.mp h
  obtain ⟨hlt, hclear⟩ := Finset.mem_filter.mp hi
  exact ⟨i, mem_range.mp hlt, hclear⟩

/-- **A bit that is set** is counted no more. -/
theorem clearCount_set (hb : b < 8 * a.length) (hn : b < n) (hclear : test a b = false) :
    clearCount (set a b) n + 1 = clearCount a n := by
  have hmem : b ∈ (Finset.range n).filter fun i => test a i = false :=
    Finset.mem_filter.mpr ⟨mem_range.mpr hn, hclear⟩
  have herase : ((Finset.range n).filter fun i => test (set a b) i = false) =
      ((Finset.range n).filter fun i => test a i = false).erase b := by
    ext i
    rw [Finset.mem_erase, Finset.mem_filter, Finset.mem_filter, test_set hb]
    simp only [Bool.or_eq_false_iff, decide_eq_false_iff_not]
    tauto
  rw [clearCount, clearCount, herase, Finset.card_erase_add_one hmem]

/-- **A bit that is cleared** is counted again. -/
theorem clearCount_clear (hb : b < 8 * a.length) (hn : b < n) (hset : test a b = true) :
    clearCount (clear a b) n = clearCount a n + 1 := by
  have hnot : b ∉ (Finset.range n).filter fun i => test a i = false := fun hmem => by
    rw [(Finset.mem_filter.mp hmem).2] at hset
    exact absurd hset (by decide)
  have hinsert : ((Finset.range n).filter fun i => test (clear a b) i = false) =
      insert b ((Finset.range n).filter fun i => test a i = false) := by
    ext i
    rw [Finset.mem_insert, Finset.mem_filter, Finset.mem_filter, test_clear hb, Finset.mem_range]
    simp only [Bool.and_eq_false_iff, Bool.not_eq_false', decide_eq_true_eq]
    constructor
    · rintro ⟨hi, rfl | hclear⟩
      · exact .inl rfl
      · exact .inr ⟨hi, hclear⟩
    · rintro (rfl | ⟨hi, hclear⟩)
      · exact ⟨hn, .inl rfl⟩
      · exact ⟨hi, .inr hclear⟩
  rw [clearCount, clearCount, hinsert, Finset.card_insert_of_notMem hnot]

end BitArray
