import Pastoral.Lib.Macros
import Pastoral.Theory.BitArray

/-!
# Resizable bitmaps

`bitmap.c`: numbers are handed out as the first clear bit of an array of bytes, which grows when all
bits are set.

## Main definitions

* `Bitmap.alloc`, `Bitmap.free`
-/

open List Option

namespace Pastoral

structure Bitmap where
  data : List (BitVec 8)
  size : ℕ
  deriving DecidableEq, Repr

namespace Bitmap

def empty : Bitmap := ⟨[], 0⟩

def test (b : Bitmap) (i : ℕ) : Bool := BitArray.test b.data i

def firstClear (b : Bitmap) : Option ℕ := (List.range (b.size * 8)).find? fun i => !b.test i

def grow (b : Bitmap) : Bitmap :=
  ⟨b.data ++ List.replicate (b.size + 0x200 - b.data.length) 0#8, b.size + 0x200⟩

def claim (b : Bitmap) (i : ℕ) : Option (ℕ × Bitmap) :=
  if i < 8 * b.data.length then some (i, { b with data := BitArray.set b.data i }) else none

def alloc (b : Bitmap) : Option (ℕ × Bitmap) :=
  match b.firstClear with
  | some i => b.claim i
  | none => b.grow.firstClear.bind b.grow.claim

def free (b : Bitmap) (index : ℕ) : Bitmap :=
  if index > b.size then b else { b with data := BitArray.clear b.data index }

def dup (b : Bitmap) : Bitmap := ⟨b.data.take (divRoundup b.size 8), b.size⟩

variable {b b' : Bitmap} {i n : ℕ}

/-! ## The search for a clear bit -/

theorem firstClear_eq_some_iff :
    b.firstClear = some i ↔ i < b.size * 8 ∧ b.test i = false ∧ ∀ j < i, b.test j = true := by
  rw [firstClear, find?_range_eq_some]
  simp only [Bool.not_eq_eq_eq_not, mem_range]
  tauto

theorem firstClear_eq_none_iff : b.firstClear = none ↔ ∀ j < b.size * 8, b.test j = true := by
  rw [firstClear]
  simp

theorem test_grow (b : Bitmap) (n : ℕ) : b.grow.test n = b.test n := by
  rw [test, grow, BitArray.test_append, BitArray.test_replicate_zero]
  split_ifs with hn
  · rfl
  · exact (BitArray.test_of_ge (not_lt.mp hn)).symm

theorem length_grow (b : Bitmap) :
    b.grow.data.length = b.data.length + (b.size + 0x200 - b.data.length) := by
  simp only [grow, length_append, length_replicate]

theorem claim_spec (h : b.claim i = some (n, b')) :
    n = i ∧ i < 8 * b.data.length ∧ b'.size = b.size ∧ b'.data.length = b.data.length ∧
      ∀ m, b'.test m = (decide (m = i) || b.test m) := by
  unfold claim at h
  split_ifs at h with hi
  cases h
  exact ⟨rfl, hi, rfl, BitArray.length_set _ _, fun m => BitArray.test_set hi⟩

theorem alloc_spec (h : b.alloc = some (i, b')) :
    b.test i = false ∧ (∀ j < i, b.test j = true) ∧ i < 8 * b'.data.length ∧
      ∀ m, b'.test m = (decide (m = i) || b.test m) := by
  unfold alloc at h
  cases hfirst : b.firstClear with
  | some j =>
    rw [hfirst] at h
    obtain ⟨rfl, hlt, -, hlen, htest⟩ := claim_spec h
    obtain ⟨-, hclear, hset⟩ := firstClear_eq_some_iff.mp hfirst
    exact ⟨hclear, hset, by rwa [hlen], htest⟩
  | none =>
    rw [hfirst] at h
    obtain ⟨j, hj, hclaim⟩ := bind_eq_some_iff.mp h
    obtain ⟨rfl, hlt, -, hlen, htest⟩ := claim_spec hclaim
    obtain ⟨-, hclear, hset⟩ := firstClear_eq_some_iff.mp hj
    simp only [test_grow] at hclear hset htest
    exact ⟨hclear, hset, by rwa [hlen], htest⟩

theorem alloc_size (h : b.alloc = some (i, b')) (hlen : b.data.length = b.size) :
    b'.data.length = b'.size ∧ (512 ∣ b.size → 512 ∣ b'.size) := by
  unfold alloc at h
  cases hfirst : b.firstClear with
  | some j =>
    rw [hfirst] at h
    obtain ⟨-, -, hsize, hlen', -⟩ := claim_spec h
    exact ⟨by omega, fun hdvd => hsize ▸ hdvd⟩
  | none =>
    rw [hfirst] at h
    obtain ⟨j, -, hclaim⟩ := bind_eq_some_iff.mp h
    obtain ⟨-, -, hsize, hlen', -⟩ := claim_spec hclaim
    have hgrown : b.grow.size = b.size + 512 := rfl
    rw [length_grow] at hlen'
    refine ⟨by omega, fun hdvd => ?_⟩
    rw [hsize]
    exact Nat.dvd_add hdvd (dvd_refl 512)

/-! ## Bitmaps of 512 units -/

/-- The bitmap has not been used, or it has grown once and has a byte for every eighth of its size
at least: `bitmap_alloc` gives it a byte for each unit of the size, `bitmap_dup` one for every
eighth. -/
def Small (b : Bitmap) : Prop := b = empty ∨ (b.size = 512 ∧ 64 ≤ b.data.length)

theorem small_empty : empty.Small := Or.inl rfl

@[simp] theorem test_empty (n : ℕ) : empty.test n = false := by
  simp [test, empty, BitArray.test]

theorem Small.alloc (h : b.Small) (hn : n < 512) (hclear : b.test n = false) :
    ∃ i b', b.alloc = some (i, b') ∧ i ≤ n ∧ b'.Small := by
  rcases h with rfl | ⟨hsize, hlen⟩
  · have hfirst : empty.grow.firstClear = some 0 := firstClear_eq_some_iff.mpr
        ⟨mul_pos (Nat.add_pos_right _ (by omega)) (by omega),
          by rw [test_grow, test_empty], by omega⟩
    have hlen := length_grow empty
    have hclaim : empty.grow.claim 0 = some (0, ⟨BitArray.set empty.grow.data 0, 512⟩) :=
      if_pos (by omega)
    refine ⟨0, ⟨BitArray.set empty.grow.data 0, 512⟩, ?_, Nat.zero_le n, .inr ⟨rfl, ?_⟩⟩
    · have hnone : empty.firstClear = none := rfl
      rw [Bitmap.alloc, hnone]
      rw [hfirst, bind_some, hclaim]
    · rw [BitArray.length_set]
      omega
  · have hsome : ∃ i, b.firstClear = some i := by
      rw [← ne_none_iff_exists']
      intro hnone
      have hset := firstClear_eq_none_iff.mp hnone n (by omega)
      rw [hset] at hclear
      simp at hclear
    obtain ⟨i, hi⟩ := hsome
    have hle : i ≤ n := by
      by_contra hlt
      have hset := (firstClear_eq_some_iff.mp hi).2.2 n (by omega)
      rw [hset] at hclear
      simp at hclear
    have hclaim : b.claim i = some (i, { b with data := BitArray.set b.data i }) :=
      if_pos (by omega)
    refine ⟨i, { b with data := BitArray.set b.data i }, ?_, hle, .inr ⟨hsize, ?_⟩⟩
    · rw [Bitmap.alloc, hi]
      exact hclaim
    · simpa using hlen

theorem Small.free (h : b.Small) (n : ℕ) : (b.free n).Small := by
  unfold Bitmap.free
  split_ifs with hn
  · exact h
  · rcases h with rfl | hsizes
    · exact .inl (by simp [empty, BitArray.clear])
    · exact .inr (by simpa using hsizes)

@[simp] theorem length_free (b : Bitmap) (n : ℕ) : (b.free n).data.length = b.data.length := by
  unfold free
  split_ifs <;> simp

theorem Small.test_free (h : b.Small) (hn : n < 512) (m : ℕ) :
    (b.free n).test m = (!decide (m = n) && b.test m) := by
  unfold Bitmap.free test
  rcases h with rfl | ⟨hsize, hlen⟩
  · split_ifs <;> simp [empty, BitArray.test]
  · rw [if_neg (by omega)]
    exact BitArray.test_clear (by omega)

theorem test_dup (hsmall : b.size < 2 ^ 32) (hi : i < b.size) : b.dup.test i = b.test i := by
  have hround : divRoundup b.size 8 = (b.size + 7) / 8 := divRoundup_of_lt (by omega)
  unfold test BitArray.test dup
  simp only [getD_eq_getElem?_getD]
  rw [getElem?_take_of_lt (by omega)]

theorem Small.dup (h : b.Small) : b.dup.Small := by
  rcases h with rfl | ⟨hsize, hlen⟩
  · exact .inl (by simp [empty, Bitmap.dup])
  · refine .inr ⟨hsize, ?_⟩
    have hround : divRoundup b.size 8 = 64 := by
      rw [hsize]
      rfl
    simp only [Bitmap.dup, length_take]
    omega

theorem Small.test_dup (h : b.Small) (hlow : ∀ m, b.test m = true → m < 512) (m : ℕ) :
    b.dup.test m = b.test m := by
  rcases h with rfl | ⟨hsize, hlen⟩
  · simp [empty, Bitmap.dup]
  · by_cases hm : m < 512
    · exact Bitmap.test_dup (by omega) (by omega)
    · -- The copy has 64 bytes, so the bit is outside of it.
      have hround : divRoundup b.size 8 = 64 := by
        rw [hsize]
        rfl
      have hout : b.dup.test m = false := by
        refine BitArray.test_of_ge ?_
        simp only [Bitmap.dup, length_take]
        omega
      have hclear : b.test m = false := by
        by_contra hset
        exact hm (hlow m (Bool.of_not_eq_false hset))
      rw [hout, hclear]

end Bitmap

end Pastoral
