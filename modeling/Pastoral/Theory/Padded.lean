import Mathlib.Data.List.Basic
import Mathlib.Data.List.Infix

/-!
# Arrays that are extended by a filler

An array is *shown* by a longer list that it is a prefix of, such as the block of memory that it is
kept in.

## Main definitions

* `overlay`: a write at an offset, which fills the gap before it
* `resize`: a change of the length, which cuts off or fills

## Main results

* `overlay_prefix`, `resize_prefix`: how both are shown
-/

open List

namespace Padded

variable {α : Type*} {z : α} {l b data : List α} {n off cnt : ℕ}

def pad (z : α) (l : List α) (n : ℕ) : List α := l ++ List.replicate (n - l.length) z

def overlay (z : α) (l : List α) (off : ℕ) (data : List α) : List α :=
  (pad z l off).take off ++ data ++ l.drop (off + data.length)

def resize (z : α) (l : List α) (n : ℕ) : List α := (pad z l n).take n

def slice (l : List α) (off cnt : ℕ) : List α := (l.drop off).take cnt

/-- The block with the elements from `off` on replaced. -/
def splice (b : List α) (off : ℕ) (data : List α) : List α :=
  b.take off ++ data ++ b.drop (off + data.length)

theorem length_pad : (pad z l n).length = max l.length n := by
  rw [pad, length_append, length_replicate]
  omega

theorem pad_of_le (h : n ≤ l.length) : pad z l n = l := by
  rw [pad, Nat.sub_eq_zero_of_le h, replicate_zero, append_nil]

theorem prefix_pad : l <+: pad z l n := prefix_append _ _

theorem length_overlay : (overlay z l off data).length = max l.length (off + data.length) := by
  rw [overlay, length_append, length_append, length_take, length_drop,
    length_pad]
  omega

theorem length_resize : (resize z l n).length = n := by
  rw [resize, length_take, length_pad]
  omega

theorem length_splice (h : off + data.length ≤ b.length) :
    (splice b off data).length = b.length := by
  rw [splice, length_append, length_append, length_take, length_drop]
  omega

theorem take_eq_of_prefix (h : l <+: b) (hn : n ≤ l.length) : l.take n = b.take n := by
  obtain ⟨t, rfl⟩ := h
  rw [take_append_of_le_length hn]

/-- **A write, shown**: where the block shows the array up to the offset, the spliced block shows
the array after the write. -/
theorem overlay_prefix (h : pad z l off <+: b) : overlay z l off data <+: splice b off data := by
  have htake : (pad z l off).take off = b.take off :=
    take_eq_of_prefix h (by rw [length_pad]; omega)
  have hdrop : l.drop (off + data.length) <+: b.drop (off + data.length) :=
    (prefix_pad.trans h).drop _
  rw [overlay, htake]
  exact (prefix_append_right_inj _).mpr hdrop

/-- **A change of the length, shown.** -/
theorem resize_prefix (h : pad z l n <+: b) : resize z l n <+: b := (List.take_prefix n _).trans h

theorem slice_of_prefix (h : l <+: b) (hle : off + cnt ≤ l.length) :
    slice l off cnt = slice b off cnt := by
  have hdrop := h.drop off
  exact take_eq_of_prefix hdrop (by rw [length_drop]; omega)

theorem slice_min (cnt : ℕ) : slice l off (min cnt (l.length - off)) = slice l off cnt := by
  rw [slice, slice, ← length_drop]
  simp

theorem drop_splice {o : ℕ} (h : o + off ≤ b.length) :
    (splice b (o + off) data).drop o = splice (b.drop o) off data := by
  have htake : (b.take (o + off)).length = o + off := by
    rw [length_take]
    omega
  rw [splice, splice, append_assoc, drop_append_of_le_length (by omega), drop_take,
    drop_drop, Nat.add_sub_cancel_left, append_assoc, Nat.add_assoc]

theorem slice_splice_of_disjoint {i : ℕ} (h : off + data.length ≤ b.length)
    (hout : i + cnt ≤ off ∨ off + data.length ≤ i) :
    slice (splice b off data) i cnt = slice b i cnt := by
  refine ext_getElem? fun j => ?_
  have htake : (b.take off).length = off := by
    rw [length_take]
    omega
  simp only [slice, splice, getElem?_take, getElem?_drop]
  split_ifs with hj
  · rcases hout with hbefore | hafter
    · rw [append_assoc, getElem?_append_left (by omega), getElem?_take,
        if_pos (by omega)]
    · have hlen : (b.take off ++ data).length = off + data.length := by
        rw [length_append, htake]
      rw [getElem?_append_right (by omega), getElem?_drop]
      congr 1
      omega
  · rfl

theorem pad_prefix (h : l <+: b)
    (hgap : ∀ i, l.length ≤ i → i < n → b[i]? = some z) : pad z l n <+: b := by
  rw [prefix_iff_getElem?]
  intro i hi
  rw [length_pad] at hi
  by_cases hlt : i < l.length
  · have hold := prefix_iff_getElem?.mp h i hlt
    rw [hold]
    simp [pad, getElem_append_left hlt]
  · rw [hgap i (by omega) (by omega)]
    simp [pad, getElem_append_right (Nat.le_of_not_lt hlt)]

end Padded
