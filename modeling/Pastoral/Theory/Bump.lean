import Mathlib.Algebra.BigOperators.Group.List.Basic
import Mathlib.Data.Nat.ModEq

/-!
# Bump placement

Records of a fixed head and a payload of varying size are placed one after another, each start
rounded up to a multiple of the alignment.

## Main definitions

* `starts`: the records with their places; `stop`: the end of the last one

## Main results

* `stop_eq`: a closed form, when the alignment divides the head
* `starts_ordered`, `exists_starts_over`: the order of the records, and what is between two of them
-/

namespace Bump

variable (align head : ℕ)

/-- The distance from `n` to the next multiple of `align`. -/
def pad (n : ℕ) : ℕ := (align - n % align) % align

/-- The records of the given payload sizes placed from `pos` on: their starts and sizes. -/
def starts : ℕ → List ℕ → List (ℕ × ℕ)
  | _, [] => []
  | pos, size :: sizes =>
    (pos + pad align pos, size) :: starts (pos + pad align pos + head + size) sizes

/-- The end of the last record placed from `pos` on. -/
def stop : ℕ → List ℕ → ℕ
  | pos, [] => pos
  | pos, size :: sizes => stop (pos + pad align pos + head + size) sizes

/-- The padding in front of the records: that of the first position and that of every payload but
the last. -/
def padding : ℕ → List ℕ → ℕ
  | _, [] => 0
  | pos, sizes => pad align pos + (sizes.dropLast.map (pad align)).sum

variable {align head} {pos : ℕ} {sizes : List ℕ}

theorem pad_lt (halign : 0 < align) (n : ℕ) : pad align n < align := Nat.mod_lt _ halign

theorem dvd_add_pad (halign : 0 < align) (n : ℕ) : align ∣ n + pad align n := by
  have hmod := Nat.mod_lt n halign
  have hdiv := Nat.div_add_mod n align
  unfold pad
  rcases Nat.eq_zero_or_pos (n % align) with h | h
  · rw [h, Nat.sub_zero, Nat.mod_self]
    exact Nat.dvd_of_mod_eq_zero h
  · rw [Nat.mod_eq_of_lt (by omega)]
    exact ⟨n / align + 1, by rw [mul_add]; omega⟩

theorem eq_add_pad (halign : 0 < align) {n k : ℕ} (hdvd : align ∣ k) (hle : n ≤ k)
    (hlt : k < n + align) : k = n + pad align n := by
  obtain ⟨d, rfl⟩ := Nat.exists_eq_add_of_le hle
  have hmod : n + d ≡ n + pad align n [MOD align] :=
    (Nat.modEq_zero_iff_dvd.mpr hdvd).trans (Nat.modEq_zero_iff_dvd.mpr (dvd_add_pad halign n)).symm
  have hd := Nat.ModEq.eq_of_lt_of_lt hmod.add_left_cancel' (by omega) (pad_lt halign n)
  rw [hd]

theorem pad_add_of_dvd {n k : ℕ} (h : align ∣ n) : pad align (n + k) = pad align k := by
  obtain ⟨q, rfl⟩ := h
  rw [pad, pad, Nat.mul_add_mod]

theorem le_stop : pos ≤ stop align head pos sizes := by
  induction sizes generalizing pos with
  | nil => exact le_rfl
  | cons size sizes ih => exact le_trans (by omega) ih

/-- **The end of the last record**: the padding, the heads and the payloads. -/
theorem stop_eq (halign : 0 < align) (hhead : align ∣ head) : stop align head pos sizes =
      pos + padding align pos sizes + (sizes.map fun size => head + size).sum := by
  induction sizes generalizing pos with
  | nil => simp [stop, padding]
  | cons size sizes ih =>
    rw [stop, ih]
    cases sizes with
    | nil => simp [padding]; omega
    | cons next sizes =>
      have hpad : pad align (pos + pad align pos + head + size) = pad align size :=
        pad_add_of_dvd (Nat.dvd_add (dvd_add_pad halign pos) hhead)
      simp only [padding, List.dropLast_cons_cons, List.map_cons, List.sum_cons]
      omega

theorem padding_le (halign : 0 < align) : padding align pos sizes ≤ align * sizes.length := by
  have hsum : ∀ l : List ℕ, (l.map (pad align)).sum ≤ align * l.length := by
    intro l
    induction l with
    | nil => simp
    | cons size l ih =>
      have := pad_lt halign size
      simp only [List.map_cons, List.sum_cons, List.length_cons, Nat.mul_succ]
      omega
  cases sizes with
  | nil => simp [padding]
  | cons size sizes =>
    have hpad := pad_lt halign pos
    have hlast := hsum (size :: sizes).dropLast
    rw [List.length_dropLast, List.length_cons, Nat.add_sub_cancel] at hlast
    rw [padding, List.length_cons, Nat.mul_succ]
    · omega
    · simp

theorem mem_starts {b : ℕ × ℕ} (h : b ∈ starts align head pos sizes) :
    pos ≤ b.1 ∧ b.1 + head + b.2 ≤ stop align head pos sizes := by
  induction sizes generalizing pos with
  | nil => simp [starts] at h
  | cons size sizes ih =>
    rcases List.mem_cons.mp h with rfl | h
    · exact ⟨Nat.le_add_right _ _, le_stop⟩
    · obtain ⟨hle, hstop⟩ := ih h
      exact ⟨by omega, hstop⟩

theorem starts_ordered :
    (starts align head pos sizes).Pairwise fun b c => b.1 + head + b.2 ≤ c.1 := by
  induction sizes generalizing pos with
  | nil => exact List.Pairwise.nil
  | cons size sizes ih => exact List.pairwise_cons.mpr ⟨fun c hc => (mem_starts hc).1, ih⟩

theorem exists_starts_stop (h : sizes ≠ []) :
    ∃ b ∈ starts align head pos sizes, b.1 + head + b.2 = stop align head pos sizes := by
  induction sizes generalizing pos with
  | nil => exact absurd rfl h
  | cons size sizes ih =>
    rcases eq_or_ne sizes [] with rfl | hne
    · exact ⟨_, List.mem_cons_self .., rfl⟩
    · obtain ⟨b, hb, hstop⟩ := ih hne
      exact ⟨b, List.mem_cons_of_mem _ hb, hstop⟩

/-- **The records are dense**: a position before the end lies less than one alignment in front of
the start of a record that ends behind it. -/
theorem exists_starts_over (halign : 0 < align) {n : ℕ} (hpos : pos ≤ n)
    (hstop : n < stop align head pos sizes) :
    ∃ b ∈ starts align head pos sizes, b.1 < n + align ∧ n < b.1 + head + b.2 := by
  induction sizes generalizing pos with
  | nil => exact absurd hstop (not_lt.mpr hpos)
  | cons size sizes ih =>
    rcases lt_or_ge n (pos + pad align pos + head + size) with hn | hn
    · have := pad_lt halign pos
      exact ⟨_, List.mem_cons_self .., by simp only; omega, hn⟩
    · obtain ⟨b, hb, hover⟩ := ih hn hstop
      exact ⟨b, List.mem_cons_of_mem _ hb, hover⟩

end Bump
