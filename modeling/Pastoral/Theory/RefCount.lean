import Mathlib.Algebra.Order.Group.Multiset
import Mathlib.Data.Multiset.Count
import Mathlib.Logic.Function.Basic

/-!
# Shared reference counters

Holders share counters by reference: the multiset `held` has one occurrence of a reference for
every holder.

## Main definitions

* `Exact`: each reference that is held counts its holders
* `Live`: and no other reference has a counter

## Main results

* `Exact.create`, `Exact.drop`, `Exact.duplicate`, `Exact.alone`
* `Live.create`, `Live.join`, `Live.drop`
-/

open Function Multiset

namespace RefCount

variable {ρ : Type*} [DecidableEq ρ] {held rest : Multiset ρ} {count : ρ → ℤ} {r : ρ}

/-- **The counters are exact**: every held reference counts its holders. -/
def Exact (held : Multiset ρ) (count : ρ → ℤ) : Prop := ∀ r ∈ held, count r = held.count r

theorem Exact.nil (count : ρ → ℤ) : Exact 0 count := fun _ hr => absurd hr (notMem_zero _)

theorem Exact.create (h : Exact held count) (hr : r ∉ held) :
    Exact (r ::ₘ held) (update count r 1) := by
  intro x hx
  by_cases hxr : x = r
  · subst hxr
    rw [update_self, count_cons_self, count_eq_zero_of_notMem hr]
    rfl
  · rw [update_of_ne hxr, count_cons_of_ne hxr]
    exact h x ((mem_cons.mp hx).resolve_left hxr)

theorem Exact.drop (h : Exact (r ::ₘ held) count) : Exact held (update count r (count r - 1)) := by
  intro x hx
  have hcount := h x (mem_cons_of_mem hx)
  by_cases hxr : x = r
  · subst hxr
    rw [update_self, hcount, count_cons_self]
    omega
  · rw [update_of_ne hxr, hcount, count_cons_of_ne hxr]

theorem Exact.duplicate (h : Exact (held + rest) count) :
    Exact (held + rest + held) fun x => count x + held.count x := by
  intro x hx
  have hmem : x ∈ held + rest := by
    rcases mem_add.mp hx with hx | hx
    · exact hx
    · exact mem_add.mpr (.inl hx)
  show count x + held.count x = _
  rw [h x hmem, count_add x (held + rest) held]
  omega

/-- **The last holder**: a counter that is at most one has no other holder. -/
theorem Exact.alone (h : Exact (r ::ₘ held) count) : count r ≤ 1 ↔ r ∉ held := by
  have hcount := h r (mem_cons_self r held)
  rw [count_cons_self] at hcount
  rw [← count_eq_zero]
  omega

/-! ## Counters that are freed

A counter exists as long as its reference is held. -/

section Live

variable {count : ρ → Option ℤ}

/-- **Exactly the held references have a counter**, and it counts their holders. -/
def Live (held : Multiset ρ) (count : ρ → Option ℤ) : Prop :=
  ∀ r, count r = if r ∈ held then some (held.count r : ℤ) else none

theorem Live.eq_none_iff (h : Live held count) : count r = none ↔ r ∉ held := by
  rw [h r]
  split_ifs with hr <;> simp [hr]

theorem Live.eq_some (h : Live held count) (hr : r ∈ held) : count r = some (held.count r : ℤ) := by
  rw [h r, if_pos hr]

theorem Live.cons (h : Live held count) :
    Live (r ::ₘ held) (update count r (some ((held.count r : ℤ) + 1))) := by
  intro x
  by_cases hx : x = r
  · subst hx
    rw [update_self, if_pos (mem_cons_self x held), count_cons_self]
    rfl
  · rw [update_of_ne hx, h x, count_cons_of_ne hx]
    simp only [mem_cons, hx, false_or]

theorem Live.create (h : Live held count) (hr : count r = none) :
    Live (r ::ₘ held) (update count r (some 1)) := by
  have hcons := h.cons (r := r)
  rwa [count_eq_zero_of_notMem (h.eq_none_iff.mp hr)] at hcons

theorem Live.join (h : Live held count) {n : ℤ} (hr : count r = some n) :
    Live (r ::ₘ held) (update count r (some (n + 1))) := by
  have hmem : r ∈ held := by
    by_contra hnot
    rw [h.eq_none_iff.mpr hnot] at hr
    simp at hr
  rw [h.eq_some hmem] at hr
  exact Option.some.inj hr ▸ h.cons

theorem Live.drop (h : Live (r ::ₘ held) count) {n : ℤ} (hr : count r = some n) :
    Live held (update count r (if n - 1 = 0 then none else some (n - 1))) := by
  rw [h.eq_some (mem_cons_self r held), count_cons_self] at hr
  have hn : n = held.count r + 1 := by
    rw [← Option.some.inj hr]
    rfl
  intro x
  by_cases hx : x = r
  · subst hx
    have hleft : n - 1 = held.count x := by omega
    rw [update_self, hleft]
    by_cases hmem : x ∈ held
    · have hpos := count_pos.mpr hmem
      rw [if_pos hmem, if_neg (by omega)]
    · rw [if_neg hmem, count_eq_zero_of_notMem hmem]
      rfl
  · rw [update_of_ne hx, h x, count_cons_of_ne hx]
    simp only [mem_cons, hx, false_or]

end Live

end RefCount
