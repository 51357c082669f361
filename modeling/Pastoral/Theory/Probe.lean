import Mathlib.Data.List.Perm.Basic
import Mathlib.Data.List.Nodup
import Mathlib.Data.List.Lattice

/-!
# Linear probing without wrap-around

A table is a list of slots, each empty or holding one key with its datum. A key is looked for from
its home index to the last slot.

## Main definitions

* `findFrom`: the probe
* `Good`: no key occurs twice, and every key sits at or after its home

## Main results

* `find_iff`: in a good table a probe finds exactly what is stored
* `set_fresh`, `set_replace`, `set_empty`: the updates keep the table good
-/

open List Option

namespace Probe

/-! ## The first index from a start -/

section FindFrom

variable {α : Type*} {p : α → Bool} {l : List α} {i j : ℕ}

/-- The first index from `i` on whose element satisfies `p`. -/
def findFrom (p : α → Bool) (l : List α) (i : ℕ) : Option ℕ :=
  ((l.drop i).findIdx? p).map (· + i)

theorem findFrom_eq_some_iff :
    findFrom p l i = some j ↔ i ≤ j ∧ (∃ x, l[j]? = some x ∧ p x = true) ∧
      ∀ n x, i ≤ n → n < j → l[n]? = some x → p x = false := by
  simp only [findFrom, map_eq_some_iff, findIdx?_eq_some_iff_getElem]
  constructor
  · rintro ⟨m, ⟨hm, hp, hmin⟩, rfl⟩
    have hlt : m + i < l.length := by
      rw [length_drop] at hm
      omega
    refine ⟨Nat.le_add_left i m, ⟨l[m + i], getElem?_eq_getElem hlt, ?_⟩, ?_⟩
    · simpa [Nat.add_comm] using hp
    · intro n x hin hnm hx
      have hn : n < l.length := by omega
      have hmn := hmin (n - i) (by omega)
      rw [getElem?_eq_getElem hn, Option.some.injEq] at hx
      simpa [Nat.add_sub_cancel' hin, hx] using hmn
  · rintro ⟨hij, ⟨x, hx, hp⟩, hmin⟩
    obtain ⟨hj, rfl⟩ := List.getElem?_eq_some_iff.mp hx
    refine ⟨j - i, ⟨by rw [length_drop]; omega, ?_, ?_⟩, by omega⟩
    · simpa [Nat.add_sub_cancel' hij] using hp
    · intro n hn
      have hlt : i + n < l.length := by omega
      simpa using hmin (i + n) _ (Nat.le_add_right i n) (by omega) (getElem?_eq_getElem hlt)

theorem findFrom_eq_none_iff :
    findFrom p l i = none ↔ ∀ n x, i ≤ n → l[n]? = some x → p x = false := by
  simp only [findFrom, map_eq_none_iff, findIdx?_eq_none_iff]
  constructor
  · intro h n x hin hx
    refine h x (mem_iff_getElem?.mpr ⟨n - i, ?_⟩)
    rw [getElem?_drop, Nat.add_sub_cancel' hin, hx]
  · intro h x hx
    obtain ⟨n, hn⟩ := mem_iff_getElem?.mp hx
    rw [getElem?_drop] at hn
    exact h (i + n) x (Nat.le_add_right i n) hn

theorem lt_length_of_findFrom (h : findFrom p l i = some j) : j < l.length := by
  obtain ⟨-, ⟨x, hx, -⟩, -⟩ := findFrom_eq_some_iff.mp h
  exact (List.getElem?_eq_some_iff.mp hx).1

end FindFrom

/-! ## Slots and what they hold -/

abbrev Slots (K D : Type*) := List (Option (K × D))

variable {K D : Type*}

def entries (l : Slots K D) : List (K × D) := l.filterMap id

def keys (l : Slots K D) : List K := (entries l).map Prod.fst

def holds [DecidableEq K] (k : K) : Option (K × D) → Bool
  | some e => e.1 = k
  | none => false

@[simp] theorem holds_none [DecidableEq K] (k : K) : holds k (none : Option (K × D)) = false := rfl

@[simp] theorem holds_some [DecidableEq K] (k : K) (e : K × D) :
    holds k (some e) = decide (e.1 = k) := rfl

@[simp] theorem entries_nil : entries ([] : Slots K D) = [] := rfl

@[simp] theorem entries_none_cons (l : Slots K D) : entries (none :: l) = entries l := rfl

@[simp] theorem entries_some_cons (e : K × D) (l : Slots K D) :
    entries (some e :: l) = e :: entries l := rfl

@[simp] theorem entries_replicate_none (n : ℕ) :
    entries (replicate n none : Slots K D) = [] := by
  simp [entries]

theorem mem_entries_iff {l : Slots K D} {e : K × D} :
    e ∈ entries l ↔ ∃ j : ℕ, l[j]? = some (some e) := by
  rw [entries, mem_filterMap]
  simp [mem_iff_getElem?]

theorem mem_keys_iff {l : Slots K D} {k : K} : k ∈ keys l ↔ ∃ d, (k, d) ∈ entries l := by
  simp [keys]

theorem entries_set {l : Slots K D} {j : ℕ} (hj : j < l.length) (o : Option (K × D)) :
    (entries (l.set j o)).Perm (o.toList ++ entries (l.eraseIdx j)) := by
  have hset : l.set j o = l.take j ++ o :: l.drop (j + 1) := by
    rw [set_eq_take_append_cons_drop, if_pos hj]
  have herase := eraseIdx_eq_take_drop_succ l j
  rw [hset, herase]
  cases o with
  | none => simp [entries]
  | some e =>
    simp only [entries, filterMap_append]
    exact perm_middle

/-- **A good table**: every key sits at or after its home, and no key occurs twice. -/
structure Good (home : K → ℕ) (l : Slots K D) : Prop where
  placed : ∀ {j : ℕ} {k : K} {d : D}, l[j]? = some (some (k, d)) → home k ≤ j
  unique : ∀ {i j : ℕ} {k : K} {d d' : D},
    l[i]? = some (some (k, d)) → l[j]? = some (some (k, d')) → i = j

theorem good_replicate_none (home : K → ℕ) (n : ℕ) :
    Good home (replicate n none : Slots K D) := by
  constructor <;> intros <;> simp_all [getElem?_replicate]

namespace Good

variable {home : K → ℕ} {l : Slots K D} {j : ℕ} {k : K} {d : D}

theorem entry_unique (h : Good home l) {d' : D} (h₁ : (k, d) ∈ entries l)
    (h₂ : (k, d') ∈ entries l) : d = d' := by
  obtain ⟨i, hi⟩ := mem_entries_iff.mp h₁
  obtain ⟨j, hj⟩ := mem_entries_iff.mp h₂
  obtain rfl := h.unique hi hj
  rw [hi] at hj
  simpa using hj

theorem keys_nodup (h : Good home l) : (keys l).Nodup := by
  have key : ∀ l : Slots K D, (∀ (i j : ℕ) (k : K) (d d' : D),
        l[i]? = some (some (k, d)) → l[j]? = some (some (k, d')) → i = j) →
      (keys l).Nodup := by
    intro l
    induction l with
    | nil => intro _; simp [keys]
    | cons o l ih =>
      intro hu
      have hl := ih fun i j k d d' hi hj => by
        simpa using hu (i + 1) (j + 1) k d d' (by simpa using hi) (by simpa using hj)
      rcases o with - | ⟨k, d⟩
      · simpa [keys] using hl
      · have hk : k ∉ keys l := by
          intro hk
          obtain ⟨d', hd'⟩ := mem_keys_iff.mp hk
          obtain ⟨j, hj⟩ := mem_entries_iff.mp hd'
          simpa using hu 0 (j + 1) k d d' rfl (by simpa using hj)
        simpa [keys] using And.intro (by simpa [keys, entries] using hk) hl
  exact key l fun i j k d d' => h.unique

theorem entries_nodup (h : Good home l) : (entries l).Nodup := h.keys_nodup.of_map _

/-- **A probe of a good table finds what is stored.** -/
theorem find_iff [DecidableEq K] (h : Good home l) :
    (∃ j, findFrom (holds k) l (home k) = some j ∧ l[j]? = some (some (k, d))) ↔
      (k, d) ∈ entries l := by
  refine ⟨fun ⟨j, _, hj⟩ => mem_entries_iff.mpr ⟨j, hj⟩, fun hmem => ?_⟩
  obtain ⟨j, hj⟩ := mem_entries_iff.mp hmem
  refine ⟨j, findFrom_eq_some_iff.mpr ⟨h.placed hj, ⟨_, hj, by simp⟩, ?_⟩, hj⟩
  -- an earlier slot holding `k` would be a second copy of it
  rintro n (- | ⟨k', d'⟩) - hnj hn
  · rfl
  · by_contra hk
    obtain rfl : k' = k := by simpa using hk
    exact absurd (h.unique hn hj) (Nat.ne_of_lt hnj)

theorem find_none [DecidableEq K] (h : Good home l)
    (hf : findFrom (holds k) l (home k) = none) : k ∉ keys l := by
  intro hk
  obtain ⟨d, hd⟩ := mem_keys_iff.mp hk
  obtain ⟨j, hj, -⟩ := h.find_iff.mpr hd
  simp [hf] at hj

theorem set (h : Good home l) (hj : j < l.length) (hhome : home k ≤ j)
    (hother : ∀ (i : ℕ) (d' : D), l[i]? = some (some (k, d')) → i = j) :
    Good home (l.set j (some (k, d))) := by
  constructor
  · intro i k' d' hi
    rw [getElem?_set] at hi
    split_ifs at hi with hij
    · obtain ⟨rfl, rfl⟩ : k = k' ∧ d = d' := by simpa using hi
      exact hij ▸ hhome
    · exact h.placed hi
  · intro i i' k' d₁ d₂ hi hi'
    rw [getElem?_set] at hi hi'
    split_ifs at hi hi' with h₁ h₂ h₃
    · exact h₁.symm.trans h₂
    · obtain ⟨rfl, -⟩ : k = k' ∧ d = d₁ := by simpa using hi
      exact absurd (hother i' d₂ hi').symm h₂
    · obtain ⟨rfl, -⟩ : k = k' ∧ d = d₂ := by simpa using hi'
      exact absurd (hother i d₁ hi).symm h₁
    · exact h.unique hi hi'

/-- **A new key into an empty slot**: the table stays good and holds one entry more. -/
theorem set_fresh (h : Good home l) (hj : l[j]? = some none) (hhome : home k ≤ j)
    (hk : k ∉ keys l) :
    Good home (l.set j (some (k, d))) ∧
      (entries (l.set j (some (k, d)))).Perm ((k, d) :: entries l) := by
  obtain ⟨hlt, he⟩ := List.getElem?_eq_some_iff.mp hj
  refine ⟨h.set hlt hhome fun i d' hi => ?_, ?_⟩
  · exact absurd (mem_keys_iff.mpr ⟨d', mem_entries_iff.mpr ⟨i, hi⟩⟩) hk
  · have hself : l.set j none = l := by rw [← he, set_getElem_self]
    have hold := entries_set hlt (none : Option (K × D))
    rw [hself] at hold
    exact (entries_set hlt (some (k, d))).trans (Perm.cons _ hold.symm)

/-- **A new datum for a stored key**: the table stays good and only that entry changes. -/
theorem set_replace (h : Good home l) {d₀ : D} (hj : l[j]? = some (some (k, d₀))) :
    Good home (l.set j (some (k, d))) ∧ ∃ rest, (entries l).Perm ((k, d₀) :: rest) ∧
        (entries (l.set j (some (k, d)))).Perm ((k, d) :: rest) := by
  obtain ⟨hlt, he⟩ := List.getElem?_eq_some_iff.mp hj
  refine ⟨h.set hlt (h.placed hj) fun i d' hi => h.unique hi hj,
    entries (l.eraseIdx j), ?_, entries_set hlt (some (k, d))⟩
  have hself : l.set j (some (k, d₀)) = l := by rw [← he, set_getElem_self]
  have hold := entries_set hlt (some (k, d₀))
  rwa [hself] at hold

/-- **Emptying a slot**: the table stays good and loses that entry only. -/
theorem set_empty (h : Good home l) {d₀ : D} (hj : l[j]? = some (some (k, d₀))) :
    Good home (l.set j none) ∧ (entries l).Perm ((k, d₀) :: entries (l.set j none)) := by
  obtain ⟨hlt, he⟩ := List.getElem?_eq_some_iff.mp hj
  have hmem : ∀ {i : ℕ} {e : K × D}, (l.set j none)[i]? = some (some e) → l[i]? = some (some e) := by
    intro i e hi
    rw [getElem?_set] at hi
    split_ifs at hi
    · simp at hi
    · exact hi
  refine ⟨⟨fun hi => h.placed (hmem hi), fun hi hi' => h.unique (hmem hi) (hmem hi')⟩, ?_⟩
  have hself : l.set j (some (k, d₀)) = l := by rw [← he, set_getElem_self]
  have hold := entries_set hlt (some (k, d₀))
  rw [hself] at hold
  exact hold.trans (Perm.cons _ (entries_set hlt none).symm)

end Good

end Probe
