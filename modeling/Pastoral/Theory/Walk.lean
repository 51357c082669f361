import Mathlib.Data.List.Perm.Subperm
import Mathlib.Data.Nat.Notation

/-!
# Walks around obstacles

A walk stands at a point. An obstacle found there sends it to another point, which depends on the
obstacle only; where there is none, the walk ends.

## Main definitions

* `Chain`, `Ends`

## Main results

* `ends_iff_nodup`: with finitely many obstacles a walk ends if it meets none of them twice
-/

open List

namespace Walk

variable {A R : Type*} (find : A → Option R) (leap : R → A)

/-- **The obstacles on the way** from a point to another. -/
inductive Chain : A → List R → A → Prop
  | nil (a : A) : Chain a [] a
  | cons {a b : A} {r : R} {l : List R} (hr : find a = some r) (rest : Chain (leap r) l b) :
      Chain a (r :: l) b

/-- **The walk ends.** -/
def Ends (a : A) : Prop := ∃ l b, Chain find leap a l b ∧ find b = none

variable {find leap} {a b c : A} {r : R} {l l' l₁ l₂ s : List R}

theorem Chain.append (h₁ : Chain find leap a l₁ b) (h₂ : Chain find leap b l₂ c) :
    Chain find leap a (l₁ ++ l₂) c := by
  induction h₁ with
  | nil => exact h₂
  | cons hr rest ih => exact .cons hr (ih h₂)

theorem Chain.of_append (h : Chain find leap a (l₁ ++ l₂) c) :
    ∃ b, Chain find leap a l₁ b ∧ Chain find leap b l₂ c := by
  induction l₁ generalizing a with
  | nil => exact ⟨a, .nil a, h⟩
  | cons r l₁ ih =>
    cases h with
    | cons hr rest =>
      obtain ⟨b, h₁, h₂⟩ := ih rest
      exact ⟨b, .cons hr h₁, h₂⟩

theorem Chain.eq_leap (h : Chain find leap a (l ++ [r]) b) : b = leap r := by
  obtain ⟨c, -, hlast⟩ := h.of_append
  cases hlast with
  | cons hr rest =>
    cases rest
    rfl

/-- **The way is determined by its start**: a part of it is an initial part of the whole. -/
theorem Chain.split (h : Chain find leap a l b) (hend : find b = none)
    (h' : Chain find leap a l' c) : ∃ l₂, l = l' ++ l₂ ∧ Chain find leap c l₂ b := by
  induction h' generalizing l with
  | nil a => exact ⟨l, rfl, h⟩
  | cons hr' rest' ih =>
    cases h with
    | nil => exact absurd (hend.symm.trans hr') (by simp)
    | cons hr rest =>
      obtain rfl := Option.some.inj (hr.symm.trans hr')
      obtain ⟨l₂, rfl, hrest⟩ := ih rest
      exact ⟨l₂, rfl, hrest⟩

theorem Ends.of_chain (h : Ends find leap a) (hchain : Chain find leap a l b) :
    Ends find leap b := by
  obtain ⟨all, c, hall, hend⟩ := h
  obtain ⟨l₂, -, hrest⟩ := hall.split hend hchain
  exact ⟨l₂, c, hrest, hend⟩

theorem Ends.eq_nil_of_cycle (h : Ends find leap a) (hcycle : Chain find leap a l a) : l = [] := by
  obtain ⟨all, b, hall, hend⟩ := h
  obtain ⟨l₂, hsplit, hrest⟩ := hall.split hend hcycle
  -- the way to the end is the rest of the way too
  obtain ⟨l₃, hsplit', -⟩ := hrest.split hend hall
  have hlength := congrArg length hsplit
  have hlength' := congrArg length hsplit'
  rw [length_append] at hlength hlength'
  exact eq_nil_of_length_eq_zero (by omega)

/-- **A walk that ends meets no obstacle twice.** -/
theorem Ends.nodup (h : Ends find leap a) (hchain : Chain find leap a l b) : l.Nodup := by
  induction hchain with
  | nil => exact nodup_nil
  | @cons a b r l hr rest ih =>
    have hends := h.of_chain (.cons hr (.nil _))
    refine nodup_cons.mpr ⟨fun hmem => ?_, ih hends⟩
    obtain ⟨l₁, l₂, rfl⟩ := append_of_mem hmem
    rw [append_cons] at rest
    obtain ⟨c, hcycle, -⟩ := rest.of_append
    rw [hcycle.eq_leap] at hcycle
    exact absurd (hends.eq_nil_of_cycle hcycle) (by simp)

theorem ends_of_nodup (hmem : ∀ b r, find b = some r → r ∈ s)
    (hnodup : ∀ l b, Chain find leap a l b → l.Nodup) : Ends find leap a := by
  have hsub : ∀ {l b}, Chain find leap a l b → l ⊆ s := by
    intro l b h r hr
    obtain ⟨l₁, l₂, rfl⟩ := append_of_mem hr
    obtain ⟨c, -, hlast⟩ := h.of_append
    cases hlast with
    | cons hr rest => exact hmem c r hr
  -- induction on the number of obstacles that are left
  have hleft : ∀ k l b, Chain find leap a l b → s.length ≤ l.length + k → Ends find leap a := by
    intro k
    induction k with
    | zero =>
      intro l b h hlength
      cases hfind : find b with
      | none => exact ⟨l, b, h, hfind⟩
      | some r =>
        have hnext := h.append (.cons hfind (.nil (leap r)))
        have hle := (subperm_of_subset (hnodup _ _ hnext) (hsub hnext)).length_le
        rw [length_append, length_singleton] at hle
        omega
    | succ k ih =>
      intro l b h hlength
      cases hfind : find b with
      | none => exact ⟨l, b, h, hfind⟩
      | some r =>
        refine ih (l ++ [r]) (leap r) (h.append (.cons hfind (.nil _))) ?_
        rw [length_append, length_singleton]
        omega
  exact hleft s.length [] a (.nil a) (by simp)

/-- **With finitely many obstacles** a walk ends if and only if it meets none of them twice. -/
theorem ends_iff_nodup (hmem : ∀ b r, find b = some r → r ∈ s) :
    Ends find leap a ↔ ∀ l b, Chain find leap a l b → l.Nodup :=
  ⟨fun h _ _ hchain => h.nodup hchain, ends_of_nodup hmem⟩

end Walk
