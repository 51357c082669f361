import Mathlib.Data.BitVec
import Pastoral.Lib.Macros
import Pastoral.Theory.SearchTree

/-!
# Memory regions

The regions of an address space, `struct mmap_region`: a search tree by base address, without
balancing.

## Main definitions

* `mmapSearchRegion`, `mmapAnonymous`
-/

namespace Pastoral

abbrev mmapMapFixed : BitVec 32 := 0x4#32
abbrev mmapMapAnonymous : BitVec 32 := 0x8#32
abbrev mmapMapMinAddr : ℕ := 0x10000

abbrev mmapProtNone : BitVec 32 := 0x0#32
abbrev mmapProtRead : BitVec 32 := 0x1#32
abbrev mmapProtWrite : BitVec 32 := 0x2#32
abbrev mmapProtExec : BitVec 32 := 0x4#32
abbrev mmapProtUser : BitVec 32 := 0x8#32

structure Region where
  base : ℕ
  limit : ℕ
  prot : BitVec 32
  flags : BitVec 32
  fd : ℤ
  offset : ℤ
  deriving DecidableEq, Repr

def Region.Contains (r : Region) (a : ℕ) : Prop := r.base ≤ a ∧ a < r.base + r.limit
  deriving Decidable

structure RegionMap where
  mmapRegionRoot : BinaryTree Region
  mmapBumpBase : ℕ

def RegionMap.regions (m : RegionMap) : List Region := SearchTree.inorder m.mmapRegionRoot

/-! ## Lookup -/

def mmapSearchRegion (root : BinaryTree Region) (base : ℕ) : Option Region :=
  SearchTree.search Region.base (fun r => r.base ≤ base ∧ base ≤ wrap (r.base + r.limit)) base root

theorem mem_of_mmapSearchRegion {root : BinaryTree Region} {base : ℕ} {r : Region}
    (h : mmapSearchRegion root base = some r) : r ∈ SearchTree.inorder root :=
  (SearchTree.search_spec h).1

/-! ## Placement -/

def noConflict : ℕ := 2 ^ 64 - 1

def validateRegion (root : BinaryTree Region) (base length : ℕ) : ℕ :=
  match SearchTree.search Region.base
      (fun r => r.base ≤ base ∧ base < wrap (r.base + r.limit)) base root with
  | some r => wrap (r.base + r.limit + (2 ^ 64 - base) + length)
  | none => noConflict

def mmapPlace (root : BinaryTree Region) (length : ℕ) : ℕ → ℕ → Option ℕ
  | 0, _ => none
  | iterations + 1, base =>
    if validateRegion root base length = noConflict then some base
    else mmapPlace root length iterations (wrap (base + validateRegion root base length))

variable {addr length : ℕ} {m : RegionMap} {flags : BitVec 32}

theorem mmapPlace_unique {root : BinaryTree Region} {base₁ base₂ : ℕ} (i : ℕ) :
    ∀ {j base : ℕ}, mmapPlace root length i base = some base₁ →
      mmapPlace root length j base = some base₂ → base₁ = base₂ := by
  induction i with
  | zero => exact fun h _ => absurd h (by simp [mmapPlace])
  | succ i ih =>
    intro j base h₁ h₂
    cases j with
    | zero => exact absurd h₂ (by simp [mmapPlace])
    | succ j =>
      rw [mmapPlace] at h₁ h₂
      split_ifs at h₁ h₂ with hconflict
      · exact Option.some.inj (h₁.symm.trans h₂)
      · exact ih h₁ h₂

def mmapBase (iterations : ℕ) (m : RegionMap) (addr length : ℕ) (flags : BitVec 32) : Option ℕ :=
  if flags &&& mmapMapFixed ≠ 0#32 then some addr
  else mmapPlace m.mmapRegionRoot length iterations m.mmapBumpBase

theorem mmapBase_unique {i j base₁ base₂ : ℕ}
    (h₁ : mmapBase i m addr length flags = some base₁)
    (h₂ : mmapBase j m addr length flags = some base₂) : base₁ = base₂ := by
  rw [mmapBase] at h₁ h₂
  split_ifs at h₁ h₂ with hfixed
  · exact Option.some.inj (h₁.symm.trans h₂)
  · exact mmapPlace_unique i h₁ h₂

def mmapAnonymous (iterations : ℕ) (m : RegionMap) (addr length : ℕ) (prot flags : BitVec 32)
    (fd offset : ℤ) : Option (Option ℕ × RegionMap) :=
  let length := alignUp length pageSize
  (mmapBase iterations m addr length flags).map fun base =>
    let m := if flags &&& mmapMapFixed ≠ 0#32 then m
      else { m with mmapBumpBase := wrap (base + length) }
    if length = 0 ∨ base = 0 then (none, m)
    else if base % pageSize ≠ 0 ∨ length % pageSize ≠ 0 then (none, m)
    else
      let region : Region := ⟨base, length, prot, flags, fd, offset⟩
      (some base,
        { m with mmapRegionRoot := SearchTree.insert Region.base region m.mmapRegionRoot })

def MmapValid (base length : ℕ) : Prop :=
  length ≠ 0 ∧ base ≠ 0 ∧ base % pageSize = 0 ∧ length % pageSize = 0
  deriving Decidable

theorem mmapAnonymous_regions {iterations : ℕ} {m' : RegionMap}
    {prot : BitVec 32} {fd offset : ℤ} {ret : Option ℕ}
    (h : mmapAnonymous iterations m addr length prot flags fd offset = some (ret, m')) :
    ∃ base, mmapBase iterations m addr (alignUp length pageSize) flags = some base ∧
      (¬ MmapValid base (alignUp length pageSize) ∧ m'.regions = m.regions ∨
        MmapValid base (alignUp length pageSize) ∧
          ∀ r, r ∈ m'.regions ↔ r = ⟨base, alignUp length pageSize, prot, flags, fd, offset⟩ ∨
            r ∈ m.regions) := by
  rw [mmapAnonymous, Option.map_eq_some_iff] at h
  obtain ⟨base, hbase, hret⟩ := h
  refine ⟨base, hbase, ?_⟩
  -- the placement moves the bump base only
  have hroot : (if flags &&& mmapMapFixed ≠ 0#32 then m
      else { m with mmapBumpBase := wrap (base + alignUp length pageSize) }).mmapRegionRoot =
        m.mmapRegionRoot := by
    split_ifs <;> rfl
  generalize (if flags &&& mmapMapFixed ≠ 0#32 then m
    else { m with mmapBumpBase := wrap (base + alignUp length pageSize) }) = placed at hroot hret
  split_ifs at hret with hzero hunaligned
  · cases hret
    refine .inl ⟨fun hvalid => ?_, congrArg SearchTree.inorder hroot⟩
    exact hzero.elim hvalid.1 hvalid.2.1
  · cases hret
    refine .inl ⟨fun hvalid => ?_, congrArg SearchTree.inorder hroot⟩
    exact hunaligned.elim (absurd hvalid.2.2.1) (absurd hvalid.2.2.2)
  · cases hret
    obtain ⟨hlength, hbase⟩ := not_or.mp hzero
    obtain ⟨haligned, hlength'⟩ := not_or.mp hunaligned
    refine .inr ⟨⟨hlength, hbase, not_not.mp haligned, not_not.mp hlength'⟩, fun r => ?_⟩
    rw [RegionMap.regions, RegionMap.regions, ← hroot]
    exact SearchTree.mem_inorder_insert

theorem mmapAnonymous_fixed {iterations : ℕ} {prot : BitVec 32}
    {fd offset : ℤ} (hfixed : flags &&& mmapMapFixed ≠ 0#32) :
    mmapAnonymous iterations m addr length prot flags fd offset =
      some (if MmapValid addr (alignUp length pageSize) then
        (some addr, { m with
          mmapRegionRoot := SearchTree.insert Region.base
            ⟨addr, alignUp length pageSize, prot, flags, fd, offset⟩ m.mmapRegionRoot })
        else (none, m)) := by
  rw [mmapAnonymous, mmapBase, if_pos hfixed, Option.map_some, if_pos hfixed]
  generalize alignUp length pageSize = length
  by_cases hvalid : MmapValid addr length
  · rw [if_pos hvalid, if_neg (not_or.mpr ⟨hvalid.1, hvalid.2.1⟩),
      if_neg (not_or.mpr ⟨not_not.mpr hvalid.2.2.1, not_not.mpr hvalid.2.2.2⟩)]
  · split_ifs with hzero hunaligned
    · rfl
    · rfl
    · obtain ⟨hlength, hbase⟩ := not_or.mp hzero
      obtain ⟨haligned, hlength'⟩ := not_or.mp hunaligned
      exact absurd ⟨hlength, hbase, not_not.mp haligned, not_not.mp hlength'⟩ hvalid

end Pastoral
