import Pastoral.Mm.Region
import Pastoral.Theory.Walk

/-!
# The placement of a mapping

`mmap` looks for a base from the bump base on.

## Main results

* `placement_ends_iff`: when the loop ends
-/

open SearchTree Walk

namespace Pastoral

def conflictAt (root : BinaryTree Region) (a : ℕ) : Option Region :=
  search Region.base (fun r => r.base ≤ a ∧ a < wrap (r.base + r.limit)) a root

def nextBase (length : ℕ) (r : Region) : ℕ := wrap (r.base + r.limit + length)

def Placed (root : BinaryTree Region) (length a : ℕ) : Prop :=
  ∃ iterations base, mmapPlace root length iterations a = some base ∧ conflictAt root base = none

/-- **There is no way back**: no region is met twice, and no base is sent to the one below it. -/
structure NoReturn (root : BinaryTree Region) (length a : ℕ) : Prop where
  once : ∀ l b, Walk.Chain (conflictAt root) (nextBase length) a l b → l.Nodup
  proper : ∀ l b r, Walk.Chain (conflictAt root) (nextBase length) a l b →
    conflictAt root b = some r → nextBase length r ≠ wrap (b + (2 ^ 64 - 1))

section Loop

variable {root : BinaryTree Region} {r : Region} {a b base length iterations : ℕ} {l : List Region}

theorem conflictAt_some (h : conflictAt root a = some r) :
    r ∈ inorder root ∧ r.base ≤ a ∧ a < wrap (r.base + r.limit) := by
  obtain ⟨hmem, hstop⟩ := search_spec h
  exact ⟨hmem, of_decide_eq_true hstop⟩

theorem validateRegion_none (h : conflictAt root a = none) :
    validateRegion root a length = noConflict := by
  rw [conflictAt] at h
  rw [validateRegion, h]

theorem validateRegion_some (h : conflictAt root a = some r) :
    validateRegion root a length = wrap (r.base + r.limit + (2 ^ 64 - a) + length) := by
  rw [conflictAt] at h
  rw [validateRegion, h]

section

variable (ha : a < 2 ^ 64)

include ha

theorem wrap_validateRegion (h : conflictAt root a = some r) :
    wrap (a + validateRegion root a length) = nextBase length r := by
  rw [validateRegion_some h, nextBase]
  unfold wrap
  omega

theorem validateRegion_eq_noConflict_iff (h : conflictAt root a = some r) :
    validateRegion root a length = noConflict ↔ nextBase length r = wrap (a + (2 ^ 64 - 1)) := by
  rw [validateRegion_some h, nextBase, noConflict]
  unfold wrap
  omega

theorem chain_lt (h : Walk.Chain (conflictAt root) (nextBase length) a l b) : b < 2 ^ 64 := by
  induction h with
  | nil => exact ha
  | cons _ _ ih => exact ih (wrap_lt _)

theorem Placed.next (h : Placed root length a) (hr : conflictAt root a = some r) :
    Placed root length (nextBase length r) ∧ nextBase length r ≠ wrap (a + (2 ^ 64 - 1)) := by
  obtain ⟨iterations, base, hplace, hnone⟩ := h
  cases iterations with
  | zero => exact absurd hplace (by simp [mmapPlace])
  | succ iterations =>
    rw [mmapPlace, wrap_validateRegion ha hr] at hplace
    split_ifs at hplace with hconflict
    · cases hplace
      exact absurd (hnone.symm.trans hr) (by simp)
    · exact ⟨⟨iterations, base, hplace, hnone⟩,
        fun heq => hconflict ((validateRegion_eq_noConflict_iff ha hr).mpr heq)⟩

theorem Placed.of_chain (h : Placed root length a)
    (hchain : Walk.Chain (conflictAt root) (nextBase length) a l b) : Placed root length b := by
  induction hchain with
  | nil => exact h
  | cons hr _ ih => exact ih (wrap_lt _) (h.next ha hr).1

theorem Placed.ends (h : Placed root length a) :
    Walk.Ends (conflictAt root) (nextBase length) a := by
  obtain ⟨iterations, base, hplace, hnone⟩ := h
  induction iterations generalizing a with
  | zero => exact absurd hplace (by simp [mmapPlace])
  | succ iterations ih =>
    cases hr : conflictAt root a with
    | none => exact ⟨[], a, .nil a, hr⟩
    | some r =>
      rw [mmapPlace, wrap_validateRegion ha hr] at hplace
      split_ifs at hplace with hconflict
      · cases hplace
        exact absurd (hnone.symm.trans hr) (by simp)
      · obtain ⟨l, b, hchain, hend⟩ := ih (wrap_lt _) hplace
        exact ⟨r :: l, b, .cons hr hchain, hend⟩

theorem mmapPlace_of_chain
    (hproper : ∀ l b r, Walk.Chain (conflictAt root) (nextBase length) a l b →
      conflictAt root b = some r → nextBase length r ≠ wrap (b + (2 ^ 64 - 1)))
    (hchain : Walk.Chain (conflictAt root) (nextBase length) a l b) (hend : conflictAt root b = none) :
    mmapPlace root length (l.length + 1) a = some b := by
  induction hchain with
  | nil a => rw [mmapPlace, if_pos (validateRegion_none hend)]
  | @cons a b r l hr rest ih =>
    have hne : validateRegion root a length ≠ noConflict := fun heq =>
      hproper [] a r (.nil a) hr ((validateRegion_eq_noConflict_iff ha hr).mp heq)
    rw [mmapPlace, if_neg hne, wrap_validateRegion ha hr]
    exact ih (wrap_lt _) (fun l b r' h => hproper (r :: l) b r' (.cons hr h)) hend

theorem placed_iff : Placed root length a ↔ NoReturn root length a := by
  have hmem : ∀ b r, conflictAt root b = some r → r ∈ inorder root := fun b r h =>
    (conflictAt_some h).1
  constructor
  · intro h
    refine ⟨(ends_iff_nodup hmem).mp (h.ends ha), fun l b r hchain hr => ?_⟩
    exact ((h.of_chain ha hchain).next (chain_lt ha hchain) hr).2
  · rintro ⟨honce, hproper⟩
    obtain ⟨l, b, hchain, hend⟩ := (ends_iff_nodup hmem).mpr honce
    exact ⟨l.length + 1, b, mmapPlace_of_chain ha hproper hchain hend, hend⟩

end

theorem chain_le (hlow : ∀ r ∈ inorder root, r.base + r.limit + length < 2 ^ 64 - 1)
    (h : Walk.Chain (conflictAt root) (nextBase length) a l b) :
    a ≤ b ∧ ∀ r ∈ l, r.base + r.limit ≤ b := by
  induction h with
  | nil => exact ⟨le_rfl, by simp⟩
  | @cons a b r l hr rest ih =>
    obtain ⟨hmem, hbase, hlt⟩ := conflictAt_some hr
    have hsum := hlow r hmem
    rw [wrap_of_lt (by omega)] at hlt
    have hnext : nextBase length r = r.base + r.limit + length := wrap_of_lt (by omega)
    obtain ⟨hle, hall⟩ := ih
    refine ⟨by omega, fun s hs => ?_⟩
    rcases List.mem_cons.mp hs with rfl | hs
    · omega
    · exact hall s hs

theorem noReturn_of_low (hlow : ∀ r ∈ inorder root, r.base + r.limit + length < 2 ^ 64 - 1) :
    NoReturn root length a := by
  constructor
  · intro l b h
    induction h with
    | nil => exact List.nodup_nil
    | @cons a b r l hr rest ih =>
      refine List.nodup_cons.mpr ⟨fun hmem => ?_, ih⟩
      -- the region would contain a base at or above its end
      obtain ⟨l₁, l₂, rfl⟩ := List.append_of_mem hmem
      obtain ⟨c, hfirst, hlast⟩ := rest.of_append
      obtain ⟨hr', -, hlt⟩ := conflictAt_some hr
      have hsum := hlow r hr'
      have hle := (chain_le hlow hfirst).1
      rw [nextBase, wrap_of_lt (by omega)] at hle
      cases hlast with
      | cons hagain _ =>
        obtain ⟨-, -, hlt'⟩ := conflictAt_some hagain
        rw [wrap_of_lt (by omega)] at hlt'
        omega
  · intro l b r _ hr heq
    obtain ⟨hmem, hbase, hlt⟩ := conflictAt_some hr
    have hsum := hlow r hmem
    rw [nextBase] at heq
    rw [wrap_of_lt (by omega)] at hlt
    unfold wrap at heq
    omega

end Loop

/-- **The placement loop of `mmap`** ends at a base in no region if and only if the walk from the
bump base meets no region twice and no offset is -1, for every tree, bump base and length. -/
theorem placement_ends_iff (m : RegionMap) (hbump : m.mmapBumpBase < 2 ^ 64) (addr length : ℕ)
    {flags : BitVec 32} (hflags : flags &&& mmapMapFixed = 0#32) :
    (∃ iterations base, mmapBase iterations m addr (alignUp length pageSize) flags = some base ∧
        conflictAt m.mmapRegionRoot base = none) ↔
      NoReturn m.mmapRegionRoot (alignUp length pageSize) m.mmapBumpBase := by
  have hbase : ∀ iterations, mmapBase iterations m addr (alignUp length pageSize) flags =
      mmapPlace m.mmapRegionRoot (alignUp length pageSize) iterations m.mmapBumpBase :=
    fun iterations => if_neg (not_not.mpr hflags)
  simp only [hbase]
  exact placed_iff hbump

def regionAtBump : RegionMap where
  mmapRegionRoot := .node ⟨0x10000, 0x1000, mmapProtRead, mmapMapAnonymous, -1, 0⟩ .nil .nil
  mmapBumpBase := 0x10000

theorem placement_ends_iff_two_pages : ∃ iterations base,
    mmapBase iterations regionAtBump 0 (alignUp 0x1234 pageSize) mmapMapAnonymous = some base ∧
      conflictAt regionAtBump.mmapRegionRoot base = none :=
  (placement_ends_iff regionAtBump (by decide) 0 0x1234 (by decide)).mpr
    (noReturn_of_low (by decide))

/-- **A placement that does not end**: a length of `-PAGE_SIZE` leads from the end of the region
back to its base. -/
theorem placement_loops : regionAtBump.mmapBumpBase < 2 ^ 64 ∧ ∀ iterations,
    mmapBase iterations regionAtBump 0 (alignUp (2 ^ 64 - 0x1000) pageSize) mmapMapAnonymous =
      none := by
  refine ⟨by decide, fun iterations => ?_⟩
  have hbase : mmapBase iterations regionAtBump 0 (alignUp (2 ^ 64 - 0x1000) pageSize)
      mmapMapAnonymous = mmapPlace regionAtBump.mmapRegionRoot
        (alignUp (2 ^ 64 - 0x1000) pageSize) iterations 0x10000 := rfl
  rw [hbase]
  induction iterations with
  | zero => rfl
  | succ iterations ih =>
    exact ih rfl

end Pastoral
