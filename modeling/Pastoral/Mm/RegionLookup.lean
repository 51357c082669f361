import Pastoral.Mm.Vmm

/-!
# The region of an address

The descent of a region tree by an address is written four times.

## Main results

* `lookups_exact_iff`: when they find the region of the address
-/

open List Option SearchTree

namespace Pastoral

variable {N : Type}

def regionAt (root : BinaryTree Region) (a : ℕ) : Option Region :=
  (inorder root).find? fun r => r.Contains a

/-- **The lookups find the region of the address.** -/
structure LookupsExact (t : PageTable N) (address : BitVec 64) (length : ℕ) : Prop where
  search : mmapSearchRegion t.mmapRegionRoot address.toNat =
    regionAt t.mmapRegionRoot address.toNat
  anon : ∀ frame k, vmmAnonMap frame t k address =
    anonMapIn frame t k address (regionAt t.mmapRegionRoot address.toNat)
  file : ∀ assetRead k, vmmFileMap assetRead t k address =
    fileMapIn assetRead t k address (regionAt t.mmapRegionRoot address.toNat)
  validate : validateRegion t.mmapRegionRoot address.toNat length ≠ noConflict ↔
    (regionAt t.mmapRegionRoot address.toNat).isSome

/-- The fields are `uint64_t`, and no two intervals share an address. -/
structure DisjointRegions (root : BinaryTree Region) : Prop where
  ordered : Ordered Region.base root
  bounded : ∀ r ∈ inorder root, r.base < 2 ^ 64 ∧ r.limit < 2 ^ 64
  disjoint : (inorder root).Pairwise fun r s => ∀ a, ¬ (r.Contains a ∧ s.Contains a)

/-- **The path of the address is clear**: a region that contains the address ends below `2 ^ 64`, it
is on the path, no region that is there above it ends at the address, and its offset is not -1; and
if there is no such region, none on the path ends at the address. -/
structure LookupClear (root : BinaryTree Region) (a length : ℕ) : Prop where
  inside : ∀ r ∈ inorder root, r.Contains a → r.base + r.limit < 2 ^ 64 ∧
    wrap (r.base + r.limit - a + length) ≠ noConflict ∧
    ∃ above below, path Region.base a root = above ++ r :: below ∧
      ∀ e ∈ above, e.base + e.limit ≠ a
  outside : (∀ r ∈ inorder root, ¬ r.Contains a) →
    ∀ e ∈ path Region.base a root, e.base + e.limit ≠ a

section Lookup

variable {root : BinaryTree Region} {r s : Region} {a length : ℕ}

theorem DisjointRegions.eq_of_contains (h : DisjointRegions root) (hr : r ∈ inorder root)
    (hs : s ∈ inorder root) (hra : r.Contains a) (hsa : s.Contains a) : r = s := by
  refine Pairwise.forall_of_forall_of_flip
    (R := fun r s : Region => r.Contains a → s.Contains a → r = s) ?_ ?_ ?_ hr hs hra hsa
  · exact fun _ _ _ _ => rfl
  · exact h.disjoint.imp fun hxy hx hy => absurd ⟨hx, hy⟩ (hxy a)
  · exact h.disjoint.imp fun hxy hy hx => absurd ⟨hx, hy⟩ (hxy a)

theorem regionAt_some (h : regionAt root a = some r) : r ∈ inorder root ∧ r.Contains a := by
  have hr := find?_some h
  exact ⟨mem_of_find?_eq_some h, of_decide_eq_true hr⟩

theorem regionAt_eq_none_iff : regionAt root a = none ↔ ∀ r ∈ inorder root, ¬ r.Contains a := by
  simp [regionAt]

theorem DisjointRegions.regionAt_eq_some (h : DisjointRegions root) (hr : r ∈ inorder root)
    (ha : r.Contains a) : regionAt root a = some r := by
  cases hfind : regionAt root a with
  | none => exact absurd ha (regionAt_eq_none_iff.mp hfind r hr)
  | some s =>
    obtain ⟨hs, hsa⟩ := regionAt_some hfind
    rw [h.eq_of_contains hs hr hsa ha]

theorem searchStop_iff (hr : r.base < 2 ^ 64 ∧ r.limit < 2 ^ 64) (ha : a < 2 ^ 64) :
    (r.base ≤ a ∧ a ≤ wrap (r.base + r.limit)) ↔
      r.base + r.limit < 2 ^ 64 ∧ (r.Contains a ∨ r.base + r.limit = a) := by
  unfold Region.Contains
  by_cases hend : r.base + r.limit < 2 ^ 64
  · rw [wrap_of_lt hend]
    omega
  · -- the end is below the base
    have hwrap : wrap (r.base + r.limit) = r.base + r.limit - 2 ^ 64 := by
      unfold wrap
      omega
    omega

theorem validateStop_iff (hr : r.base < 2 ^ 64 ∧ r.limit < 2 ^ 64) :
    (r.base ≤ a ∧ a < wrap (r.base + r.limit)) ↔ r.base + r.limit < 2 ^ 64 ∧ r.Contains a := by
  unfold Region.Contains
  by_cases hend : r.base + r.limit < 2 ^ 64
  · rw [wrap_of_lt hend]
    omega
  · have hwrap : wrap (r.base + r.limit) = r.base + r.limit - 2 ^ 64 := by
      unfold wrap
      omega
    omega

theorem DisjointRegions.searchStop (h : DisjointRegions root) (ha : a < 2 ^ 64)
    (hr : r ∈ path Region.base a root) :
    (r.base ≤ a ∧ a ≤ wrap (r.base + r.limit)) ↔
      r.base + r.limit < 2 ^ 64 ∧ (r.Contains a ∨ r.base + r.limit = a) :=
  searchStop_iff (h.bounded r (mem_of_mem_path hr)) ha

theorem mmapSearchRegion_inside (h : DisjointRegions root) (ha : a < 2 ^ 64)
    (hr : r ∈ inorder root) (hra : r.Contains a) :
    mmapSearchRegion root a = some r ↔ r.base + r.limit < 2 ^ 64 ∧
      ∃ above below, path Region.base a root = above ++ r :: below ∧
        ∀ e ∈ above, e.base + e.limit ≠ a := by
  rw [mmapSearchRegion, search_eq_find?]
  constructor
  · intro hfind
    obtain ⟨hstop, above, below, hpath, habove⟩ := find?_eq_some_iff_append.mp hfind
    have hmem := mem_of_find?_eq_some hfind
    refine ⟨((h.searchStop ha hmem).mp (of_decide_eq_true hstop)).1, above, below, hpath, ?_⟩
    intro e he hend
    have hmem := hpath ▸ mem_append_left _ he
    have hstop := (h.searchStop ha hmem).mpr ⟨by omega, .inr hend⟩
    have hnot := habove e he
    rw [decide_eq_true hstop] at hnot
    exact absurd hnot (by decide)
  · rintro ⟨hend, above, below, hpath, habove⟩
    have hmem : r ∈ path Region.base a root := by
      rw [hpath]
      simp
    rw [hpath, find?_append]
    cases hfind : above.find? fun r => decide (r.base ≤ a ∧ a ≤ wrap (r.base + r.limit)) with
    | none =>
      have hstop := (h.searchStop ha hmem).mpr ⟨hend, .inl hra⟩
      rw [none_or]
      exact find?_cons_of_pos (by exact decide_eq_true hstop)
    | some e =>
      -- a region above it does not end at the address, so it contains the address
      have he := mem_of_find?_eq_some hfind
      have hstop := find?_some hfind
      have hpath' := hpath ▸ mem_append_left _ he
      obtain ⟨-, hcontains⟩ := (h.searchStop ha hpath').mp (of_decide_eq_true hstop)
      rw [h.eq_of_contains (mem_of_mem_path hpath') hr
        (hcontains.resolve_right (habove e he)) hra, some_or]

theorem mmapSearchRegion_outside (h : DisjointRegions root) (ha : a < 2 ^ 64)
    (hnone : ∀ r ∈ inorder root, ¬ r.Contains a) :
    mmapSearchRegion root a = none ↔ ∀ e ∈ path Region.base a root, e.base + e.limit ≠ a := by
  rw [mmapSearchRegion, search_eq_find?, find?_eq_none]
  refine forall₂_congr fun e he => ?_
  rw [decide_eq_true_eq, h.searchStop ha he]
  have hout := hnone e (mem_of_mem_path he)
  constructor
  · exact fun hnot hend => hnot ⟨by omega, .inr hend⟩
  · exact fun hne hstop => hstop.2.elim hout hne

theorem validateRegion_inside (h : DisjointRegions root) (hr : r ∈ path Region.base a root)
    (hra : r.Contains a) (hend : r.base + r.limit < 2 ^ 64) (length : ℕ) :
    validateRegion root a length = wrap (r.base + r.limit - a + length) := by
  have hvalue : wrap (r.base + r.limit + (2 ^ 64 - a) + length) =
      wrap (r.base + r.limit - a + length) := by
    have := hra.2
    unfold wrap
    omega
  have hfind : (path Region.base a root).find?
      (fun r => decide (r.base ≤ a ∧ a < wrap (r.base + r.limit))) = some r := by
    cases hfind : (path Region.base a root).find?
        fun r => decide (r.base ≤ a ∧ a < wrap (r.base + r.limit)) with
    | none =>
      have hstop := (validateStop_iff (h.bounded r (mem_of_mem_path hr))).mpr ⟨hend, hra⟩
      exact absurd (decide_eq_true hstop) (find?_eq_none.mp hfind r hr)
    | some e =>
      have he := mem_of_mem_path (mem_of_find?_eq_some hfind)
      have hstop := find?_some hfind
      obtain ⟨-, hea⟩ := (validateStop_iff (h.bounded e he)).mp (of_decide_eq_true hstop)
      rw [h.eq_of_contains he (mem_of_mem_path hr) hea hra]
  rw [validateRegion, search_eq_find?, hfind]
  exact hvalue

theorem validateRegion_outside (h : DisjointRegions root)
    (hnone : ∀ r ∈ inorder root, ¬ r.Contains a) (length : ℕ) :
    validateRegion root a length = noConflict := by
  have hfind : (path Region.base a root).find?
      (fun r => decide (r.base ≤ a ∧ a < wrap (r.base + r.limit))) = none := by
    refine find?_eq_none.mpr fun e he hstop => ?_
    have hmem := mem_of_mem_path he
    exact hnone e hmem ((validateStop_iff (h.bounded e hmem)).mp (of_decide_eq_true hstop)).2
  rw [validateRegion, search_eq_find?, hfind]

end Lookup

section Tables

variable {t : PageTable N} {address : BitVec 64} {length : ℕ}

theorem lookupsExact_iff : LookupsExact t address length ↔
    mmapSearchRegion t.mmapRegionRoot address.toNat = regionAt t.mmapRegionRoot address.toNat ∧
      (validateRegion t.mmapRegionRoot address.toNat length ≠ noConflict ↔
        (regionAt t.mmapRegionRoot address.toNat).isSome) := by
  refine ⟨fun h => ⟨h.search, h.validate⟩, fun ⟨hsearch, hvalidate⟩ => ⟨hsearch, ?_, ?_, hvalidate⟩⟩
  · exact fun frame k => congrArg (anonMapIn frame t k address) hsearch
  · exact fun assetRead k => congrArg (fileMapIn assetRead t k address) hsearch

/-- **The lookups find the region of the address** if and only if the path of the address is clear,
in every search tree of disjoint intervals. -/
theorem lookups_exact_iff (h : DisjointRegions t.mmapRegionRoot) :
    LookupsExact t address length ↔ LookupClear t.mmapRegionRoot address.toNat length := by
  have ha : address.toNat < 2 ^ 64 := address.isLt
  rw [lookupsExact_iff]
  generalize t.mmapRegionRoot = root at h
  generalize address.toNat = a at ha
  constructor
  · rintro ⟨hsearch, hvalidate⟩
    refine ⟨fun r hr hra => ?_, fun hnone => ?_⟩
    · have hat : regionAt root a = some r := h.regionAt_eq_some hr hra
      obtain ⟨hend, above, below, hpath, habove⟩ :=
        (mmapSearchRegion_inside h ha hr hra).mp (hsearch.trans hat)
      have hmem : r ∈ path Region.base a root := by
        rw [hpath]
        simp
      rw [hat, validateRegion_inside h hmem hra hend] at hvalidate
      exact ⟨hend, hvalidate.mpr rfl, above, below, hpath, habove⟩
    · exact (mmapSearchRegion_outside h ha hnone).mp
        (hsearch.trans (regionAt_eq_none_iff.mpr hnone))
  · intro hclear
    cases hat : regionAt root a with
    | none =>
      have hnone := regionAt_eq_none_iff.mp hat
      refine ⟨(mmapSearchRegion_outside h ha hnone).mpr (hclear.outside hnone), ?_⟩
      simp [validateRegion_outside h hnone]
    | some r =>
      obtain ⟨hr, hra⟩ := regionAt_some hat
      obtain ⟨hend, hoffset, above, below, hpath, habove⟩ := hclear.inside r hr hra
      have hmem : r ∈ path Region.base a root := by
        rw [hpath]
        simp
      refine ⟨(mmapSearchRegion_inside h ha hr hra).mpr ⟨hend, above, below, hpath, habove⟩, ?_⟩
      rw [validateRegion_inside h hmem hra hend]
      exact iff_of_true hoffset rfl

end Tables

def adjacentRegions : PageTable Unit where
  mmapRegionRoot := .node ⟨0x10000, 0x1000, mmapProtRead, mmapMapAnonymous, -1, 0⟩ .nil
    (.node ⟨0x11000, 0x1000, mmapProtWrite, mmapMapAnonymous, -1, 0⟩ .nil .nil)
  mmapBumpBase := 0x20000
  leaves := fun _ => 0#64
  pages := HashTable.empty

theorem disjointRegions_adjacent : DisjointRegions adjacentRegions.mmapRegionRoot where
  ordered := by simp [adjacentRegions, Ordered]
  bounded := by simp [adjacentRegions]
  disjoint := by
    simp only [adjacentRegions, inorder_node, inorder_nil, nil_append, pairwise_cons,
      mem_singleton, forall_eq, not_mem_nil, false_implies, implies_true,
      Pairwise.nil, and_true]
    rintro a ⟨⟨-, hlt⟩, hle, -⟩
    dsimp only at hlt hle
    omega

theorem lookups_exact_iff_inside : LookupsExact adjacentRegions 0x11008#64 0x1000 := by
  refine (lookups_exact_iff disjointRegions_adjacent).mpr ⟨fun r hr hra => ?_, fun hnone => ?_⟩
  · have hcases : r = ⟨0x10000, 0x1000, mmapProtRead, mmapMapAnonymous, -1, 0⟩ ∨
        r = ⟨0x11000, 0x1000, mmapProtWrite, mmapMapAnonymous, -1, 0⟩ := by
      simpa [adjacentRegions] using hr
    rcases hcases with rfl | rfl
    · exact absurd hra (by decide)
    · exact ⟨by decide, by decide, [⟨0x10000, 0x1000, mmapProtRead, mmapMapAnonymous, -1, 0⟩], [],
        by decide, by decide⟩
  · exact absurd hnone (by decide)

/-- **A lookup that finds the region below**: at the base of the upper region, the lower one is
found, and so a fault maps a page with its protection. -/
theorem lookups_find_region_below : DisjointRegions adjacentRegions.mmapRegionRoot ∧
    mmapSearchRegion adjacentRegions.mmapRegionRoot 0x11000 =
      some ⟨0x10000, 0x1000, mmapProtRead, mmapMapAnonymous, -1, 0⟩ ∧
    regionAt adjacentRegions.mmapRegionRoot 0x11000 =
      some ⟨0x11000, 0x1000, mmapProtWrite, mmapMapAnonymous, -1, 0⟩ ∧
    ¬ LookupsExact adjacentRegions 0x11000#64 0x1000 := by
  refine ⟨disjointRegions_adjacent, by decide, by decide, fun hexact => ?_⟩
  exact absurd hexact.search (by decide)

end Pastoral
