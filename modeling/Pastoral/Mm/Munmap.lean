import Pastoral.Lib.Bst
import Pastoral.Mm.Vmm

/-!
# Unmapping

`munmap` over regions that are nodes of a heap, as the deletion needs their parent pointers.

## Main definitions

* `Chain`: regions one behind the other, as the lookups find them

## Main results

* `munmap_exact`: when exactly the range is removed
-/

open List Option Probe SearchTree TreeHeap

namespace Pastoral

variable {N : Type}

structure Space (N : Type) where
  mmapRegionRoot : Option ℕ
  mmapBumpBase : ℕ
  leaves : BitVec 64 → BitVec 64
  pages : HashTable (BitVec 64) (Page N)

structure MapKernel (N : Type) where
  heap : Heap Region
  kernel : Kernel
  sharedPages : N → HashTable (BitVec 64) (Page N)
  files : N → ℤ → BitVec 8

/-- What `munmap` uses of the assets: whether one has a `shared` callback, and the contents of the
file after its `write` of a page at an offset, which need not succeed. -/
structure AssetOps (N : Type) where
  shared : N → Bool
  write : N → ℤ → (ℕ → BitVec 8) → (ℤ → BitVec 8) → ℤ → BitVec 8

/-- The write that succeeds. -/
def overwrite (offset : ℤ) (contents : ℕ → BitVec 8) (file : ℤ → BitVec 8) (i : ℤ) : BitVec 8 :=
  if offset ≤ i ∧ i < offset + pageSize then contents (i - offset).toNat else file i

def plainOps : AssetOps Unit := ⟨fun _ => false, fun _ => overwrite⟩

def MapKernel.mmapSearchRegion (k : MapKernel N) (t : Space N) (base : ℕ) :
    Option (Option ℕ) :=
  TreeHeap.search Region.base (fun r => r.base ≤ base ∧ base ≤ wrap (r.base + r.limit)) base k.heap
    k.heap.length t.mmapRegionRoot

section Model

variable [DecidableEq N] (ops : AssetOps N)

def munmapShared (page : Page N) (k : MapKernel N) : MapKernel N :=
  let k := { k with kernel := k.kernel.addReference page.reference (-1) }
  match page.node with
  | none => k
  | some node =>
    if k.kernel.references page.reference = 0 then
      { k with
        files := if ops.shared node then k.files
          else Function.update k.files node
            (ops.write node page.offset (k.kernel.mem page.paddr) (k.files node))
        -- the entry was pushed with the offset for its key
        sharedPages := Function.update k.sharedPages node
          (hashTableDelete addressHash (k.sharedPages node) page.vaddr) }
    else k

def Space.unmapPage (t : Space N) (base : BitVec 64) : Space N :=
  { t with
    leaves := Function.update t.leaves (pageOf base) (t.leaves (pageOf base) &&& ~~~vmmFlagsP) }

def munmapPage (base : BitVec 64) (t : Space N) (k : MapKernel N) : Space N × MapKernel N :=
  match hashTableSearch addressHash t.pages base with
  | none => (t.unmapPage base, k)
  | some page =>
    (Space.unmapPage { t with pages := hashTableDelete addressHash t.pages base } base,
      if page.flags &&& vmmShareFlag ≠ 0#64 then munmapShared ops page k else k)

def munmapPages : ℕ → BitVec 64 → Space N → MapKernel N → Space N × MapKernel N
  | 0, _, t, k => (t, k)
  | n + 1, base, t, k =>
    let (t, k) := munmapPage ops base t k
    munmapPages n (base + 0x1000#64) t k

def upperSplit (region : Region) (length : ℕ) : Region :=
  { region with
    base := wrap (region.base + length), limit := wrap (length + (2 ^ 64 - region.limit)) }

def lowerSplit (region : Region) (base : ℕ) : Region :=
  { region with limit := region.base - base }

def MapKernel.allocRegion (k : MapKernel N) (region : Region) : ℕ × MapKernel N :=
  (k.heap.length, { k with heap := k.heap ++ [⟨region, none, none, none⟩] })

def munmapRegion (t : Space N) (k : MapKernel N) (p base length : ℕ) :
    Option (Space N × MapKernel N) := do
  let region ← k.heap[p]?
  let (lower, k) := if base < region.val.base then
      let (q, k) := k.allocRegion (lowerSplit region.val base)
      (some q, k)
    else (none, k)
  let (upper, k) := if length < region.val.limit then
      let (q, k) := k.allocRegion (upperSplit region.val length)
      (some q, k)
    else (none, k)
  let (heap, root) ← bstGenericDelete Region.base k.heap t.mmapRegionRoot p
  let (heap, root) ← bstGenericInsert Region.base heap root lower
  let (heap, root) ← bstGenericInsert Region.base heap root upper
  some (munmapPages ops (region.val.limit / pageSize) (BitVec.ofNat 64 base)
    { t with mmapRegionRoot := root } { k with heap := heap })

def munmapWithin : ℕ → Space N → MapKernel N → ℕ → ℕ → Option (ℤ × Space N × MapKernel N)
  | 0, _, _, _, _ => none
  | depth + 1, t, k, base, length =>
    if length = 0 ∨ base = 0 then some (-1, t, k)
    else if base % pageSize ≠ 0 ∨ length % pageSize ≠ 0 then some (-1, t, k)
    else
      match k.mmapSearchRegion t base with
      | none => none
      | some none => some (0, t, k)
      | some (some p) =>
        match k.heap[p]? with
        | none => none
        | some region =>
          if region.val.limit < length then
            (munmapWithin depth t k (wrap (base + region.val.limit))
                (length - region.val.limit)).bind fun (_, t, k) =>
              (munmapRegion ops t k p base region.val.limit).map fun tk => (0, tk)
          else (munmapRegion ops t k p base length).map fun tk => (0, tk)

def munmap (t : Space N) (k : MapKernel N) (addr length : ℕ) :
    Option (ℤ × Space N × MapKernel N) :=
  munmapWithin ops (length + 1) t k addr length

end Model

/-! ## What the calls do -/

section Rules

variable {ops : AssetOps N} {t t' : Space N} {k k' : MapKernel N} {base length : ℕ}

/-- A region that a call allocates, or none. -/
def Allocates (k : MapKernel N) (q : Option ℕ) (k' : MapKernel N) : Prop :=
  q = none ∧ k' = k ∨ ∃ r, q = some (k.allocRegion r).1 ∧ k' = (k.allocRegion r).2

theorem allocates_ite (c : Prop) [Decidable c] (r : Region) :
    Allocates k (if c then (some (k.allocRegion r).1, (k.allocRegion r).2) else (none, k)).1
      (if c then (some (k.allocRegion r).1, (k.allocRegion r).2) else (none, k)).2 := by
  split_ifs
  · exact .inr ⟨r, rfl, rfl⟩
  · exact .inl ⟨rfl, rfl⟩

variable [DecidableEq N]

theorem munmapRegion_cases {p : ℕ}
    (h : munmapRegion ops t k p base length = some (t', k')) :
    ∃ lower upper k₁ k₂ n, Allocates k lower k₁ ∧ Allocates k₁ upper k₂ ∧ ∃ h₁ r₁ h₂ r₂ h₃ r₃,
      bstGenericDelete Region.base k₂.heap t.mmapRegionRoot p = some (h₁, r₁) ∧
      bstGenericInsert Region.base h₁ r₁ lower = some (h₂, r₂) ∧
      bstGenericInsert Region.base h₂ r₂ upper = some (h₃, r₃) ∧
      munmapPages ops n (BitVec.ofNat 64 base) { t with mmapRegionRoot := r₃ }
        { k₂ with heap := h₃ } = (t', k') := by
  rw [munmapRegion] at h
  simp only [bind_eq_bind] at h
  obtain ⟨region, -, h⟩ := bind_eq_some_iff.mp h
  have hlower := allocates_ite (k := k) (base < region.val.base) (lowerSplit region.val base)
  generalize (if base < region.val.base then _ else _) = first at hlower h
  have hupper :=
    allocates_ite (k := first.2) (length < region.val.limit) (upperSplit region.val length)
  generalize (if length < region.val.limit then _ else _) = second at hupper h
  obtain ⟨⟨h₁, r₁⟩, hdelete, h⟩ := bind_eq_some_iff.mp h
  obtain ⟨⟨h₂, r₂⟩, hinsert, h⟩ := bind_eq_some_iff.mp h
  obtain ⟨⟨h₃, r₃⟩, hinsert', h⟩ := bind_eq_some_iff.mp h
  exact ⟨_, _, _, _, _, hlower, hupper, h₁, r₁, h₂, r₂, h₃, r₃, hdelete, hinsert, hinsert',
    some.inj h⟩

/-- **Induction over `munmap`**: the later regions go first, then the one found at the address. -/
theorem munmapWithin_induct {P : Space N → MapKernel N → Space N → MapKernel N → Prop}
    (hsame : ∀ t k, P t k t k)
    (hregion : ∀ {t k t₁ k₁ t' k' p base length}, base % pageSize = 0 →
      k.mmapSearchRegion t base = some (some p) → P t k t₁ k₁ →
      munmapRegion ops t₁ k₁ p base length = some (t', k') → P t k t' k')
    {depth : ℕ} {ret : ℤ}
    (hcall : munmapWithin ops depth t k base length = some (ret, t', k')) :
    P t k t' k' := by
  induction depth generalizing t k t' k' base length ret with
  | zero => exact absurd hcall (by simp [munmapWithin])
  | succ depth ih =>
    have hstay : ∀ {ret' : ℤ}, some (ret', t, k) = some (ret, t', k') → P t k t' k' := by
      intro ret' heq
      obtain ⟨-, rfl, rfl⟩ : ret' = ret ∧ t = t' ∧ k = k' := by simpa using heq
      exact hsame t k
    rw [munmapWithin] at hcall
    split_ifs at hcall with hzero hunaligned
    · exact hstay hcall
    · exact hstay hcall
    have hbase : base % pageSize = 0 := by
      by_contra hne
      exact hunaligned (.inl hne)
    cases hsearch : k.mmapSearchRegion t base with
    | none => simp [hsearch] at hcall
    | some found =>
      rw [hsearch] at hcall
      cases found with
      | none => exact hstay hcall
      | some p =>
        dsimp only at hcall
        cases hn : k.heap[p]? with
        | none => simp [hn] at hcall
        | some region =>
          rw [hn] at hcall
          dsimp only at hcall
          split_ifs at hcall
          · obtain ⟨⟨ret₁, t₁, k₁⟩, hrest, hcall⟩ := bind_eq_some_iff.mp hcall
            obtain ⟨tk, hlast, heq⟩ := map_eq_some_iff.mp hcall
            obtain ⟨-, rfl⟩ : (0 : ℤ) = ret ∧ tk = (t', k') := by simpa using heq
            exact hregion hbase hsearch (ih hrest) hlast
          · obtain ⟨tk, hlast, heq⟩ := map_eq_some_iff.mp hcall
            obtain ⟨-, rfl⟩ : (0 : ℤ) = ret ∧ tk = (t', k') := by simpa using heq
            exact hregion hbase hsearch (hsame t k) hlast

end Rules

/-! ## The page loop -/

def InRange (lo len a : ℕ) : Prop := lo ≤ a ∧ a < lo + len
  deriving Decidable

/-- A `pages` table that is a map from the addresses of its pages. -/
structure PagesKeyed (pages : HashTable (BitVec 64) (Page N)) : Prop where
  good : pages.Good addressHash
  keyed : ∀ {v page}, (v, page) ∈ entries pages.slots → page.vaddr = v ∧ pageOf v = v

theorem pagesKeyed_empty : PagesKeyed (HashTable.empty : HashTable (BitVec 64) (Page N)) :=
  ⟨good_empty, fun h => absurd h not_mem_nil⟩

structure PagesDropped (lo len : ℕ) (t t' : Space N) : Prop where
  keyed : PagesKeyed t'.pages
  entry_iff : ∀ v page, (v, page) ∈ entries t'.pages.slots ↔
    (v, page) ∈ entries t.pages.slots ∧ ¬ InRange lo len v.toNat
  present_iff : ∀ v, pageOf v = v →
    ((t'.leaves v).getLsbD 0 = true ↔ (t.leaves v).getLsbD 0 = true ∧ ¬ InRange lo len v.toNat)

section PageLoop

variable {t t' t'' : Space N} {k : MapKernel N} {base : BitVec 64} {lo len len' : ℕ}

theorem PagesDropped.refl (h : PagesKeyed t.pages) : PagesDropped lo 0 t t := by
  have hempty : ∀ a, ¬ InRange lo 0 a := fun a ha => by
    obtain ⟨h₁, h₂⟩ := ha
    omega
  exact ⟨h, fun v _ => (and_iff_left (hempty _)).symm, fun v _ => (and_iff_left (hempty _)).symm⟩

theorem PagesDropped.trans {lo₁ len₁ lo₂ len₂ : ℕ} (h₁ : PagesDropped lo₁ len₁ t t')
    (h₂ : PagesDropped lo₂ len₂ t' t'')
    (hunion : ∀ v : BitVec 64, pageOf v = v →
      (InRange lo len v.toNat ↔ InRange lo₁ len₁ v.toNat ∨ InRange lo₂ len₂ v.toNat))
    (hkeyed : PagesKeyed t.pages) : PagesDropped lo len t t'' := by
  refine ⟨h₂.keyed, fun v page => ?_, fun v hv => ?_⟩
  · rw [h₂.entry_iff, h₁.entry_iff, and_assoc, ← not_or]
    refine and_congr_right fun hmem => ?_
    rw [hunion v (hkeyed.keyed hmem).2]
  · rw [h₂.present_iff v hv, h₁.present_iff v hv, and_assoc, ← not_or, hunion v hv]

theorem pageOf_eq_self_iff {v : BitVec 64} : pageOf v = v ↔ v.toNat % pageSize = 0 := by
  have hnat := pageOf_toNat v
  constructor
  · intro heq
    rw [heq] at hnat
    unfold pageSize
    omega
  · intro hmod
    refine BitVec.eq_of_toNat_eq ?_
    unfold pageSize at hmod
    omega

theorem inRange_page_iff {v : BitVec 64} (hv : pageOf v = v) (hbase : pageOf base = base) :
    InRange base.toNat pageSize v.toNat ↔ v = base := by
  rw [pageOf_eq_self_iff] at hv hbase
  unfold InRange pageSize at *
  refine ⟨fun ⟨h₁, h₂⟩ => BitVec.eq_of_toNat_eq (by omega), ?_⟩
  rintro rfl
  omega

theorem getLsbD_unmapPage (v : BitVec 64) : ((t.unmapPage base).leaves v).getLsbD 0 = true ↔
      (t.leaves v).getLsbD 0 = true ∧ v ≠ pageOf base := by
  unfold Space.unmapPage
  dsimp only
  by_cases hv : v = pageOf base
  · subst hv
    simp [vmmFlagsP]
  · simp [hv]

variable [DecidableEq N] {ops : AssetOps N}

theorem munmapPage_spec (h : PagesKeyed t.pages) (hbase : pageOf base = base) :
    PagesDropped base.toNat pageSize t (munmapPage ops base t k).1 := by
  obtain ⟨hgood, hmem⟩ := hashTableDelete_good (k := base) h.good
  have hpresent : ∀ {t' : Space N}, t'.leaves = t.leaves → ∀ v, pageOf v = v →
      (((t'.unmapPage base).leaves v).getLsbD 0 = true ↔
        (t.leaves v).getLsbD 0 = true ∧ ¬ InRange base.toNat pageSize v.toNat) := by
    intro t' hleaves v hv
    rw [getLsbD_unmapPage, hleaves, inRange_page_iff hv hbase, hbase]
  unfold munmapPage
  cases hsearch : hashTableSearch addressHash t.pages base with
  | none =>
    -- a page that was never entered
    have habsent := (hashTableSearch_eq_none_iff h.good).mp hsearch
    refine ⟨h, fun v page => ⟨fun hv => ⟨hv, ?_⟩, And.left⟩, hpresent rfl⟩
    rw [inRange_page_iff (h.keyed hv).2 hbase]
    rintro rfl
    exact habsent (mem_keys_iff.mpr ⟨page, hv⟩)
  | some page =>
    refine ⟨⟨hgood, fun hv => h.keyed ((hmem _ _).mp hv).2⟩, fun v page => ?_, hpresent rfl⟩
    refine (hmem v page).trans ⟨fun ⟨hne, hv⟩ => ⟨hv, ?_⟩, fun ⟨hv, hout⟩ => ⟨?_, hv⟩⟩
    · rwa [inRange_page_iff (h.keyed hv).2 hbase]
    · rwa [inRange_page_iff (h.keyed hv).2 hbase] at hout

theorem munmapPage_regions (base : BitVec 64) (t : Space N) (k : MapKernel N) :
    (munmapPage ops base t k).1.mmapRegionRoot = t.mmapRegionRoot ∧
      (munmapPage ops base t k).2.heap = k.heap := by
  unfold munmapPage munmapShared
  cases hashTableSearch addressHash t.pages base with
  | none => exact ⟨rfl, rfl⟩
  | some page =>
    refine ⟨rfl, ?_⟩
    dsimp only
    cases page.node <;> split_ifs <;> rfl

theorem munmapPages_regions (ops : AssetOps N) (n : ℕ) (base : BitVec 64) (t : Space N)
    (k : MapKernel N) :
    (munmapPages ops n base t k).1.mmapRegionRoot = t.mmapRegionRoot ∧
      (munmapPages ops n base t k).2.heap = k.heap := by
  induction n generalizing base t k with
  | zero => exact ⟨rfl, rfl⟩
  | succ n ih =>
    exact ⟨(ih ..).1.trans (munmapPage_regions base t k).1,
      (ih ..).2.trans (munmapPage_regions base t k).2⟩

theorem munmapPages_spec (ops : AssetOps N) (k : MapKernel N) (n : ℕ)
    (h : PagesKeyed t.pages) (hbase : pageOf base = base)
    (hbound : base.toNat + n * pageSize ≤ 2 ^ 64) :
    PagesDropped base.toNat (n * pageSize) t (munmapPages ops n base t k).1 := by
  induction n generalizing base t k with
  | zero => simpa [munmapPages] using PagesDropped.refl h
  | succ n ih =>
    have hone : PagesDropped base.toNat pageSize t (munmapPage ops base t k).1 :=
      munmapPage_spec h hbase
    cases n with
    | zero => simpa [munmapPages] using hone
    | succ n =>
      -- the next address does not wrap, as there is another page
      have hnext : (base + 0x1000#64).toNat = base.toNat + pageSize := by
        rw [BitVec.toNat_add]
        unfold pageSize at hbound ⊢
        simp only [BitVec.toNat_ofNat]
        omega
      have hbase' : pageOf (base + 0x1000#64) = base + 0x1000#64 := by
        rw [pageOf_eq_self_iff] at hbase ⊢
        rw [hnext, Nat.add_mod_right, hbase]
      have hrest := ih (munmapPage ops base t k).2 hone.keyed hbase'
        (by rw [hnext]; unfold pageSize at *; omega)
      refine hone.trans hrest (fun v _ => ?_) h
      rw [hnext]
      unfold InRange pageSize
      omega

end PageLoop

/-! ## The regions -/

def MapKernel.regionsOf (k : MapKernel N) (t : Space N) : List (ℕ × Region) :=
  read k.heap k.heap.length t.mmapRegionRoot

/-- **The regions form a search tree of disjoint intervals.** -/
structure IntervalTree (h : Heap Region) (root : Option ℕ) (tree : BinaryTree (ℕ × Region)) :
    Prop where
  links : Links h (fun _ => True) none root tree
  nodup : (pointers tree).Nodup
  ordered : (inorder tree).Pairwise fun x y => x.2.base + x.2.limit ≤ y.2.base
  limit_pos : ∀ x ∈ inorder tree, 0 < x.2.limit
  bounded : ∀ x ∈ inorder tree, x.2.base + x.2.limit ≤ 2 ^ 64

/-- **The regions form a search tree of disjoint page-aligned intervals.** -/
structure RegionTree (h : Heap Region) (root : Option ℕ) (tree : BinaryTree (ℕ × Region)) : Prop
    extends IntervalTree h root tree where
  aligned : ∀ x ∈ inorder tree, x.2.base % pageSize = 0 ∧ x.2.limit % pageSize = 0

def SearchStop (a : ℕ) (r : Region) : Prop := r.base ≤ a ∧ a ≤ wrap (r.base + r.limit)
  deriving Decidable

section Trees

variable {h : Heap Region} {root : Option ℕ} {tree : BinaryTree (ℕ × Region)} {x y z : ℕ × Region}
  {t : Space N} {k : MapKernel N} {b p : ℕ} {n : Node Region}

theorem IntervalTree.sorted (ht : IntervalTree h root tree) : Sorted Region.base (inorder tree) := by
  refine ht.ordered.imp_of_mem fun hx _ hle => ?_
  have hpos := ht.limit_pos _ hx
  omega

theorem IntervalTree.apart (ht : IntervalTree h root tree) (hx : x ∈ inorder tree)
    (hy : y ∈ inorder tree) : x = y ∨ x.2.base + x.2.limit ≤ y.2.base ∨
      y.2.base + y.2.limit ≤ x.2.base := by
  by_cases hxy : x = y
  · exact .inl hxy
  refine .inr (Pairwise.forall_of_forall_of_flip (R := fun x y : ℕ × Region => x = y ∨
    x.2.base + x.2.limit ≤ y.2.base ∨ y.2.base + y.2.limit ≤ x.2.base) ?_ ?_ ?_ hx hy
      |>.resolve_left hxy)
  · exact fun z _ => .inl rfl
  · exact ht.ordered.imp fun hle => .inr (.inl hle)
  · exact ht.ordered.imp fun hle => .inr (.inr hle)

theorem IntervalTree.length_le (ht : IntervalTree h root tree) :
    (inorder tree).length ≤ h.length := ht.links.length_le ht.nodup

theorem regionsOf_eq {ok : ℕ → Prop} (hl : Links k.heap ok none t.mmapRegionRoot tree)
    (hnodup : (pointers tree).Nodup) : k.regionsOf t = inorder tree :=
  read_eq hl (hl.length_le hnodup)

theorem IntervalTree.search_eq (ht : IntervalTree k.heap t.mmapRegionRoot tree) (b : ℕ) :
    k.mmapSearchRegion t b = some ((SearchTree.search (fun x : ℕ × Region => x.2.base)
      (fun x => SearchStop b x.2) b tree).map Prod.fst) :=
  TreeHeap.search_eq Region.base (fun r => SearchStop b r) b ht.links ht.length_le

theorem IntervalTree.lookup (ht : IntervalTree k.heap t.mmapRegionRoot tree)
    (hsearch : k.mmapSearchRegion t b = some (some p)) (hn : k.heap[p]? = some n) :
    SearchTree.search (fun x : ℕ × Region => x.2.base) (fun x => SearchStop b x.2) b tree =
        some (p, n.val) ∧ (p, n.val) ∈ inorder tree := by
  rw [ht.search_eq] at hsearch
  obtain ⟨x, hx, rfl⟩ := map_eq_some_iff.mp (some.inj hsearch)
  have hmem := (search_spec hx).1
  obtain ⟨m, hm, hval⟩ := ht.links.val_eq hmem
  obtain rfl : n = m := some.inj (hn.symm.trans hm)
  have heq : x = (x.1, n.val) := Prod.ext rfl hval.symm
  rw [← heq]
  exact ⟨hx, hmem⟩

theorem search_left {tree : BinaryTree (ℕ × Region)}
    (hsearch : SearchTree.search (fun x : ℕ × Region => x.2.base) (fun x => SearchStop b x.2) b tree =
      some z)
    (hordered : (inorder tree).Pairwise fun x y => x.2.base + x.2.limit ≤ y.2.base)
    (hpos : ∀ x ∈ inorder tree, 0 < x.2.limit) (hx : x ∈ inorder tree) (hz : z.2.base = b)
    (hend : x.2.base + x.2.limit = b) (hb : b < 2 ^ 64) :
    ∃ c l r, tree = plug c (.node z l r) ∧ x ∈ inorder l := by
  induction tree with
  | nil => exact absurd hx not_mem_nil
  | node y l r ihl ihr =>
    obtain ⟨hl, hyr, hlyr⟩ := pairwise_append.mp hordered
    obtain ⟨hyr, hr⟩ := pairwise_cons.mp hyr
    have hypos := hpos y (by simp)
    have hright : ∀ w ∈ inorder r, y.2.base < w.2.base := fun w hw => by
      have hle := hyr w hw
      omega
    rw [inorder_node, mem_append, mem_cons] at hx
    rw [SearchTree.search] at hsearch
    split_ifs at hsearch with hstop hlt
    · -- found here: only the left subtree has smaller bases
      obtain rfl : y = z := some.inj hsearch
      refine ⟨[], l, r, rfl, hx.resolve_right ?_⟩
      rintro (rfl | hx)
      · omega
      · have hlt := hright x hx
        omega
    · have hxl : x ∈ inorder l := by
        refine hx.resolve_right ?_
        rintro (rfl | hx)
        · omega
        · have hlt := hright x hx
          omega
      obtain ⟨c, l', r', rfl, hx'⟩ := ihl hsearch hl (fun w hw => hpos w (by simp [hw])) hxl
      exact ⟨c ++ [⟨.left, y, r⟩], l', r', by rw [plug_append]; rfl, hx'⟩
    · have hzr := hright z (search_spec hsearch).1
      have hxr : x ∈ inorder r := by
        rcases hx with hx | rfl | hx
        · -- a region ending at the address is not left of one that begins below it
          have hle := hlyr x hx y (mem_cons_self ..)
          omega
        · refine absurd ?_ hstop
          have hwrap : wrap (x.2.base + x.2.limit) = b := by rw [hend, wrap_of_lt hb]
          rw [decide_eq_true_iff, SearchStop]
          omega
        · exact hx
      obtain ⟨c, l', r', rfl, hx'⟩ := ihr hsearch hr (fun w hw => hpos w (by simp [hw])) hxr
      exact ⟨c ++ [⟨.right, y, l⟩], l', r', by rw [plug_append]; rfl, hx'⟩

end Trees

/-! ## Unmapping whole regions -/

section Regions

variable [DecidableEq N] {ops : AssetOps N} {t : Space N} {k : MapKernel N} {p : ℕ}
  {n : Node Region}

theorem munmapRegion_whole {h : Heap Region} {root : Option ℕ} (hn : k.heap[p]? = some n)
    (hdelete : bstGenericDelete Region.base k.heap t.mmapRegionRoot p = some (h, root)) :
    munmapRegion ops t k p n.val.base n.val.limit =
      some (munmapPages ops (n.val.limit / pageSize) (BitVec.ofNat 64 n.val.base)
        { t with mmapRegionRoot := root } { k with heap := h }) := by
  rw [munmapRegion, hn]
  simp only [bind_eq_bind, bind_some, lt_irrefl, if_false, hdelete, bstGenericInsert]

theorem munmapPages_region (ops : AssetOps N) (k : MapKernel N) {r : Region}
    (hpages : PagesKeyed t.pages) (hpos : 0 < r.limit)
    (haligned : r.base % pageSize = 0 ∧ r.limit % pageSize = 0)
    (hbound : r.base + r.limit ≤ 2 ^ 64) :
    PagesDropped r.base r.limit t
      (munmapPages ops (r.limit / pageSize) (BitVec.ofNat 64 r.base) t k).1 := by
  have hbase : (BitVec.ofNat 64 r.base).toNat = r.base := by
    exact Nat.mod_eq_of_lt (by omega)
  have hlimit := Nat.div_mul_cancel (Nat.dvd_of_mod_eq_zero haligned.2)
  have hpage : pageOf (BitVec.ofNat 64 r.base) = BitVec.ofNat 64 r.base := by
    rw [pageOf_eq_self_iff, hbase]
    exact haligned.1
  have hloop := munmapPages_spec ops k (r.limit / pageSize) hpages hpage
    (by rw [hbase, hlimit]; exact hbound)
  rwa [hbase, hlimit] at hloop

variable {ok : ℕ → Prop} {c : List (Frame Region)} {a : Region} {l r : BinaryTree (ℕ × Region)}

theorem munmapRegion_spec (ops : AssetOps N)
    (hlinks : Links k.heap ok none t.mmapRegionRoot (plug c (.node (p, a) l r)))
    (hnodup : (pointers (plug c (.node (p, a) l r))).Nodup)
    (hsorted : Sorted Region.base (inorder (plug c (.node (p, a) l r)))) (hok : ok p)
    (hdel : c ≠ [] ∨ l = .nil ∧ r = .nil) (hpages : PagesKeyed t.pages) (hpos : 0 < a.limit)
    (haligned : a.base % pageSize = 0 ∧ a.limit % pageSize = 0)
    (hbound : a.base + a.limit ≤ 2 ^ 64) :
    ∃ t' k' tree', munmapRegion ops t k p a.base a.limit = some (t', k') ∧
      Links k'.heap (fun x => ok x ∧ ¬ Stale l r x) none t'.mmapRegionRoot tree' ∧
      inorder tree' = before c ++ (inorder l ++ inorder r) ++ after c ∧
      (l = .nil ∨ ∃ f c', tree' = plug (f :: c') l) ∧
      k'.heap.map Node.val = k.heap.map Node.val ∧ PagesDropped a.base a.limit t t' := by
  obtain ⟨h', root', tree', hdelete, hlinks', -, hlabels, hleft, hvals, -⟩ :=
    bstGenericDelete_spec hlinks hnodup hsorted.searchOrder hok hdel
  obtain ⟨n, hn, rfl⟩ : ∃ n, k.heap[p]? = some n ∧ n.val = a :=
    hlinks.val_eq (x := (p, a)) (by rw [inorder_plug]; simp)
  have hloop := munmapPages_region ops { k with heap := h' }
    (t := { t with mmapRegionRoot := root' }) hpages hpos haligned hbound
  obtain ⟨hroot, hheap⟩ := munmapPages_regions ops (n.val.limit / pageSize)
    (BitVec.ofNat 64 n.val.base) { t with mmapRegionRoot := root' } { k with heap := h' }
  refine ⟨_, _, tree', munmapRegion_whole hn hdelete, ?_, hlabels, hleft, ?_, ?_⟩
  · rw [hroot, hheap]
    exact hlinks'
  · rw [hheap]
    exact hvals
  · exact ⟨hloop.keyed, hloop.entry_iff, hloop.present_iff⟩

end Regions

/-! ## Chains of regions -/

/-- **A range tiled by regions that the lookups find**: the lookup at the start of every tile finds
a region that begins there. -/
inductive Chain (t : Space N) (k : MapKernel N) : ℕ → ℕ → ℕ → Prop
  | last {p b : ℕ} {n : Node Region} (hsearch : k.mmapSearchRegion t b = some (some p))
      (hn : k.heap[p]? = some n) (hbase : n.val.base = b)
      (hdel : n.parent ≠ none ∨ n.left = none ∧ n.right = none) : Chain t k p b n.val.limit
  | next {p p' b len : ℕ} {n n' : Node Region} (hsearch : k.mmapSearchRegion t b = some (some p))
      (hn : k.heap[p]? = some n) (hbase : n.val.base = b) (hn' : k.heap[p']? = some n')
      (honly : ¬ (n'.left = some p ∧ n'.right = none))
      (hrest : Chain t k p' (b + n.val.limit) len) : Chain t k p b (n.val.limit + len)

theorem Chain.head {t : Space N} {k : MapKernel N} {p b len : ℕ} (h : Chain t k p b len) :
    ∃ n, k.mmapSearchRegion t b = some (some p) ∧ k.heap[p]? = some n ∧ n.val.base = b ∧
      n.val.limit ≤ len := by
  cases h with
  | last hsearch hn hbase => exact ⟨_, hsearch, hn, hbase, le_rfl⟩
  | next hsearch hn hbase => exact ⟨_, hsearch, hn, hbase, Nat.le_add_right ..⟩

structure RangeRemoved (tree l r : BinaryTree (ℕ × Region)) (b len : ℕ) (t : Space N)
    (k : MapKernel N) (t' : Space N) (k' : MapKernel N) (tree' : BinaryTree (ℕ × Region)) :
    Prop where
  links : Links k'.heap (fun x => x ∈ pointers l ∧ ¬ (r = .nil ∧ rootPtr l = some x)) none
    t'.mmapRegionRoot tree'
  sublist : (inorder tree').Sublist (inorder tree)
  mem_iff : ∀ x ∈ inorder tree, x ∈ inorder tree' ↔ ¬ InRange b len x.2.base
  subtree : l = .nil ∨ ∃ f c', tree' = plug (f :: c') l
  vals : k'.heap.map Node.val = k.heap.map Node.val
  pages : PagesDropped b len t t'

section Chains

variable {t : Space N} {k : MapKernel N} {p b len : ℕ} {tree : BinaryTree (ℕ × Region)}

theorem RegionTree.inRange_base_iff {h : Heap Region} {root : Option ℕ} {x y : ℕ × Region}
    (ht : RegionTree h root tree) (hx : x ∈ inorder tree) (hy : y ∈ inorder tree) :
    InRange y.2.base y.2.limit x.2.base ↔ x = y := by
  have hxpos := ht.limit_pos x hx
  constructor
  · rintro ⟨h₁, h₂⟩
    refine (ht.apart hx hy).resolve_right ?_
    omega
  · rintro rfl
    exact ⟨le_rfl, by omega⟩

theorem Chain.tiles (ht : RegionTree k.heap t.mmapRegionRoot tree) (h : Chain t k p b len) :
    0 < len ∧ b + len ≤ 2 ^ 64 ∧ ∀ x ∈ inorder tree,
      (InRange b len x.2.base ∧ x.2.base + x.2.limit ≤ b + len) ∨
        (¬ InRange b len x.2.base ∧ (x.2.base + x.2.limit ≤ b ∨ b + len ≤ x.2.base)) := by
  induction h with
  | @last p b n hsearch hn hbase hdel =>
    have hmem := (ht.lookup hsearch hn).2
    have hpos := ht.limit_pos _ hmem
    have hbound := ht.bounded _ hmem
    subst hbase
    refine ⟨hpos, hbound, fun x hx => ?_⟩
    have hxpos := ht.limit_pos x hx
    rcases ht.apart hx hmem with rfl | hapart
    · exact .inl ⟨⟨le_rfl, Nat.lt_add_of_pos_right hpos⟩, le_rfl⟩
    · refine .inr ⟨fun hin => ?_, hapart⟩
      obtain ⟨h₁, h₂⟩ := hin
      dsimp only at hapart
      omega
  | @next p p' b len n n' hsearch hn hbase hn' honly hrest ih =>
    obtain ⟨hlen, hbound, ih⟩ := ih
    have hmem := (ht.lookup hsearch hn).2
    refine ⟨by omega, by omega, fun x hx => ?_⟩
    have hxpos := ht.limit_pos x hx
    unfold InRange at ih ⊢
    rcases ht.apart hx hmem with rfl | hapart
    · exact .inl (by dsimp only; omega)
    · dsimp only at hapart
      rcases ih x hx with hin | hout
      · exact .inl (by omega)
      · rcases hapart with hapart | hapart
        · exact .inr (by omega)
        · rcases hout with ⟨h₁, h₂ | h₂⟩
          · omega
          · exact .inr (by omega)

theorem Chain.aligned (ht : RegionTree k.heap t.mmapRegionRoot tree) (h : Chain t k p b len) :
    b % pageSize = 0 ∧ len % pageSize = 0 := by
  induction h with
  | last hsearch hn hbase =>
    exact hbase ▸ ht.aligned _ (ht.lookup hsearch hn).2
  | next hsearch hn hbase _ _ _ ih =>
    have haligned := ht.aligned _ (ht.lookup hsearch hn).2
    refine ⟨hbase ▸ haligned.1, ?_⟩
    rw [Nat.add_mod, haligned.2, ih.2, Nat.zero_mod]

theorem Links.plug_unique {h : Heap Region} {ok : ℕ → Prop} {root : Option ℕ}
    {c c' : List (Frame Region)} {a a' : Region} {l r l' r' : BinaryTree (ℕ × Region)}
    (hl : Links h ok none root (plug c (.node (p, a) l r)))
    (hl' : Links h ok none root (plug c' (.node (p, a') l' r'))) : a = a' ∧ l = l' ∧ r = r' := by
  obtain ⟨-, -, -, n, hn, hval, -, hleft, hright⟩ := links_plug.mp hl
  obtain ⟨-, -, -, n', hn', hval', -, hleft', hright'⟩ := links_plug.mp hl'
  obtain rfl : n = n' := some.inj (hn.symm.trans hn')
  exact ⟨hval.symm.trans hval', hleft.unique hleft', hright.unique hright'⟩

theorem rootPtr_plug {y : ℕ × Region} {l r : BinaryTree (ℕ × Region)} (d : List (Frame Region)) :
    rootPtr (plug d (.node y l r)) = some y.1 ∨
      ∃ q ∈ ctxPointers d, rootPtr (plug d (.node y l r)) = some q := by
  induction d generalizing y l r with
  | nil => exact .inl rfl
  | cons f d ih =>
    have hlabel := (perm_ctxPointers_cons f d).mem_iff.mpr (mem_cons_self ..)
    have hctx : ∀ q ∈ ctxPointers d, q ∈ ctxPointers (f :: d) := fun q hq =>
      (perm_ctxPointers_cons f d).mem_iff.mpr (mem_append_right _ hq)
    obtain ⟨side, x, s⟩ := f
    right
    cases side <;>
    · rcases ih with hroot | ⟨q, hq, hroot⟩
      · exact ⟨x.1, hlabel, hroot⟩
      · exact ⟨q, hctx q hq, hroot⟩

variable [DecidableEq N] {ops : AssetOps N}

theorem munmapWithin_found {depth : ℕ} {n : Node Region} (hb : b ≠ 0) (hlen : 0 < len)
    (haligned : b % pageSize = 0 ∧ len % pageSize = 0)
    (hsearch : k.mmapSearchRegion t b = some (some p)) (hn : k.heap[p]? = some n) :
    munmapWithin ops (depth + 1) t k b len = if n.val.limit < len then
        (munmapWithin ops depth t k (wrap (b + n.val.limit)) (len - n.val.limit)).bind
          fun (_, t, k) => (munmapRegion ops t k p b n.val.limit).map fun tk => ((0 : ℤ), tk)
      else (munmapRegion ops t k p b len).map fun tk => ((0 : ℤ), tk) := by
  rw [munmapWithin, if_neg (by omega), if_neg (by simp [haligned]), hsearch]
  dsimp only
  rw [hn]

theorem inRange_add_iff {lim x : ℕ} :
    InRange b (lim + len) x ↔ InRange (b + lim) len x ∨ InRange b lim x := by
  unfold InRange
  omega

theorem Chain.removes (ops : AssetOps N)
    (ht : RegionTree k.heap t.mmapRegionRoot tree) (h : Chain t k p b len)
    (hpages : PagesKeyed t.pages) (hb : b ≠ 0) {c : List (Frame Region)} {a : Region}
    {l r : BinaryTree (ℕ × Region)} {depth : ℕ} (hplug : tree = plug c (.node (p, a) l r))
    (hdepth : len < depth) :
    ∃ t' k' tree', munmapWithin ops depth t k b len = some (0, t', k') ∧
      RangeRemoved tree l r b len t k t' k' tree' := by
  have hstale : ∀ {l r : BinaryTree (ℕ × Region)} {x : ℕ}, x ∈ pointers l →
      ¬ (r = .nil ∧ rootPtr l = some x) → ¬ Stale l r x := by
    rintro l r x hx hroot (hleft | ⟨rfl, -⟩)
    · exact hroot hleft
    · exact absurd hx not_mem_nil
  obtain ⟨depth, rfl⟩ : ∃ d, depth = d + 1 := ⟨depth - 1, by omega⟩
  have hlen := (h.tiles ht).1
  have hall := h.aligned ht
  induction h generalizing c a l r depth with
  | @last p b n hsearch hn hbase hdel =>
    subst hplug
    obtain ⟨hval, hparent, hleft, hright⟩ := Links.node_eq (x := (p, a)) ht.links hn
    obtain rfl : n.val = a := hval
    subst hbase
    have hmem := (ht.lookup hsearch hn).2
    have hdel' : c ≠ [] ∨ l = .nil ∧ r = .nil := by
      rcases hdel with hdel | ⟨hl, hr⟩
      · left
        rintro rfl
        exact hdel (hparent trivial)
      · cases l <;> cases r <;> simp_all [rootPtr]
    obtain ⟨t', k', tree', hregion, hlinks, hlabels, hsub, hvals, hdrop⟩ :=
      munmapRegion_spec ops ht.links ht.nodup ht.sorted trivial hdel' hpages
        (ht.limit_pos _ hmem) (ht.aligned _ hmem) (ht.bounded _ hmem)
    refine ⟨t', k', tree', ?_, ?_, ?_, fun x hx => ?_, hsub, hvals, hdrop⟩
    · rw [munmapWithin_found hb hlen hall hsearch hn, if_neg (lt_irrefl _), hregion]
      rfl
    · exact hlinks.congr (fun _ _ => rfl) fun q _ hq => ⟨trivial, hstale hq.1 hq.2⟩
    · rw [hlabels, inorder_plug]
      exact removed_sublist ..
    · have hnodup := inorder_nodup ht.nodup
      rw [ht.inRange_base_iff (y := (p, n.val)) hx hmem, hlabels]
      rw [inorder_plug] at hnodup hx
      exact (mem_removed_iff hnodup).trans (and_iff_right hx)
  | @next p p' b len n n' hsearch hn hbase hn' honly hrest ih =>
    obtain ⟨m, hsearch', hm, hbase', -⟩ := hrest.head
    obtain rfl : n' = m := some.inj (hn'.symm.trans hm)
    obtain ⟨hfound, hmem⟩ := ht.lookup hsearch hn
    obtain ⟨hfound', hmem'⟩ := ht.lookup hsearch' hn'
    have hpos : 0 < n.val.limit := ht.limit_pos _ hmem
    have hpos' : 0 < n'.val.limit := ht.limit_pos _ hmem'
    have hbound' : n'.val.base + n'.val.limit ≤ 2 ^ 64 := ht.bounded _ hmem'
    subst hbase
    -- the region is in the left subtree of the next
    obtain ⟨c', l', r', hplug', hleft'⟩ := search_left hfound' ht.ordered ht.limit_pos hmem hbase' rfl
      (by omega)
    obtain ⟨d, l₀, r₀, rfl⟩ := exists_plug hleft'
    obtain ⟨rfl, rfl, rfl⟩ : a = n.val ∧ l = l₀ ∧ r = r₀ := by
      have hlinks := ht.links
      have hlinks' := ht.links
      rw [hplug] at hlinks
      rw [hplug', show plug c' (.node (p', n'.val) (plug d (.node (p, n.val) l₀ r₀)) r') =
        plug (d ++ ⟨.left, (p', n'.val), r'⟩ :: c') (.node (p, n.val) l₀ r₀) by
          rw [plug_append]; rfl] at hlinks'
      exact Links.plug_unique hlinks hlinks'
    obtain ⟨hlen', -, -⟩ := hrest.tiles ht
    obtain ⟨depth, rfl⟩ : ∃ j, depth = j + 1 := ⟨depth - 1, by omega⟩
    obtain ⟨t₁, k₁, tree₁, hcall, hremoved⟩ := ih (by omega) hplug' depth (by omega) hlen'
      (hrest.aligned ht)
    obtain ⟨f, c₁, rfl⟩ := hremoved.subtree.resolve_left (plug_ne_nil _ _ _ _)
    have hsub₁ := hremoved.sublist
    have hlinks₁ := hremoved.links
    rw [← plug_append] at hsub₁ hlinks₁
    have hnext := Links.node_eq (x := (p', n'.val)) (hplug' ▸ ht.links) hn'
    have hok : p ∈ pointers (plug d (.node (p, n.val) l r)) ∧
        ¬ (r' = .nil ∧ rootPtr (plug d (.node (p, n.val) l r)) = some p) := by
      refine ⟨mem_pointers hleft', fun h => honly ⟨hnext.2.2.1.trans h.2, ?_⟩⟩
      rw [hnext.2.2.2, h.1]
      rfl
    obtain ⟨t', k', tree', hregion, hlinks, hlabels, hsub, hvals, hdrop⟩ :=
      munmapRegion_spec ops hlinks₁ (ht.nodup.sublist (hsub₁.map _))
        (ht.sorted.sublist hsub₁) hok (.inl (by simp)) hremoved.pages.keyed hpos
        (ht.aligned _ hmem) (ht.bounded _ hmem)
    refine ⟨t', k', tree', ?_, ?_, ?_, fun x hx => ?_, hsub, hvals.trans hremoved.vals, ?_⟩
    · rw [munmapWithin_found hb hlen hall hsearch hn, if_pos (by omega),
        wrap_of_lt (by omega : n.val.base + n.val.limit < 2 ^ 64), Nat.add_sub_cancel_left, hcall]
      exact congrArg (Option.map fun tk => ((0 : ℤ), tk)) hregion
    · refine hlinks.congr (fun _ _ => rfl) fun q _ hq => ⟨⟨?_, fun hroot => ?_⟩, hstale hq.1 hq.2⟩
      · exact (perm_pointers_plug d _).mem_iff.mpr (by simp [hq.1])
      · -- the root of the left subtree of the next region is not in that of this one
        have hnodup := (perm_pointers_plug d (.node (p, n.val) l r)).nodup_iff.mp
          (((perm_pointers_plug _ _).nodup_iff.mp (plug_append .. ▸ ht.nodup.sublist
            (hsub₁.map _))).sublist (sublist_append_right ..))
        rw [pointers_node] at hnodup
        obtain ⟨-, hnode, hdisjoint⟩ := nodup_append.mp hnodup
        rcases rootPtr_plug (y := (p, n.val)) (l := l) (r := r) d with hp | ⟨q', hq', hp⟩
        · obtain rfl : p = q := some.inj (hp.symm.trans hroot.2)
          exact (nodup_append.mp hnode).2.2 p hq.1 p (mem_cons_self ..) rfl
        · obtain rfl : q' = q := some.inj (hp.symm.trans hroot.2)
          exact hdisjoint q' hq' q' (mem_append_left _ hq.1) rfl
    · refine Sublist.trans ?_ hsub₁
      rw [hlabels, inorder_plug]
      exact removed_sublist ..
    · have hnodup := (inorder_nodup ht.nodup).sublist hsub₁
      have hone := ht.inRange_base_iff (y := (p, n.val)) hx hmem
      rw [inRange_add_iff, not_or, ← hremoved.mem_iff x hx, hone, hlabels, ← plug_append]
      rw [inorder_plug] at hnodup ⊢
      exact mem_removed_iff hnodup
    · exact hremoved.pages.trans hdrop (fun v _ => inRange_add_iff) hpages

end Chains

/-! ## Exactness -/

/-- An address covered by a region with given rights and file. -/
def Covers (regions : List (ℕ × Region)) (a : ℕ) (prot flags : BitVec 32) (fd : ℤ) : Prop :=
  ∃ x ∈ regions, x.2.Contains a ∧ x.2.prot = prot ∧ x.2.flags = flags ∧ x.2.fd = fd

variable [DecidableEq N] (ops : AssetOps N)

/-- **`munmap` removes exactly its range**: from the addresses of the regions, with the rights and
the file of every other address kept, and from the pages. -/
def MunmapExact (t : Space N) (k : MapKernel N) (addr length : ℕ) : Prop :=
  ∃ ret t' k', munmap ops t k addr length = some (ret, t', k') ∧
    (∀ a < 2 ^ 64, ∀ prot flags fd, Covers (k'.regionsOf t') a prot flags fd ↔
      Covers (k.regionsOf t) a prot flags fd ∧ ¬ InRange addr length a) ∧
    (∀ v page, (v, page) ∈ entries t'.pages.slots ↔
      (v, page) ∈ entries t.pages.slots ∧ ¬ InRange addr length v.toNat) ∧
    ∀ v page, (v, page) ∈ entries t.pages.slots →
      ((t'.leaves v).getLsbD 0 = true ↔
        (t.leaves v).getLsbD 0 = true ∧ ¬ InRange addr length v.toNat)

/-- **When a call removes its range**: it finds no region and there is nothing in the range, or its
range is a chain of regions. -/
def UnmapsRegions (t : Space N) (k : MapKernel N) (addr length : ℕ) : Prop :=
  (k.mmapSearchRegion t addr = some none ∧
    (∀ x ∈ k.regionsOf t, ∀ a, x.2.Contains a → ¬ InRange addr length a) ∧
    ∀ v page, (v, page) ∈ entries t.pages.slots → ¬ InRange addr length v.toNat) ∨
  ∃ p, Chain t k p addr length

variable {ops} {t : Space N} {k : MapKernel N} {tree : BinaryTree (ℕ × Region)}
  {addr length : ℕ}

omit [DecidableEq N] in
theorem covers_removed_iff {regions regions' : List (ℕ × Region)} {a : ℕ} {prot flags : BitVec 32}
    {fd : ℤ} (hsub : ∀ x ∈ regions', x ∈ regions)
    (hmem : ∀ x ∈ regions, x ∈ regions' ↔ ¬ InRange addr length x.2.base)
    (htiles : ∀ x ∈ regions, (InRange addr length x.2.base ∧ x.2.base + x.2.limit ≤ addr + length) ∨
        (¬ InRange addr length x.2.base ∧
          (x.2.base + x.2.limit ≤ addr ∨ addr + length ≤ x.2.base))) :
    Covers regions' a prot flags fd ↔ Covers regions a prot flags fd ∧ ¬ InRange addr length a := by
  constructor
  · rintro ⟨x, hx, ⟨hle, hlt⟩, hattrs⟩
    refine ⟨⟨x, hsub x hx, ⟨hle, hlt⟩, hattrs⟩, fun ⟨h₁, h₂⟩ => ?_⟩
    have hout := (hmem x (hsub x hx)).mp hx
    rcases htiles x (hsub x hx) with hin | ⟨-, hapart⟩
    · exact hout hin.1
    · omega
  · rintro ⟨⟨x, hx, ⟨hle, hlt⟩, hattrs⟩, hout⟩
    refine ⟨x, (hmem x hx).mpr fun hin => hout ?_, ⟨hle, hlt⟩, hattrs⟩
    rcases htiles x hx with ⟨-, hend⟩ | ⟨hbase, -⟩
    · exact ⟨hin.1.trans hle, by omega⟩
    · exact absurd hin hbase

/-! ## Calls that find a region, or none -/

section Calls

variable {p : ℕ} {n : Node Region} {c : List (Frame Region)} {l r : BinaryTree (ℕ × Region)}

def splitHeap (h : Heap Region) (region : Region) (length : ℕ) : Heap Region :=
  if length < region.limit then h ++ [⟨upperSplit region length, none, none, none⟩] else h

theorem munmapRegion_eq (hn : k.heap[p]? = some n) (hbase : n.val.base ≤ addr) :
    munmapRegion ops t k p addr length =
      (bstGenericDelete Region.base (splitHeap k.heap n.val length) t.mmapRegionRoot p).bind
        fun (h, root) => (bstGenericInsert Region.base h root
            (if length < n.val.limit then some k.heap.length else none)).map fun (h, root) =>
            munmapPages ops (n.val.limit / pageSize) (BitVec.ofNat 64 addr)
              { t with mmapRegionRoot := root } { k with heap := h } := by
  rw [munmapRegion, hn, splitHeap]
  simp only [bind_eq_bind, bind_some, if_neg (not_lt.mpr hbase),
    map_eq_bind]
  split_ifs <;> rfl

theorem upperSplit_contains {region : Region} (hpos : 0 < length) (hlt : length < region.limit)
    (huser : region.base + region.limit ≤ 2 ^ 63) :
    (upperSplit region length).Contains (2 ^ 63) := by
  have hbase : wrap (region.base + length) = region.base + length := wrap_of_lt (by omega)
  have hlimit : wrap (length + (2 ^ 64 - region.limit)) = length + (2 ^ 64 - region.limit) :=
    wrap_of_lt (by omega)
  unfold upperSplit Region.Contains
  dsimp only
  omega

omit [DecidableEq N] in
theorem split_covers {h : Heap Region} {root : Option ℕ} {tree' : BinaryTree (ℕ × Region)}
    {ok : ℕ → Prop} {k' : MapKernel N} {t' : Space N}
    (hlinks : Links h ok none root tree') (hnodup : (pointers tree').Nodup)
    (hq : p ∉ pointers tree') (hnode : h[p]? = some ⟨upperSplit n.val length, none, none, none⟩)
    (hinsert : bstGenericInsert Region.base h root (some p) = some (k'.heap, t'.mmapRegionRoot))
    (hpos : 0 < length) (hlt : length < n.val.limit)
    (huser : n.val.base + n.val.limit ≤ 2 ^ 63) :
    Covers (k'.regionsOf t') (2 ^ 63) n.val.prot n.val.flags n.val.fd := by
  have hleaf : Links h ok none (some p) (.node (p, upperSplit n.val length) .nil .nil) :=
    ⟨rfl, _, hnode, rfl, fun _ => rfl, rfl, rfl⟩
  have hfresh : (pointers tree' ++ pointers (.node (p, upperSplit n.val length) .nil .nil)).Nodup := by
    refine nodup_append.mpr ⟨hnodup, nodup_singleton _, ?_⟩
    rintro q hq' q' hq'' rfl
    obtain rfl : q = p := mem_singleton.mp hq''
    exact hq hq'
  obtain ⟨h', root', hinsert', hlinks', -⟩ :=
    bstGenericInsert_spec Region.base hlinks hleaf hfresh (fun q hq => .inl hq)
  obtain ⟨rfl, rfl⟩ := Prod.mk.inj (some.inj (hinsert.symm.trans hinsert'))
  have hplug : plug (descend Region.base (upperSplit n.val length).base tree' []) .nil = tree' :=
    plug_descend tree' []
  have hpointers : (pointers (plug (descend Region.base (upperSplit n.val length).base tree' [])
      (.node (p, upperSplit n.val length) .nil .nil))).Nodup := by
    have hctx := perm_pointers_plug
      (descend Region.base (upperSplit n.val length).base tree' []) .nil
    rw [hplug, pointers_nil, append_nil] at hctx
    rw [(perm_pointers_plug ..).nodup_iff]
    exact (hctx.append_right _).nodup_iff.mp hfresh
  rw [regionsOf_eq hlinks' hpointers, inorder_plug]
  exact ⟨(p, upperSplit n.val length), by simp, upperSplit_contains hpos hlt huser, rfl, rfl, rfl⟩

variable (haddr : addr ≠ 0) (hlength : length ≠ 0)
  (haligned : addr % pageSize = 0 ∧ length % pageSize = 0)

include haddr hlength haligned

theorem munmap_miss (hsearch : k.mmapSearchRegion t addr = some none) :
    munmap ops t k addr length = some (0, t, k) := by
  rw [munmap, munmapWithin, if_neg (by omega), if_neg (by simp [haligned]), hsearch]

theorem UnmapsRegions.exact (ht : RegionTree k.heap t.mmapRegionRoot tree)
    (hpages : PagesKeyed t.pages) (h : UnmapsRegions t k addr length) : MunmapExact ops t k addr length := by
  rcases h with ⟨hsearch, hregions, hentries⟩ | ⟨p, hchain⟩
  · refine ⟨0, t, k, munmap_miss haddr hlength haligned hsearch, fun a _ prot flags fd => ?_,
      fun v page => ?_, fun v page hv => ?_⟩
    · refine ⟨fun hcov => ⟨hcov, ?_⟩, And.left⟩
      obtain ⟨x, hx, hcontains, -⟩ := hcov
      exact hregions x hx a hcontains
    · exact ⟨fun hv => ⟨hv, hentries v page hv⟩, And.left⟩
    · exact (and_iff_left (hentries v page hv)).symm
  · obtain ⟨n, hsearch, hn, -, -⟩ := hchain.head
    obtain ⟨c, l, r, hplug⟩ := exists_plug (ht.lookup hsearch hn).2
    obtain ⟨t', k', tree', hcall, hremoved⟩ := hchain.removes ops ht hpages haddr
      hplug (Nat.lt_succ_self length)
    obtain ⟨-, -, htiles⟩ := hchain.tiles ht
    have hread := regionsOf_eq hremoved.links (ht.nodup.sublist (hremoved.sublist.map _))
    refine ⟨0, t', k', hcall, fun a _ prot flags fd => ?_, hremoved.pages.entry_iff,
      fun v page hv => hremoved.pages.present_iff v (hpages.keyed hv).2⟩
    rw [hread, regionsOf_eq ht.links ht.nodup]
    exact covers_removed_iff (fun x hx => hremoved.sublist.subset hx) hremoved.mem_iff htiles

theorem munmap_single (hsearch : k.mmapSearchRegion t addr = some (some p)) (hn : k.heap[p]? = some n)
    (hle : length ≤ n.val.limit) :
    munmap ops t k addr length =
      (munmapRegion ops t k p addr length).map fun tk => ((0 : ℤ), tk) := by
  rw [munmap, munmapWithin_found haddr (by omega) haligned hsearch hn, if_neg (by omega)]

theorem MunmapExact.unmapsRegions (ht : RegionTree k.heap t.mmapRegionRoot tree)
    (huser : ∀ x ∈ inorder tree, x.2.base + x.2.limit ≤ 2 ^ 63)
    (hsearch : k.mmapSearchRegion t addr = some (some p)) (hn : k.heap[p]? = some n)
    (hle : length ≤ n.val.limit) (h : MunmapExact ops t k addr length) :
    UnmapsRegions t k addr length := by
  obtain ⟨ret, t', k', hcall, hcov, -, -⟩ := h
  rw [munmap_single haddr hlength haligned hsearch hn hle] at hcall
  obtain ⟨⟨t₁, k₁⟩, hregion, heq⟩ := map_eq_some_iff.mp hcall
  obtain ⟨-, rfl, rfl⟩ : (0 : ℤ) = ret ∧ t₁ = t' ∧ k₁ = k' := by simpa using heq
  obtain ⟨hfound, hmem⟩ := ht.lookup hsearch hn
  have hbase : n.val.base ≤ addr := (of_decide_eq_true (search_spec hfound).2).1
  rw [munmapRegion_eq hn hbase] at hregion
  obtain ⟨⟨h₁, root₁⟩, hdelete, hrest⟩ := bind_eq_some_iff.mp hregion
  obtain ⟨⟨h₂, root₂⟩, hinsert, hloop⟩ := map_eq_some_iff.mp hrest
  dsimp only at hloop hinsert
  -- the regions after the call are those after the insertion
  have hregions := munmapPages_regions ops (n.val.limit / pageSize) (BitVec.ofNat 64 addr)
    { t with mmapRegionRoot := root₂ } { k with heap := h₂ }
  rw [hloop] at hregions
  obtain ⟨rfl, rfl⟩ : root₂ = t₁.mmapRegionRoot ∧ h₂ = k₁.heap := ⟨hregions.1.symm, hregions.2.symm⟩
  obtain ⟨c, l, r, rfl⟩ := exists_plug hmem
  have hkeep : ∀ q < k.heap.length, (splitHeap k.heap n.val length)[q]? = k.heap[q]? := by
    intro q hq
    unfold splitHeap
    split_ifs
    · exact getElem?_append_left hq
    · rfl
  have hp := (List.getElem?_eq_some_iff.mp hn).1
  have hlinks : Links (splitHeap k.heap n.val length) (fun _ => True) none t.mmapRegionRoot
      (plug c (.node (p, n.val) l r)) :=
    ht.links.congr (fun q hq => hkeep q (ht.links.lt_length q hq)) fun _ _ => id
  obtain ⟨-, hparent, hleft, hright⟩ := Links.node_eq (x := (p, n.val)) ht.links hn
  have hdel : n.parent ≠ none ∨ n.left = none ∧ n.right = none := by
    by_contra hnot
    rw [not_or, not_not] at hnot
    have hnone : bstGenericDelete Region.base (splitHeap k.heap n.val length) t.mmapRegionRoot p =
        none := bstGenericDelete_root ((hkeep p hp).trans hn) hnot.1 (by tauto)
    exact absurd (hdelete.symm.trans hnone) (by simp)
  have hdel' : c ≠ [] ∨ l = .nil ∧ r = .nil := by
    rcases hdel with hdel | ⟨hl, hr⟩
    · left
      rintro rfl
      exact hdel (hparent trivial)
    · cases l <;> cases r <;> simp_all [rootPtr]
  obtain ⟨h', root', tree', hdelete', hlinks', -, hlabels, -, -, hframe, -⟩ :=
    bstGenericDelete_spec hlinks ht.nodup ht.sorted.searchOrder trivial hdel'
  obtain ⟨rfl, rfl⟩ := Prod.mk.inj (some.inj (hdelete.symm.trans hdelete'))
  have hsub : (inorder tree').Sublist (inorder (plug c (.node (p, n.val) l r))) := by
    rw [hlabels, inorder_plug]
    exact removed_sublist ..
  have hnodup' := ht.nodup.sublist (hsub.map _)
  rw [regionsOf_eq ht.links ht.nodup] at hcov
  by_cases hlt : length < n.val.limit
  · -- the rest covers an address of the upper half
    rw [if_pos hlt] at hinsert
    have hfresh : k.heap.length ∉ pointers (plug c (.node (p, n.val) l r)) := fun hq =>
      lt_irrefl _ (ht.links.lt_length _ hq)
    have hnode : h₁[k.heap.length]? = some ⟨upperSplit n.val length, none, none, none⟩ := by
      rw [hframe _ hfresh, splitHeap, if_pos hlt, getElem?_append_right le_rfl, Nat.sub_self]
      rfl
    have hcovers := split_covers hlinks' hnodup' (fun hq => hfresh ((hsub.map _).subset hq)) hnode
      hinsert (by omega) hlt (huser _ hmem)
    obtain ⟨x, hx, hcontains, -⟩ := ((hcov (2 ^ 63) (by omega) _ _ _).mp hcovers).1
    have hxuser := huser x hx
    have hlt' := hcontains.2
    omega
  · -- the whole region is gone, so its first address is in the range
    rw [if_neg hlt] at hinsert
    cases hinsert
    rw [regionsOf_eq hlinks' hnodup', hlabels] at hcov
    have hpos := ht.limit_pos _ hmem
    have hlen : length = n.val.limit := by omega
    have hbase' : n.val.base = addr := by
      by_contra hne
      have hbound := ht.bounded _ hmem
      have hin : n.val.Contains n.val.base := ⟨le_rfl, by omega⟩
      obtain ⟨x, hx, hcontains, -⟩ := (hcov n.val.base (by dsimp only at hbound; omega) n.val.prot
        n.val.flags n.val.fd).mpr ⟨⟨_, hmem, hin, rfl, rfl, rfl⟩, fun hr => hne (by
          obtain ⟨h₁, h₂⟩ := hr
          omega)⟩
      have hnodup := inorder_nodup ht.nodup
      rw [inorder_plug] at hnodup
      rw [mem_removed_iff (x := (p, n.val)) hnodup] at hx
      have hxmem : x ∈ inorder (plug c (.node (p, n.val) l r)) := by
        rw [inorder_plug]
        exact hx.1
      refine (ht.apart hxmem hmem).elim hx.2 ?_
      obtain ⟨h₁, h₂⟩ := hcontains
      dsimp only
      omega
    subst hlen
    exact .inr ⟨p, Chain.last hsearch hn hbase' hdel⟩

theorem MunmapExact.miss (ht : RegionTree k.heap t.mmapRegionRoot tree)
    (hsearch : k.mmapSearchRegion t addr = some none)
    (h : MunmapExact ops t k addr length) : UnmapsRegions t k addr length := by
  obtain ⟨ret, t', k', hcall, hcov, hentries, -⟩ := h
  rw [munmap_miss haddr hlength haligned hsearch] at hcall
  obtain ⟨-, rfl, rfl⟩ : (0 : ℤ) = ret ∧ t = t' ∧ k = k' := by simpa using hcall
  refine .inl ⟨hsearch, fun x hx a hcontains => ?_, fun v page hv => ((hentries v page).mp hv).2⟩
  have hbound := ht.bounded x (regionsOf_eq ht.links ht.nodup ▸ hx)
  exact ((hcov a (by have := hcontains.2; omega) _ _ _).mp ⟨x, hx, hcontains, rfl, rfl, rfl⟩).2

end Calls

/-- **When `munmap` removes exactly its range**: if nothing is there or a chain of regions is. -/
theorem munmap_exact (ops : AssetOps N) (t : Space N) (k : MapKernel N)
    (tree : BinaryTree (ℕ × Region)) (addr length : ℕ)
    (ht : RegionTree k.heap t.mmapRegionRoot tree) (hpages : PagesKeyed t.pages) (haddr : addr ≠ 0)
    (hlength : length ≠ 0) (haligned : addr % pageSize = 0 ∧ length % pageSize = 0) :
    (UnmapsRegions t k addr length → MunmapExact ops t k addr length) ∧
      ((∀ x ∈ inorder tree, x.2.base + x.2.limit ≤ 2 ^ 63) →
        (∀ p n, k.mmapSearchRegion t addr = some (some p) → k.heap[p]? = some n →
          length ≤ n.val.limit) →
        (MunmapExact ops t k addr length ↔ UnmapsRegions t k addr length)) := by
  have hsufficient : UnmapsRegions t k addr length → MunmapExact ops t k addr length :=
    UnmapsRegions.exact haddr hlength haligned ht hpages
  refine ⟨hsufficient, fun huser hsingle => ⟨fun hexact => ?_, hsufficient⟩⟩
  have hlookup := ht.search_eq addr
  cases hfound : SearchTree.search (fun x : ℕ × Region => x.2.base) (fun x => SearchStop addr x.2)
      addr tree with
  | none =>
    rw [hfound] at hlookup
    exact hexact.miss haddr hlength haligned ht hlookup
  | some x =>
    rw [hfound] at hlookup
    obtain ⟨n, hn, -⟩ := ht.links.val_eq (search_spec hfound).1
    exact hexact.unmapsRegions haddr hlength haligned ht huser hlookup hn (hsingle x.1 n hlookup hn)

def fourPages : Region := ⟨0x10000, 0x4000, 0#32, 0#32, -1, 0⟩

def oneRegion : Space Unit := ⟨some 0, 0, fun _ => 0#64, HashTable.empty⟩

def oneRegionKernel : MapKernel Unit where
  heap := [⟨fourPages, none, none, none⟩]
  kernel := ⟨fun _ _ => 0#8, [], fun _ => 0, 0, smallBoot.maps⟩
  sharedPages := fun _ => HashTable.empty
  files := fun _ _ => 0#8

theorem regionTree_oneRegion : RegionTree oneRegionKernel.heap oneRegion.mmapRegionRoot
    (.node (0, fourPages) .nil .nil) where
  links := ⟨rfl, _, rfl, rfl, fun _ => rfl, rfl, rfl⟩
  nodup := by decide
  ordered := pairwise_singleton ..
  limit_pos := by decide
  aligned := by decide
  bounded := by decide

theorem munmap_exact_four_pages :
    MunmapExact plainOps oneRegion oneRegionKernel 0x10000 0x4000 :=
  (munmap_exact _ _ _ _ _ _ regionTree_oneRegion pagesKeyed_empty (by decide) (by decide)
    (by decide)).1 (Or.inr ⟨0, Chain.last (n := ⟨fourPages, none, none, none⟩) (by decide) rfl rfl
      (Or.inr ⟨rfl, rfl⟩)⟩)

theorem munmap_first_page_covers_more :
    RegionTree oneRegionKernel.heap oneRegion.mmapRegionRoot (.node (0, fourPages) .nil .nil) ∧
      PagesKeyed oneRegion.pages ∧
      (munmap plainOps oneRegion oneRegionKernel 0x10000 0x1000).map
          (fun x => x.2.2.regionsOf x.2.1) =
        some [(1, { fourPages with base := 0x11000, limit := 2 ^ 64 - 0x3000 })] ∧
      ¬ MunmapExact plainOps oneRegion oneRegionKernel 0x10000 0x1000 := by
  have hcall : (munmap plainOps oneRegion oneRegionKernel 0x10000 0x1000).map
      (fun x => x.2.2.regionsOf x.2.1) =
        some [(1, { fourPages with base := 0x11000, limit := 2 ^ 64 - 0x3000 })] := by
    decide +kernel
  refine ⟨regionTree_oneRegion, pagesKeyed_empty, hcall, ?_⟩
  rintro ⟨ret, t', k', hcall', hcov, -⟩
  rw [hcall'] at hcall
  have hregions := Option.some.inj hcall
  dsimp only at hregions
  have hnew : Covers (k'.regionsOf t') (2 ^ 63) 0#32 0#32 (-1) := by
    rw [hregions]
    exact ⟨_, mem_singleton_self _, by decide, rfl, rfl, rfl⟩
  obtain ⟨⟨x, hx, hcontains, -⟩, -⟩ := (hcov (2 ^ 63) (by omega) _ _ _).mp hnew
  obtain rfl : x = (0, fourPages) := mem_singleton.mp hx
  exact absurd hcontains (by decide)

end Pastoral
