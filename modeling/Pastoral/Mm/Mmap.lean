import Mathlib.Logic.Relation
import Pastoral.Mm.Munmap

/-!
# Mapping

`mmap` over regions that are nodes of a heap, with the loops that enter the pages of a file.

## Main results

* `mmap_disjoint_iff`: when a mapping meets no region
-/

open Option Probe SearchTree TreeHeap

namespace Pastoral

variable {N : Type}

abbrev mmapMapPrivate : BitVec 32 := 0x1#32
abbrev mmapMapShared : BitVec 32 := 0x2#32

structure Assets (N : Type) where
  fdTranslate : ℤ → Option N
  shared : N → Option (ℤ → BitVec 64)
  write : N → ℤ → (ℕ → BitVec 8) → (ℤ → BitVec 8) → ℤ → BitVec 8

def Assets.ops (assets : Assets N) : AssetOps N :=
  ⟨fun node => (assets.shared node).isSome, assets.write⟩

/-! ## Files -/

def fileFlags (kind : BitVec 64) (prot : BitVec 32) : BitVec 64 :=
  let flags := vmmFileFlag ||| kind ||| vmmFlagsNX
  let flags := if prot &&& mmapProtWrite ≠ 0#32 then flags ||| vmmFlagsRW else flags
  let flags := if prot &&& mmapProtUser ≠ 0#32 then flags ||| vmmFlagsUS else flags
  if prot &&& mmapProtExec ≠ 0#32 then flags &&& ~~~vmmFlagsNX else flags

def pageOffsetOf (offset : ℤ) : ℤ := offset - offset % pageSize

def filePages (length : ℕ) : ℕ :=
  (((BitVec.ofNat 32 length).toInt + (pageSize - 1)).tdiv pageSize % 2 ^ 64).toNat

def offsetKey (offset : ℤ) : BitVec 64 := BitVec.ofInt 64 offset

def Space.enterPage (t : Space N) (page : Page N) : Space N :=
  { t with
    leaves := Function.update t.leaves (pageOf page.vaddr) (page.paddr ||| page.flags)
    pages := hashTablePush addressHash t.pages page.vaddr page }

def mmapPrivatePage (node : N) (flags frame vaddr : BitVec 64) (offset : ℤ) (t : Space N)
    (k : MapKernel N) : Space N × MapKernel N :=
  (t.enterPage ⟨frame, vaddr, pageSize, flags, some node, offset, k.kernel.nextReference⟩,
    { k with kernel := (k.kernel.pmmAlloc frame).newReference })

def mmapPrivatePages (frames : ℕ → BitVec 64) (node : N) (flags : BitVec 64) :
    ℕ → BitVec 64 → ℤ → Space N → MapKernel N → Space N × MapKernel N
  | 0, _, _, t, k => (t, k)
  | n + 1, vaddr, offset, t, k =>
    let (t, k) := mmapPrivatePage node flags (frames n) vaddr offset t k
    mmapPrivatePages frames node flags n (vaddr + 0x1000#64) (offset + pageSize) t k

section Shared

variable [DecidableEq N]

def MapKernel.pushShared (k : MapKernel N) (node : N) (page : Page N) : MapKernel N :=
  { k with
    sharedPages := Function.update k.sharedPages node
      (hashTablePush addressHash (k.sharedPages node) (offsetKey page.offset) page) }

def mmapSharedPage (shared : Option (ℤ → BitVec 64)) (node : N) (frame vaddr : BitVec 64)
    (offset : ℤ) (flags : BitVec 64) (k : MapKernel N) : Page N × BitVec 64 × Kernel :=
  match hashTableSearch addressHash (k.sharedPages node) (offsetKey offset) with
  | some page =>
    -- the page is cached: its frame and its counter, and no node
    let flags := flags ||| vmmFlagsP
    (⟨page.paddr, vaddr, pageSize, flags, none, offset, page.reference⟩, flags,
      k.kernel.addReference page.reference 1)
  | none =>
    let (frame, extraFlags, kernel) := match shared with
      | none => (frame, 0#64, k.kernel.pmmAlloc frame)
      | some sharedFrame => (sharedFrame offset, vmmFlagsP, k.kernel)
    (⟨frame, vaddr, pageSize, flags ||| extraFlags, some node, offset, k.kernel.nextReference⟩,
      flags, kernel.newReference)

def mmapSharedPages (shared : Option (ℤ → BitVec 64)) (frames : ℕ → BitVec 64) (node : N) :
    ℕ → BitVec 64 → ℤ → BitVec 64 → Space N → MapKernel N → Space N × MapKernel N
  | 0, _, _, _, t, k => (t, k)
  | n + 1, vaddr, offset, flags, t, k =>
    let (page, flags, kernel) := mmapSharedPage shared node (frames n) vaddr offset flags k
    mmapSharedPages shared frames node n (vaddr + 0x1000#64) (offset + pageSize) flags
      (t.enterPage page) ({ k with kernel := kernel }.pushShared node page)

def mmapFile (assets : Assets N) (frames : ℕ → BitVec 64) (base length : ℕ)
    (prot flags : BitVec 32) (fd offset : ℤ) (t : Space N) (k : MapKernel N) :
    Option (Space N × MapKernel N) :=
  if flags &&& mmapMapAnonymous ≠ 0#32 then some (t, k)
  else if flags &&& mmapMapShared ≠ 0#32 then
    (assets.fdTranslate fd).map fun node =>
      mmapSharedPages (assets.shared node) frames node (filePages length) (BitVec.ofNat 64 base)
        (pageOffsetOf offset) (fileFlags vmmShareFlag prot) t k
  else if flags &&& mmapMapPrivate ≠ 0#32 then
    (assets.fdTranslate fd).map fun node =>
      mmapPrivatePages frames node (fileFlags 0#64 prot) (filePages length) (BitVec.ofNat 64 base)
        (pageOffsetOf offset) t k
  else none

end Shared

/-! ## Placement -/

def ValidateStop (a : ℕ) (r : Region) : Prop := r.base ≤ a ∧ a < wrap (r.base + r.limit)
  deriving Decidable

def MapKernel.validateRegion (k : MapKernel N) (t : Space N) (base length : ℕ) : Option ℕ := do
  let found ← TreeHeap.search Region.base (fun r => ValidateStop base r) base k.heap k.heap.length
    t.mmapRegionRoot
  match found with
  | none => some noConflict
  | some p =>
    let n ← k.heap[p]?
    some (wrap (n.val.base + n.val.limit + (2 ^ 64 - base) + length))

def MapKernel.mmapPlace (k : MapKernel N) (t : Space N) (length : ℕ) : ℕ → ℕ → Option ℕ
  | 0, _ => none
  | iterations + 1, base => do
    let conflictOffset ← k.validateRegion t base length
    if conflictOffset = noConflict then some base
    else k.mmapPlace t length iterations (wrap (base + conflictOffset))

def MapKernel.mmapBase (k : MapKernel N) (iterations : ℕ) (t : Space N) (addr length : ℕ)
    (flags : BitVec 32) : Option ℕ :=
  if flags &&& mmapMapFixed ≠ 0#32 then some addr
  else k.mmapPlace t length iterations t.mmapBumpBase

def mmap [DecidableEq N] (assets : Assets N) (frames : ℕ → BitVec 64) (iterations : ℕ)
    (t : Space N) (k : MapKernel N) (addr length : ℕ) (prot flags : BitVec 32) (fd offset : ℤ) :
    Option (Option ℕ × Space N × MapKernel N) :=
  let length := alignUp length pageSize
  (k.mmapBase iterations t addr length flags).bind fun base =>
    let t := if flags &&& mmapMapFixed ≠ 0#32 then t
      else { t with mmapBumpBase := wrap (base + length) }
    if length = 0 ∨ base = 0 then some (none, t, k)
    else if base % pageSize ≠ 0 ∨ length % pageSize ≠ 0 then some (none, t, k)
    else
      match mmapFile assets frames base length prot flags fd offset t k with
      | none => some (none, t, k)
      | some (t, k) =>
        let (p, k) := k.allocRegion ⟨base, length, prot, flags, fd, offset⟩
        (bstGenericInsert Region.base k.heap t.mmapRegionRoot (some p)).map fun (h, root) =>
          (some base, { t with mmapRegionRoot := root }, { k with heap := h })

theorem mmap_cases [DecidableEq N] {assets : Assets N} {frames : ℕ → BitVec 64} {t t' : Space N}
    {k k' : MapKernel N} {iterations addr length : ℕ} {prot flags : BitVec 32} {fd offset : ℤ}
    {ret : Option ℕ} (h : mmap assets frames iterations t k addr length prot flags fd offset =
      some (ret, t', k')) :
    ∃ bump, t' = { t with mmapBumpBase := bump } ∧ k' = k ∨
      ∃ base len t₁ k₁ r h₂ root, base % pageSize = 0 ∧ mmapFile assets frames base len prot flags fd
        offset { t with mmapBumpBase := bump } k = some (t₁, k₁) ∧
      bstGenericInsert Region.base (k₁.allocRegion r).2.heap t₁.mmapRegionRoot
        (some (k₁.allocRegion r).1) = some (h₂, root) ∧
      t' = { t₁ with mmapRegionRoot := root } ∧ k' = { k₁ with heap := h₂ } := by
  obtain ⟨base, -, h⟩ := bind_eq_some_iff.mp h
  dsimp only at h
  obtain ⟨bump, hbump⟩ : ∃ bump, (if flags &&& mmapMapFixed ≠ 0#32 then t
      else { t with mmapBumpBase := wrap (base + alignUp length pageSize) }) =
        { t with mmapBumpBase := bump } := by
    split_ifs
    · exact ⟨t.mmapBumpBase, rfl⟩
    · exact ⟨_, rfl⟩
  rw [hbump] at h
  have hfail : some (none, { t with mmapBumpBase := bump }, k) = some (ret, t', k') →
      t' = { t with mmapBumpBase := bump } ∧ k' = k := by
    intro heq
    cases heq
    exact ⟨rfl, rfl⟩
  refine ⟨bump, ?_⟩
  split_ifs at h with hzero hunaligned
  · exact .inl (hfail h)
  · exact .inl (hfail h)
  cases hfile : mmapFile assets frames base (alignUp length pageSize) prot flags fd offset
      { t with mmapBumpBase := bump } k with
  | none =>
    rw [hfile] at h
    exact .inl (hfail h)
  | some tk =>
    rw [hfile] at h
    obtain ⟨⟨h₂, root⟩, hinsert, heq⟩ := map_eq_some_iff.mp h
    obtain ⟨-, rfl, rfl⟩ := heq
    have hbase : base % pageSize = 0 := by
      by_contra hne
      exact hunaligned (.inl hne)
    exact .inr ⟨base, _, _, _, _, h₂, root, hbase, hfile, hinsert, rfl, rfl⟩

/-! ## The addresses the placement tests -/

def Jump (regions : List (ℕ × Region)) (length c c' : ℕ) : Prop :=
  ∃ x ∈ regions, x.2.Contains c ∧ c' = x.2.base + x.2.limit + length

/-- No region begins inside a mapping at `c`. -/
def NoneBegins (regions : List (ℕ × Region)) (length c : ℕ) : Prop :=
  ∀ x ∈ regions, ¬ (c < x.2.base ∧ x.2.base < c + length)

def Free (regions : List (ℕ × Region)) (c : ℕ) : Prop := ∀ x ∈ regions, ¬ x.2.Contains c

/-- **Room for a mapping**: none of the regions begins less than the length behind the bump base,
if that lies in no region, or else less than the length behind the address at this distance from
the end of any region above the bump base, if that lies in no region. -/
def RoomAhead (regions : List (ℕ × Region)) (length bump : ℕ) : Prop :=
  (Free regions bump → NoneBegins regions length bump) ∧
    (¬ Free regions bump → ∀ x ∈ regions, bump < x.2.base + x.2.limit →
      Free regions (x.2.base + x.2.limit + length) →
        NoneBegins regions length (x.2.base + x.2.limit + length))

/-- No address that the placement computes wraps. -/
def NoWrap (regions : List (ℕ × Region)) (length bump : ℕ) : Prop :=
  ∀ c, Relation.ReflTransGen (Jump regions length) bump c → c + length < 2 ^ 64 ∧
    ∀ x ∈ regions, x.2.base ≤ c → x.2.base + x.2.limit < 2 ^ 64

section Placement

variable {t : Space N} {k : MapKernel N} {tree : BinaryTree (ℕ × Region)} {length c base : ℕ}

section

variable (ht : IntervalTree k.heap t.mmapRegionRoot tree)
    (hwrap : ∀ x ∈ inorder tree, x.2.base ≤ c → x.2.base + x.2.limit < 2 ^ 64)

include ht hwrap

theorem IntervalTree.validate_search {x : ℕ × Region}
    (hx : x ∈ inorder tree) (hc : x.2.Contains c) :
    SearchTree.search (fun x : ℕ × Region => x.2.base) (fun x => ValidateStop c x.2) c tree =
      some x := by
  have hstop : ∀ y ∈ inorder tree, ValidateStop c y.2 → y.2.Contains c := by
    rintro y hy ⟨hle, hlt⟩
    rw [wrap_of_lt (hwrap y hy hle)] at hlt
    exact ⟨hle, hlt⟩
  refine search_complete ht.sorted hx ?_ (fun y hy hy' => ?_) hc.1 fun y hy hlt => ?_
  · refine decide_eq_true ⟨hc.1, ?_⟩
    rw [wrap_of_lt (hwrap x hx hc.1)]
    exact hc.2
  · have hyc := hstop y hy (of_decide_eq_true hy')
    refine (ht.apart hy hx).resolve_right ?_
    obtain ⟨h₁, h₂⟩ := hc
    obtain ⟨h₃, h₄⟩ := hyc
    omega
  · rcases ht.apart hx hy with rfl | happart
    · omega
    · obtain ⟨h₁, h₂⟩ := hc
      omega

theorem IntervalTree.validateRegion_hit {x : ℕ × Region}
    (hx : x ∈ inorder tree) (hc : x.2.Contains c) :
    k.validateRegion t c length = some (wrap (x.2.base + x.2.limit + (2 ^ 64 - c) + length)) := by
  obtain ⟨n, hn, hval⟩ := ht.links.val_eq hx
  have hsearch := TreeHeap.search_eq Region.base (fun r => ValidateStop c r) c ht.links ht.length_le
  rw [ht.validate_search hwrap hx hc] at hsearch
  rw [MapKernel.validateRegion, hsearch]
  simp only [bind_eq_bind, bind_some, map_some, hn, hval]

theorem IntervalTree.validateRegion_miss (hfree : ∀ x ∈ inorder tree, ¬ x.2.Contains c) :
    k.validateRegion t c length = some noConflict := by
  have hsearch := TreeHeap.search_eq Region.base (fun r => ValidateStop c r) c ht.links ht.length_le
  have hnone : SearchTree.search (fun x : ℕ × Region => x.2.base) (fun x => ValidateStop c x.2) c
      tree = none := by
    rw [eq_none_iff_forall_ne_some]
    intro x hx
    obtain ⟨hmem, hstop⟩ := search_spec hx
    obtain ⟨hle, hlt⟩ := of_decide_eq_true hstop
    rw [wrap_of_lt (hwrap x hmem hle)] at hlt
    exact hfree x hmem ⟨hle, hlt⟩
  rw [hnone] at hsearch
  rw [MapKernel.validateRegion, hsearch]
  simp only [bind_eq_bind, bind_some, map_none]

end

theorem mmapPlace_free (ht : IntervalTree k.heap t.mmapRegionRoot tree) {bump : ℕ}
    (hwrap : NoWrap (inorder tree) length bump) (hbase : base ≠ 0) (iterations : ℕ)
    (hc : Relation.ReflTransGen (Jump (inorder tree) length) bump c)
    (hplace : k.mmapPlace t length iterations c = some base) :
    Relation.ReflTransGen (Jump (inorder tree) length) bump base ∧
      ∀ x ∈ inorder tree, ¬ x.2.Contains base := by
  induction iterations generalizing c with
  | zero => exact absurd hplace (by simp [MapKernel.mmapPlace])
  | succ iterations ih =>
    obtain ⟨hlength, hends⟩ := hwrap c hc
    rw [MapKernel.mmapPlace] at hplace
    by_cases hfree : ∀ x ∈ inorder tree, ¬ x.2.Contains c
    · rw [ht.validateRegion_miss hends hfree] at hplace
      simp only [bind_eq_bind, bind_some, if_true, some.injEq] at hplace
      exact hplace ▸ ⟨hc, hfree⟩
    · push Not at hfree
      obtain ⟨x, hx, hcx⟩ := hfree
      have hnext := hc.tail (show Jump (inorder tree) length c (x.2.base + x.2.limit + length) from
        ⟨x, hx, hcx, rfl⟩)
      have hbound := (hwrap _ hnext).1
      obtain ⟨hle, hlt⟩ := id hcx
      have hoffset : wrap (x.2.base + x.2.limit + (2 ^ 64 - c) + length) =
          x.2.base + x.2.limit - c + length := by
        rw [show x.2.base + x.2.limit + (2 ^ 64 - c) + length =
          x.2.base + x.2.limit - c + length + 2 ^ 64 by omega, wrap, Nat.add_mod_right]
        exact Nat.mod_eq_of_lt (by omega)
      rw [ht.validateRegion_hit hends hx hcx, hoffset] at hplace
      simp only [bind_eq_bind, bind_some] at hplace
      split_ifs at hplace with hminus
      · -- an offset of `-1` needs the address 0
        cases hplace
        rw [noConflict] at hminus
        omega
      · rw [show c + (x.2.base + x.2.limit - c + length) = x.2.base + x.2.limit + length by omega,
          wrap_of_lt (by omega)] at hplace
        exact ih hnext hplace

theorem Jump.unique (ht : IntervalTree k.heap t.mmapRegionRoot tree) :
    Relator.RightUnique (Jump (inorder tree) length) := by
  rintro c _ _ ⟨x, hx, ⟨h₁, h₂⟩, rfl⟩ ⟨y, hy, ⟨h₃, h₄⟩, rfl⟩
  obtain rfl : x = y := (ht.apart hx hy).resolve_right (by omega)
  rfl

section Jumps

variable {regions : List (ℕ × Region)} {d : ℕ}

theorem Free.eq_of_jumps (hfree : Free regions c)
    (hjumps : Relation.ReflTransGen (Jump regions length) c d) : c = d := by
  rcases hjumps.cases_head with heq | ⟨e, ⟨x, hx, hcx, -⟩, -⟩
  · exact heq
  · exact absurd hcx (hfree x hx)

theorem le_of_jumps (hjumps : Relation.ReflTransGen (Jump regions length) c d) : c ≤ d := by
  induction hjumps with
  | refl => exact le_rfl
  | tail _ hjump ih =>
    obtain ⟨x, -, ⟨-, hlt⟩, rfl⟩ := hjump
    omega

theorem RoomAhead.noneBegins (hroom : RoomAhead regions length c)
    (hjumps : Relation.ReflTransGen (Jump regions length) c d) (hfree : Free regions d) :
    NoneBegins regions length d := by
  by_cases hc : Free regions c
  · obtain rfl := hc.eq_of_jumps hjumps
    exact hroom.1 hc
  · rcases hjumps.cases_tail with rfl | ⟨e, he, x, hx, hcx, rfl⟩
    · exact absurd hfree hc
    · exact hroom.2 hc x hx (lt_of_le_of_lt (le_of_jumps he) hcx.2) hfree

end Jumps

end Placement

/-! ## Disjointness -/

section Disjoint

variable [DecidableEq N] {assets : Assets N} {frames : ℕ → BitVec 64} {iterations : ℕ}
  {t t' : Space N} {k k' : MapKernel N} {addr length base : ℕ} {prot flags : BitVec 32}
  {fd offset : ℤ}

theorem mmap_base (h : mmap assets frames iterations t k addr length prot flags fd offset =
      some (some base, t', k')) :
    k.mmapBase iterations t addr (alignUp length pageSize) flags = some base ∧
      MmapValid base (alignUp length pageSize) := by
  obtain ⟨base', hbase, h⟩ := bind_eq_some_iff.mp h
  dsimp only at h
  generalize (if flags &&& mmapMapFixed ≠ 0#32 then t
    else { t with mmapBumpBase := wrap (base' + alignUp length pageSize) }) = placed at h
  split_ifs at h with hzero hunaligned
  · simp at h
  · simp at h
  cases hfile : mmapFile assets frames base' (alignUp length pageSize) prot flags fd offset placed k
    with
  | none => simp [hfile] at h
  | some tk =>
    rw [hfile] at h
    obtain ⟨_, _, heq⟩ := map_eq_some_iff.mp h
    obtain rfl : base' = base := some.inj (Prod.mk.inj heq).1
    obtain ⟨h₁, h₂⟩ := not_or.mp hzero
    obtain ⟨h₃, h₄⟩ := not_or.mp hunaligned
    exact ⟨hbase, h₁, h₂, not_not.mp h₃, not_not.mp h₄⟩

theorem Free.disjoint_iff {regions : List (ℕ × Region)} (hfree : Free regions base) :
    (∀ x ∈ regions, x.2.base + x.2.limit ≤ base ∨ base + length ≤ x.2.base) ↔
      NoneBegins regions length base := by
  refine forall₂_congr fun x hx => ?_
  have hnot : ¬ (x.2.base ≤ base ∧ base < x.2.base + x.2.limit) := hfree x hx
  omega

end Disjoint

def fixedAhead (bump : ℕ) : Space Unit := ⟨some 0, bump, fun _ => 0#64, HashTable.empty⟩

def fixedRegion : ℕ × Region := (0, ⟨0x11000, 0x1000, 0#32, 0x4#32, -1, 0⟩)

def fixedAheadKernel : MapKernel Unit :=
  { oneRegionKernel with heap := [⟨fixedRegion.2, none, none, none⟩] }

def noFiles : Assets Unit := ⟨fun _ => none, fun _ => none, fun _ => overwrite⟩

theorem intervalTree_fixedAhead (bump : ℕ) :
    IntervalTree fixedAheadKernel.heap (fixedAhead bump).mmapRegionRoot
      (.node fixedRegion .nil .nil) where
  links := ⟨rfl, _, rfl, rfl, fun _ => rfl, rfl, rfl⟩
  nodup := by decide
  ordered := List.pairwise_singleton ..
  limit_pos := by decide
  bounded := by decide

theorem jump_fixedAhead {length bump c : ℕ}
    (h : Relation.ReflTransGen (Jump [fixedRegion] length) bump c) :
    c = bump ∨ c = 0x12000 + length := by
  induction h with
  | refl => exact .inl rfl
  | tail _ hjump _ =>
    obtain ⟨x, hx, -, rfl⟩ := hjump
    obtain rfl := List.mem_singleton.mp hx
    exact .inr rfl

end Pastoral
