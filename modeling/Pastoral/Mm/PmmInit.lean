import Mathlib.Algebra.Order.BigOperators.Group.List
import Mathlib.Order.CompletePartialOrder
import Mathlib.Order.Interval.Set.Disjoint
import Pastoral.Mm.PmmList
import Pastoral.Theory.Bump

/-!
# The physical page allocator: building the modules

`pmm_init` goes over the memory map three times.

## Main definitions

* `pmmInit`, `LayoutSound`

## Main results

* `pmmInit_layout_iff`: when the layout is sound
* `boot_memory_sound`: then memory is, from boot on
-/

open Option Transition
open List hiding Disjoint

namespace Pastoral

abbrev limineMemmapUsable : ℕ := 0

abbrev sizeofPmmModule : ℕ := 56

abbrev lowMemory : ℕ := 0x100000

def LimineMemmapEntry.usable (e : LimineMemmapEntry) : Bool := e.type = limineMemmapUsable

def bufferSize (mmap : List LimineMemmapEntry) : ℕ :=
  mmap.foldl (fun size e =>
    if e.usable then
      wrap (size + (sizeofPmmModule * 2 + divRoundup (divRoundup e.length pageSize) 8))
    else size) 0

def trimEntry (e : LimineMemmapEntry) : LimineMemmapEntry :=
  if e.base < lowMemory then
    if lowMemory - e.base > e.length then { e with length := 0 }
    else
      let base := e.base + (lowMemory - e.base)
      { e with base := base, length := e.length - (lowMemory - base) }
  else e

def carveEntry (size : ℕ) (e : LimineMemmapEntry) : LimineMemmapEntry :=
  { e with
    base := alignUp (wrap (e.base + size)) pageSize
    length := (e.length - size) / pageSize * pageSize }

def carve (size : ℕ) : List LimineMemmapEntry → Option (ℕ × List LimineMemmapEntry)
  | [] => none
  | e :: mmap =>
    if e.usable && size ≤ e.length then some (e.base, carveEntry size e :: mmap)
    else (carve size mmap).map fun (metaBuffer, mmap') => (metaBuffer, e :: mmap')

structure PlacedModule where
  structAt : ℕ
  bitmapAt : ℕ
  mod : PmmModule
  deriving DecidableEq, Repr

def LimineMemmapEntry.active (e : LimineMemmapEntry) : Bool := e.usable && e.length ≠ 0

def placeModules : ℕ → List LimineMemmapEntry → List PlacedModule
  | _, [] => []
  | metaBuffer, e :: mmap =>
    if e.active then
      let structAt := alignUp metaBuffer sizeofPmmModule
      let bitmapAt := wrap (structAt + sizeofPmmModule * 2)
      let mod := pmmInitModule e
      ⟨structAt, bitmapAt, mod⟩ :: placeModules (wrap (bitmapAt + mod.bitmapSize)) mmap
    else placeModules metaBuffer mmap

structure PmmLayout where
  metaBuffer : ℕ
  reserved : ℕ
  modules : List PlacedModule
  deriving DecidableEq, Repr

def pmmInit (mmap : List LimineMemmapEntry) : Option PmmLayout :=
  (carve (bufferSize mmap) (mmap.map trimEntry)).map fun (metaBuffer, mmap') =>
    ⟨metaBuffer, bufferSize mmap, placeModules metaBuffer mmap'⟩

/-! ## What the layout has to satisfy -/

def LimineMemmapEntry.range (e : LimineMemmapEntry) : Set ℕ := Set.Ico e.base (e.base + e.length)

def PmmModule.range (m : PmmModule) : Set ℕ := Set.Ico m.mmapEntry.base (m.page m.bitmapEntryCnt)

def PlacedModule.footprint (m : PlacedModule) : List (ℕ × ℕ) :=
  [(m.structAt, m.structAt + sizeofPmmModule), (m.bitmapAt, m.bitmapAt + m.mod.bitmapSize)]

/-- **A sound layout** for a memory map: the pages of the modules are usable ones above 1 MiB,
those of two modules do not meet, and the metadata lies in the reserved bytes, apart from each
other and from the pages. -/
structure LayoutSound (mmap : List LimineMemmapEntry) (l : PmmLayout) : Prop where
  usable : ∀ m ∈ l.modules, ∀ i < m.mod.bitmapEntryCnt, lowMemory ≤ m.mod.page i ∧
    ∃ e ∈ mmap, e.usable ∧ e.base ≤ m.mod.page i ∧ m.mod.page (i + 1) ≤ e.base + e.length
  apart : l.modules.Pairwise fun m n => Disjoint m.mod.range n.mod.range
  reserved : ∀ m ∈ l.modules, ∀ r ∈ m.footprint,
    l.metaBuffer ≤ r.1 ∧ r.2 ≤ l.metaBuffer + l.reserved
  footprints : (l.modules.flatMap PlacedModule.footprint).Pairwise fun r r' =>
    Disjoint (Set.Ico r.1 r.2) (Set.Ico r'.1 r'.2)
  offPages : ∀ m ∈ l.modules, ∀ r ∈ m.footprint, ∀ n ∈ l.modules,
    Disjoint (Set.Ico r.1 r.2) n.mod.range

/-- What the boot loader promises: the usable entries are page-aligned, lie below `2 ^ 62` and do
not meet. -/
structure BootMap (mmap : List LimineMemmapEntry) : Prop where
  aligned : ∀ e ∈ mmap, e.usable → pageSize ∣ e.base ∧ pageSize ∣ e.length
  bounded : ∀ e ∈ mmap, e.usable → e.base + e.length ≤ 2 ^ 62
  apart : mmap.Pairwise fun e e' => e.usable → e'.usable → Disjoint e.range e'.range

/-! ## The two conditions -/

def bitmapBytes (n : ℕ) : ℕ := (n + 7) / 8

def estimate (mmap : List LimineMemmapEntry) : ℕ :=
  ((mmap.filter LimineMemmapEntry.usable).map fun e =>
    sizeofPmmModule * 2 + bitmapBytes (e.length / pageSize)).sum

def LimineMemmapEntry.holdsMeta (size : ℕ) (e : LimineMemmapEntry) : Bool :=
  e.usable && lowMemory ≤ e.base + e.length && size ≤ e.length

def bitmapOf (n : ℕ) : List ℕ := if n = 0 then [] else [bitmapBytes n]

def LimineMemmapEntry.plainBitmap (e : LimineMemmapEntry) : List ℕ :=
  if e.usable && lowMemory ≤ e.base + e.length then bitmapOf (e.length / pageSize) else []

def bitmapSizes (size : ℕ) : List LimineMemmapEntry → List ℕ
  | [] => []
  | e :: mmap =>
    if e.holdsMeta size then
      bitmapOf ((e.length - size) / pageSize) ++ mmap.flatMap LimineMemmapEntry.plainBitmap
    else e.plainBitmap ++ bitmapSizes size mmap

def metaHolder (mmap : List LimineMemmapEntry) : Option LimineMemmapEntry :=
  mmap.find? (LimineMemmapEntry.holdsMeta (estimate mmap))

def metadataSize (metaBuffer : ℕ) (mmap : List LimineMemmapEntry) : ℕ :=
  Bump.padding sizeofPmmModule metaBuffer (bitmapSizes (estimate mmap) mmap) +
    ((bitmapSizes (estimate mmap) mmap).map fun size => sizeofPmmModule * 2 + size).sum

/-- **The padding fits**: the metadata, aligned, is no longer than the estimate. -/
def PaddingFits (mmap : List LimineMemmapEntry) : Prop :=
  ∀ e, metaHolder mmap = some e → metadataSize (max lowMemory e.base) mmap ≤ estimate mmap

/-- **No entry reaches 1 MiB from below**, except one that is used up by the metadata with no
other usable entry in the way. -/
def LowMemoryClear (mmap : List LimineMemmapEntry) : Prop :=
  ∀ e ∈ mmap, e.usable → e.base < lowMemory → lowMemory ≤ e.base + e.length →
    metaHolder mmap = some e ∧ e.length < estimate mmap + pageSize ∧
      ∀ e' ∈ mmap, e'.usable → 0 < e'.length → lowMemory ≤ e'.base →
        lowMemory + metadataSize lowMemory mmap ≤ e'.base

/-! ## The passes in closed form -/

section Passes

variable {e : LimineMemmapEntry} {mmap : List LimineMemmapEntry} {size : ℕ}

theorem trimEntry_eq (e : LimineMemmapEntry) :
    trimEntry e = if e.base + e.length < lowMemory then { e with length := 0 }
      else { e with base := max lowMemory e.base } := by
  rcases lt_or_ge e.base lowMemory with hlow | hhigh
  · rw [trimEntry, if_pos hlow]
    split_ifs with h₁ h₂ h₂
    · rfl
    · omega
    · omega
    · have hbase : e.base + (lowMemory - e.base) = max lowMemory e.base := by omega
      simp only [hbase]
      rw [max_eq_left hlow.le, Nat.sub_self, Nat.sub_zero]
  · rw [trimEntry, if_neg (by omega), if_neg (by omega), max_eq_right hhigh]

@[simp]
theorem trimEntry_usable (e : LimineMemmapEntry) : (trimEntry e).usable = e.usable := by
  rw [trimEntry_eq]
  split_ifs <;> rfl

theorem trimEntry_holds (hsize : 0 < size) (e : LimineMemmapEntry) :
    ((trimEntry e).usable && decide (size ≤ (trimEntry e).length)) = e.holdsMeta size := by
  rw [trimEntry_usable, trimEntry_eq, LimineMemmapEntry.holdsMeta, Bool.and_assoc]
  split_ifs with h
  · rw [decide_eq_false (not_le.mpr hsize), decide_eq_false (not_le.mpr h), Bool.false_and]
  · rw [decide_eq_true (not_lt.mp h), Bool.true_and]

theorem carve_eq (size : ℕ) (mmap : List LimineMemmapEntry) :
    carve size mmap = (mmap.find? fun e => e.usable && size ≤ e.length).map fun e =>
      (e.base, mmap.modify (mmap.findIdx fun e => e.usable && size ≤ e.length)
        (carveEntry size)) := by
  induction mmap with
  | nil => rfl
  | cons e mmap ih =>
    rw [carve, find?_cons, findIdx_cons]
    cases h : (e.usable && decide (size ≤ e.length)) with
    | true => rfl
    | false =>
      rw [ih, Option.map_map]
      rfl

theorem placeModules_mod (metaBuffer : ℕ) (mmap : List LimineMemmapEntry) :
    (placeModules metaBuffer mmap).map PlacedModule.mod =
      (mmap.filter LimineMemmapEntry.active).map pmmInitModule := by
  induction mmap generalizing metaBuffer with
  | nil => rfl
  | cons e mmap ih =>
    rw [placeModules, filter_cons]
    split_ifs with h
    · simp only [map_cons, ih]
    · exact ih _

theorem pmmInitModule_aligned (hlen : pageSize ∣ e.length) (hbound : e.length ≤ 2 ^ 62) :
    (pmmInitModule e).bitmapEntryCnt = e.length / pageSize ∧
      (pmmInitModule e).bitmapSize = bitmapBytes (e.length / pageSize) ∧
      (pmmInitModule e).range = e.range := by
  obtain ⟨n, hn⟩ := hlen
  have hcnt : divRoundup e.length pageSize = n := by
    rw [hn, mul_comm]
    refine divRoundup_mul (by decide) ?_
    simp only [pageSize] at hn ⊢
    omega
  have hdiv : e.length / pageSize = n := by
    rw [hn]
    exact Nat.mul_div_cancel_left n (by decide)
  refine ⟨hcnt.trans hdiv.symm, ?_, ?_⟩
  · change divRoundup (divRoundup e.length pageSize) 8 = _
    rw [hcnt, hdiv, divRoundup_of_lt, bitmapBytes]
    simp only [pageSize] at hn
    omega
  · change Set.Ico e.base (e.base + divRoundup e.length pageSize * pageSize) = _
    rw [hcnt, mul_comm, ← hn, LimineMemmapEntry.range]

theorem bufferSize_eq (hmap : BootMap mmap) (hest : estimate mmap < 2 ^ 64) :
    bufferSize mmap = estimate mmap := by
  have key : ∀ (l : List LimineMemmapEntry) (size : ℕ),
      (∀ e ∈ l, e.usable → pageSize ∣ e.length ∧ e.length ≤ 2 ^ 62) → size < 2 ^ 64 →
      l.foldl (fun size e => if e.usable then
        wrap (size + (sizeofPmmModule * 2 + divRoundup (divRoundup e.length pageSize) 8))
        else size) size = wrap (size + estimate l) := by
    intro l
    induction l with
    | nil => intro size _ hsize; simp [estimate, wrap_of_lt hsize]
    | cons e l ih =>
      intro size hl hsize
      have hl' := fun e' he' => hl e' (mem_cons_of_mem _ he')
      rw [foldl_cons, estimate, filter_cons]
      split_ifs with he
      · obtain ⟨hlen, hbound⟩ := hl e (mem_cons_self ..) he
        rw [ih _ hl' (wrap_lt _), map_cons, ← (pmmInitModule_aligned hlen hbound).2.1]
        unfold wrap
        rw [Nat.mod_add_mod, add_assoc]
        rfl
      · exact ih size hl' hsize
  rw [bufferSize, key mmap 0 ?_ (by decide), zero_add, wrap_of_lt hest]
  exact fun e he hu => ⟨(hmap.aligned e he hu).2, by have := hmap.bounded e he hu; omega⟩

def leftMap (size : ℕ) (mmap : List LimineMemmapEntry) : List LimineMemmapEntry :=
  (mmap.map trimEntry).modify (mmap.findIdx (LimineMemmapEntry.holdsMeta size)) (carveEntry size)

structure HolderSpec (mmap : List LimineMemmapEntry) (h : LimineMemmapEntry) : Prop where
  mem : mmap[mmap.findIdx (LimineMemmapEntry.holdsMeta (estimate mmap))]? = some h
  usable : h.usable
  reach : lowMemory ≤ h.base + h.length
  room : estimate mmap ≤ h.length
  pos : 0 < estimate mmap
  base_dvd : pageSize ∣ h.base
  length_dvd : pageSize ∣ h.length
  bound : h.base + h.length ≤ 2 ^ 62

theorem metaHolder_spec (hmap : BootMap mmap) {h : LimineMemmapEntry}
    (hh : metaHolder mmap = some h) : HolderSpec mmap h := by
  have hmem := mem_of_find?_eq_some hh
  obtain ⟨hu, hreach, hroom⟩ : h.usable ∧ lowMemory ≤ h.base + h.length ∧
      estimate mmap ≤ h.length := by
    simpa only [LimineMemmapEntry.holdsMeta, Bool.and_eq_true, decide_eq_true_eq, and_assoc]
      using find?_some hh
  obtain ⟨hbase, hlength⟩ := hmap.aligned h hmem hu
  refine ⟨?_, hu, hreach, hroom, ?_, hbase, hlength, hmap.bounded h hmem hu⟩
  · rw [← find?_eq_getElem?_findIdx]
    exact hh
  · refine lt_of_lt_of_le (b := sizeofPmmModule * 2 + bitmapBytes (h.length / pageSize))
      (by simp) (single_le_sum (by simp) _ ?_)
    exact List.mem_map.mpr ⟨h, mem_filter.mpr ⟨hmem, hu⟩, rfl⟩

/-- What `pmm_init` makes when the metadata is put into the entry `h`. -/
abbrev bootLayout (mmap : List LimineMemmapEntry) (h : LimineMemmapEntry) : PmmLayout :=
  ⟨max lowMemory h.base, estimate mmap,
    placeModules (max lowMemory h.base) (leftMap (estimate mmap) mmap)⟩

theorem pmmInit_eq (hmap : BootMap mmap) {h : LimineMemmapEntry} (hh : metaHolder mmap = some h) :
    pmmInit mmap = some (bootLayout mmap h) := by
  have hspec := metaHolder_spec hmap hh
  have hest : estimate mmap < 2 ^ 64 := by
    have := hspec.room
    have := hspec.bound
    omega
  have hholds : (fun e : LimineMemmapEntry => e.usable && decide (estimate mmap ≤ e.length)) ∘
      trimEntry = LimineMemmapEntry.holdsMeta (estimate mmap) :=
    funext fun e => trimEntry_holds hspec.pos e
  have hbase : (trimEntry h).base = max lowMemory h.base := by
    rw [trimEntry_eq, if_neg (not_lt.mpr hspec.reach)]
  rw [pmmInit, bufferSize_eq hmap hest, carve_eq, find?_map, findIdx_map, hholds]
  unfold metaHolder at hh
  rw [hh]
  simp only [map_some, hbase]
  rfl

def activeBitmaps (mmap : List LimineMemmapEntry) : List ℕ :=
  (mmap.filter LimineMemmapEntry.active).map fun e => (pmmInitModule e).bitmapSize

theorem activeBitmaps_cons (e : LimineMemmapEntry) (mmap : List LimineMemmapEntry) :
    activeBitmaps (e :: mmap) = activeBitmaps [e] ++ activeBitmaps mmap := by
  rw [activeBitmaps, activeBitmaps, activeBitmaps, ← map_append, ← filter_append]
  rfl

theorem activeBitmaps_single (husable : e.usable) (hlen : pageSize ∣ e.length)
    (hbound : e.length ≤ 2 ^ 62) : activeBitmaps [e] = bitmapOf (e.length / pageSize) := by
  have hzero : e.length = 0 ↔ e.length / pageSize = 0 := by
    rw [Nat.div_eq_zero_iff_lt (by decide)]
    exact ⟨fun h => h ▸ by decide, fun h => Nat.eq_zero_of_dvd_of_lt hlen h⟩
  rw [activeBitmaps, bitmapOf]
  by_cases h : e.length = 0
  · rw [if_pos (hzero.mp h), filter_cons_of_neg (by simp [LimineMemmapEntry.active, h])]
    rfl
  · rw [if_neg fun h' => h (hzero.mpr h'),
      filter_cons_of_pos (by simp [LimineMemmapEntry.active, h, husable]),
      ← (pmmInitModule_aligned hlen hbound).2.1]
    rfl

theorem plainBitmap_eq (he : e.usable → pageSize ∣ e.length ∧ e.length ≤ 2 ^ 62) :
    e.plainBitmap = activeBitmaps [trimEntry e] := by
  rw [LimineMemmapEntry.plainBitmap]
  cases hu : e.usable with
  | false => simp [activeBitmaps, LimineMemmapEntry.active, hu]
  | true =>
    obtain ⟨hlen, hbound⟩ := he hu
    rw [trimEntry_eq]
    split_ifs with h₁ h₂ h₂
    · simp only [Bool.true_and, decide_eq_true_eq] at h₁
      omega
    · exact (activeBitmaps_single (e := { e with base := max lowMemory e.base }) hu hlen
        hbound).symm
    · simp [activeBitmaps, LimineMemmapEntry.active]
    · simp only [Bool.true_and, decide_eq_true_eq] at h₁
      omega

theorem carveEntry_bitmap (hu : e.usable) (hreach : lowMemory ≤ e.base + e.length)
    (hbound : e.length ≤ 2 ^ 62) :
    activeBitmaps [carveEntry size (trimEntry e)] = bitmapOf ((e.length - size) / pageSize) := by
  have hlen : (carveEntry size (trimEntry e)).length =
      (e.length - size) / pageSize * pageSize := by
    rw [trimEntry_eq, if_neg (by omega)]
    rfl
  rw [activeBitmaps_single, hlen, Nat.mul_div_cancel _ (by decide)]
  · exact (trimEntry_usable e).trans hu
  · exact dvd_mul_left _ _
  · rw [hlen]
    exact ((Nat.div_mul_le_self _ _).trans (Nat.sub_le _ _)).trans hbound

theorem bitmapSizes_eq
    (hmap : ∀ e ∈ mmap, e.usable → pageSize ∣ e.length ∧ e.length ≤ 2 ^ 62) :
    bitmapSizes size mmap = activeBitmaps (leftMap size mmap) := by
  have hplain : ∀ l : List LimineMemmapEntry,
      (∀ e ∈ l, e.usable → pageSize ∣ e.length ∧ e.length ≤ 2 ^ 62) →
      l.flatMap LimineMemmapEntry.plainBitmap = activeBitmaps (l.map trimEntry) := by
    intro l hl
    induction l with
    | nil => rfl
    | cons e l ih =>
      rw [flatMap_cons, map_cons, activeBitmaps_cons,
        ← plainBitmap_eq (hl e (mem_cons_self ..)),
        ih fun e' he' => hl e' (mem_cons_of_mem _ he')]
  induction mmap with
  | nil => rfl
  | cons e mmap ih =>
    have hmap' := fun e' he' => hmap e' (mem_cons_of_mem _ he')
    rw [bitmapSizes, leftMap, findIdx_cons, map_cons]
    cases h : e.holdsMeta size with
    | true =>
      obtain ⟨hu, hreach, -⟩ : e.usable ∧ lowMemory ≤ e.base + e.length ∧ size ≤ e.length := by
        simpa only [LimineMemmapEntry.holdsMeta, Bool.and_eq_true, decide_eq_true_eq, and_assoc]
          using h
      have hbound := (hmap e (mem_cons_self ..) hu).2
      rw [if_pos rfl, cond_true, modify_zero_cons, activeBitmaps_cons,
        carveEntry_bitmap hu hreach hbound, hplain mmap hmap']
    | false =>
      rw [cond_false, modify_succ_cons, activeBitmaps_cons,
        ← plainBitmap_eq (hmap e (mem_cons_self ..)), ih hmap']
      rfl

theorem sum_bitmapSizes_le (size : ℕ) (mmap : List LimineMemmapEntry) :
    ((bitmapSizes size mmap).map fun b => sizeofPmmModule * 2 + b).sum ≤ estimate mmap := by
  have hbytes : ∀ n k, n ≤ k → bitmapBytes n ≤ bitmapBytes k := fun n k h =>
    Nat.div_le_div_right (Nat.add_le_add_right h 7)
  have hone : ∀ n k, n ≤ k → ((bitmapOf n).map fun b => sizeofPmmModule * 2 + b).sum ≤
      sizeofPmmModule * 2 + bitmapBytes k := by
    intro n k h
    unfold bitmapOf
    split_ifs
    · simp
    · simpa using hbytes n k h
  have hcons : ∀ (e : LimineMemmapEntry) (l : List LimineMemmapEntry), estimate (e :: l) =
      (if e.usable then sizeofPmmModule * 2 + bitmapBytes (e.length / pageSize) else 0) +
        estimate l := by
    intro e l
    rw [estimate, filter_cons]
    split_ifs <;> simp [estimate]
  have hentry : ∀ e : LimineMemmapEntry, (e.plainBitmap.map fun b => sizeofPmmModule * 2 + b).sum ≤
      if e.usable then sizeofPmmModule * 2 + bitmapBytes (e.length / pageSize) else 0 := by
    intro e
    rw [LimineMemmapEntry.plainBitmap]
    split_ifs with h₁ h₂ h₂
    · exact hone _ _ le_rfl
    · simp [h₂] at h₁
    · simp
    · simp
  have hplain : ∀ l : List LimineMemmapEntry, ((l.flatMap LimineMemmapEntry.plainBitmap).map
      fun b => sizeofPmmModule * 2 + b).sum ≤ estimate l := by
    intro l
    induction l with
    | nil => simp
    | cons e l ih =>
      rw [flatMap_cons, map_append, sum_append, hcons]
      exact add_le_add (hentry e) ih
  induction mmap with
  | nil => simp [bitmapSizes]
  | cons e mmap ih =>
    rw [bitmapSizes, hcons]
    split_ifs with h₁ h₂ h₂
    · rw [map_append, sum_append]
      exact add_le_add (hone _ _ (Nat.div_le_div_right (Nat.sub_le _ _))) (hplain mmap)
    · simp [LimineMemmapEntry.holdsMeta, h₂] at h₁
    all_goals
      rw [map_append, sum_append]
      have := hentry e
      simp only [h₂] at this
      exact add_le_add this ih

theorem placeModules_starts {metaBuffer : ℕ}
    (hstop : Bump.stop sizeofPmmModule (sizeofPmmModule * 2) metaBuffer (activeBitmaps mmap) +
      sizeofPmmModule ≤ 2 ^ 64) :
    (placeModules metaBuffer mmap).map (fun m => (m.structAt, m.mod.bitmapSize)) =
        Bump.starts sizeofPmmModule (sizeofPmmModule * 2) metaBuffer (activeBitmaps mmap) ∧
      ∀ m ∈ placeModules metaBuffer mmap, m.bitmapAt = m.structAt + sizeofPmmModule * 2 := by
  induction mmap generalizing metaBuffer with
  | nil => exact ⟨rfl, by simp [placeModules]⟩
  | cons e mmap ih =>
    rw [placeModules]
    cases he : e.active with
    | false =>
      have hskip : activeBitmaps (e :: mmap) = activeBitmaps mmap := by
        simp [activeBitmaps, he]
      rw [hskip] at hstop ⊢
      exact ih hstop
    | true =>
      have htake : activeBitmaps (e :: mmap) =
          (pmmInitModule e).bitmapSize :: activeBitmaps mmap := by
        simp [activeBitmaps, he]
      rw [htake] at hstop ⊢
      rw [Bump.stop] at hstop
      have hsize : 0 < sizeofPmmModule := by decide
      have hle := lt_of_le_of_lt Bump.le_stop
        (lt_of_lt_of_le (Nat.lt_add_of_pos_right hsize) hstop)
      have hat : alignUp metaBuffer sizeofPmmModule =
          metaBuffer + Bump.pad sizeofPmmModule metaBuffer := by
        obtain ⟨hdvd, hge, hlt⟩ := alignUp_spec (a := metaBuffer) (b := sizeofPmmModule)
          (by decide) (by omega)
        exact Bump.eq_add_pad (by decide) hdvd hge hlt
      have hbitmap : wrap (metaBuffer + Bump.pad sizeofPmmModule metaBuffer +
          sizeofPmmModule * 2) = metaBuffer + Bump.pad sizeofPmmModule metaBuffer +
            sizeofPmmModule * 2 := wrap_of_lt (by omega)
      have hnext : wrap (metaBuffer + Bump.pad sizeofPmmModule metaBuffer + sizeofPmmModule * 2 +
          (pmmInitModule e).bitmapSize) = metaBuffer + Bump.pad sizeofPmmModule metaBuffer +
            sizeofPmmModule * 2 + (pmmInitModule e).bitmapSize := wrap_of_lt (by omega)
      obtain ⟨hstarts, hbitmaps⟩ := ih hstop
      simp only [if_true, hat, hbitmap, hnext, map_cons, Bump.starts, hstarts,
        forall_mem_cons, true_and]
      exact hbitmaps

end Passes

/-! ## The entries that are left -/

section Left

variable {mmap : List LimineMemmapEntry} {h e f : LimineMemmapEntry} {i : ℕ}

theorem leftMap_getElem? (size i : ℕ) :
    (leftMap size mmap)[i]? = mmap[i]?.map fun e =>
      if mmap.findIdx (LimineMemmapEntry.holdsMeta size) = i then carveEntry size (trimEntry e)
      else trimEntry e := by
  rw [leftMap, getElem?_modify, getElem?_map, Option.map_eq_map, Option.map_map]
  rfl

theorem carveEntry_end (hspec : HolderSpec mmap h) :
    max lowMemory h.base + estimate mmap ≤
        alignUp (wrap (max lowMemory h.base + estimate mmap)) pageSize ∧
      pageSize ∣ alignUp (wrap (max lowMemory h.base + estimate mmap)) pageSize ∧
      alignUp (wrap (max lowMemory h.base + estimate mmap)) pageSize +
        (h.length - estimate mmap) / pageSize * pageSize = max lowMemory h.base + h.length := by
  have hroom := hspec.room
  have hbound := hspec.bound
  have hlow : lowMemory ≤ 2 ^ 62 := by decide
  rw [wrap_of_lt (by omega)]
  obtain ⟨hdvd, hle, hlt⟩ := alignUp_spec (a := max lowMemory h.base + estimate mmap)
    (b := pageSize) (by decide) (by simp only [pageSize]; omega)
  obtain ⟨k, hk⟩ := hdvd
  obtain ⟨x, hx⟩ : pageSize ∣ max lowMemory h.base := by
    rcases max_choice lowMemory h.base with hmax | hmax <;> rw [hmax]
    · decide
    · exact hspec.base_dvd
  obtain ⟨y, hy⟩ := hspec.length_dvd
  simp only [pageSize] at *
  omega

def holderIdx (mmap : List LimineMemmapEntry) : ℕ :=
  mmap.findIdx (LimineMemmapEntry.holdsMeta (estimate mmap))

structure LeftOf (mmap : List LimineMemmapEntry) (i : ℕ) (e f : LimineMemmapEntry) : Prop where
  entry : mmap[i]? = some e
  left : (leftMap (estimate mmap) mmap)[i]? = some f
  active : f.active

theorem LeftOf.spec (hmap : BootMap mmap) (hspec : HolderSpec mmap h) (hl : LeftOf mmap i e f) :
    (e.usable ∧ lowMemory ≤ e.base + e.length) ∧ (pageSize ∣ f.base ∧ pageSize ∣ f.length) ∧
      0 < f.length ∧ max lowMemory e.base ≤ f.base ∧
      f.base + f.length = max lowMemory e.base + e.length ∧
      (i ≠ holderIdx mmap ∧ f.base = max lowMemory e.base ∨ i = holderIdx mmap ∧ e = h ∧
        max lowMemory h.base + estimate mmap ≤ f.base ∧ estimate mmap + pageSize ≤ h.length) := by
  obtain ⟨hentry, hleft, hactive⟩ := hl
  obtain ⟨hu, hne⟩ : f.usable ∧ f.length ≠ 0 := by
    simpa [LimineMemmapEntry.active] using hactive
  rw [leftMap_getElem?, hentry, map_some] at hleft
  cases hleft
  by_cases hi : mmap.findIdx (LimineMemmapEntry.holdsMeta (estimate mmap)) = i
  · subst hi
    obtain rfl : e = h := some.inj (hentry.symm.trans hspec.mem)
    have htrim : trimEntry e = { e with base := max lowMemory e.base } := by
      rw [trimEntry_eq, if_neg (not_lt.mpr hspec.reach)]
    rw [if_pos rfl, htrim] at hne hu ⊢
    obtain ⟨hle, hdvd, hend⟩ := carveEntry_end hspec
    dsimp only [carveEntry] at hne ⊢
    refine ⟨⟨hu, hspec.reach⟩, ⟨hdvd, dvd_mul_left _ _⟩, pos_of_ne_zero hne, by omega, hend,
      .inr ⟨rfl, rfl, hle, ?_⟩⟩
    by_contra hshort
    exact hne (by rw [Nat.div_eq_of_lt (by omega), zero_mul])
  · rw [if_neg hi] at hne hu ⊢
    have hmem := mem_of_getElem? hentry
    rw [trimEntry_usable] at hu
    obtain ⟨hbase, hlength⟩ := hmap.aligned e hmem hu
    rw [trimEntry_eq] at hne ⊢
    split_ifs at hne ⊢ with hlow
    · exact absurd rfl hne
    · refine ⟨⟨hu, not_lt.mp hlow⟩, ⟨?_, hlength⟩, pos_of_ne_zero hne, le_rfl, rfl,
        .inl ⟨Ne.symm hi, rfl⟩⟩
      rcases max_choice lowMemory e.base with hmax | hmax <;> simp only [hmax]
      · decide
      · exact hbase

theorem exists_leftOf (hspec : HolderSpec mmap h) (he : mmap[i]? = some e) (hu : e.usable)
    (hpos : 0 < e.length) (hreach : lowMemory ≤ e.base + e.length)
    (hroom : i = holderIdx mmap → estimate mmap + pageSize ≤ h.length) :
    ∃ f, LeftOf mmap i e f := by
  have htrim : trimEntry e = { e with base := max lowMemory e.base } := by
    rw [trimEntry_eq, if_neg (not_lt.mpr hreach)]
  refine ⟨_, he, by rw [leftMap_getElem?, he, map_some], ?_⟩
  rw [LimineMemmapEntry.active, Bool.and_eq_true, decide_eq_true_eq]
  split_ifs with hi
  · subst hi
    obtain rfl : e = h := some.inj (he.symm.trans hspec.mem)
    rw [htrim]
    refine ⟨hu, mul_ne_zero ?_ (by decide)⟩
    have := hroom rfl
    exact Nat.div_ne_zero_iff.mpr ⟨by decide, by simp only; omega⟩
  · rw [htrim]
    exact ⟨hu, hpos.ne'⟩

theorem exists_leftOf_of_mem {metaBuffer : ℕ} {m : PlacedModule}
    (hm : m ∈ placeModules metaBuffer (leftMap (estimate mmap) mmap)) :
    ∃ i e f, LeftOf mmap i e f ∧ m.mod = pmmInitModule f := by
  have hmod : m.mod ∈ ((leftMap (estimate mmap) mmap).filter LimineMemmapEntry.active).map
      pmmInitModule := by
    rw [← placeModules_mod metaBuffer]
    exact mem_map_of_mem hm
  obtain ⟨f, hf, hfm⟩ := List.mem_map.mp hmod
  obtain ⟨hf, hactive⟩ := mem_filter.mp hf
  obtain ⟨i, hi⟩ := mem_iff_getElem?.mp hf
  obtain ⟨e, he, -⟩ : ∃ e, mmap[i]? = some e ∧ _ := by
    rw [leftMap_getElem?] at hi
    exact map_eq_some_iff.mp hi
  exact ⟨i, e, f, ⟨he, hi, hactive⟩, hfm.symm⟩

theorem LeftOf.exists_mem (hl : LeftOf mmap i e f) (metaBuffer : ℕ) :
    ∃ m ∈ placeModules metaBuffer (leftMap (estimate mmap) mmap), m.mod = pmmInitModule f := by
  have hmod : pmmInitModule f ∈
      (placeModules metaBuffer (leftMap (estimate mmap) mmap)).map PlacedModule.mod := by
    rw [placeModules_mod]
    exact mem_map_of_mem (mem_filter.mpr ⟨mem_of_getElem? hl.left, hl.active⟩)
  exact List.mem_map.mp hmod

theorem pairwise_modules_iff {metaBuffer : ℕ} {R : PmmModule → PmmModule → Prop} :
    ((placeModules metaBuffer (leftMap (estimate mmap) mmap)).Pairwise fun m n => R m.mod n.mod) ↔
      ∀ i j e e' f f', i < j → LeftOf mmap i e f → LeftOf mmap j e' f' →
        R (pmmInitModule f) (pmmInitModule f') := by
  rw [← pairwise_map (f := PlacedModule.mod) (R := R), placeModules_mod, pairwise_map,
    pairwise_filter, pairwise_iff_getElem]
  constructor
  · intro hall i j e e' f f' hij hl hl'
    obtain ⟨hi, rfl⟩ := List.getElem?_eq_some_iff.mp hl.left
    obtain ⟨hj, rfl⟩ := List.getElem?_eq_some_iff.mp hl'.left
    exact hall i j hi hj hij hl.active hl'.active
  · intro hall i j hi hj hij hactive hactive'
    have hlen : (leftMap (estimate mmap) mmap).length = mmap.length := by simp [leftMap]
    exact hall i j (mmap[i]) (mmap[j]) _ _ hij
      ⟨getElem?_eq_getElem _, getElem?_eq_getElem _, hactive⟩
      ⟨getElem?_eq_getElem _, getElem?_eq_getElem _, hactive'⟩

theorem LeftOf.range_eq (hmap : BootMap mmap) (hspec : HolderSpec mmap h)
    (hl : LeftOf mmap i e f) :
    (pmmInitModule f).bitmapEntryCnt = f.length / pageSize ∧
      (pmmInitModule f).range = f.range ∧ 0 < (pmmInitModule f).bitmapSize := by
  obtain ⟨⟨hu, -⟩, ⟨-, hlength⟩, hpos, hle, hend, -⟩ := hl.spec hmap hspec
  have hbound := hmap.bounded e (mem_of_getElem? hl.entry) hu
  obtain ⟨hcnt, hsize, hrange⟩ := pmmInitModule_aligned hlength (by omega)
  refine ⟨hcnt, hrange, ?_⟩
  rw [hsize, bitmapBytes]
  obtain ⟨n, hn⟩ := hlength
  simp only [pageSize] at hn ⊢
  omega

end Left

/-! ## The metadata -/

section Metadata

variable {mmap : List LimineMemmapEntry} {h : LimineMemmapEntry}

theorem BootMap.bitmapSizes_eq (hmap : BootMap mmap) :
    bitmapSizes (estimate mmap) mmap = activeBitmaps (leftMap (estimate mmap) mmap) := by
  refine Pastoral.bitmapSizes_eq fun e he hu => ⟨(hmap.aligned e he hu).2, ?_⟩
  have := hmap.bounded e he hu
  omega

section

variable (hmap : BootMap mmap) (hspec : HolderSpec mmap h)

include hmap hspec

theorem metadata_stop : Bump.stop sizeofPmmModule (sizeofPmmModule * 2) (max lowMemory h.base)
        (activeBitmaps (leftMap (estimate mmap) mmap)) =
        max lowMemory h.base + metadataSize (max lowMemory h.base) mmap ∧
      max lowMemory h.base + metadataSize (max lowMemory h.base) mmap + sizeofPmmModule ≤
        2 ^ 64 := by
  have hsum := sum_bitmapSizes_le (estimate mmap) mmap
  have hpad : Bump.padding sizeofPmmModule (max lowMemory h.base)
      (bitmapSizes (estimate mmap) mmap) ≤
        sizeofPmmModule * (bitmapSizes (estimate mmap) mmap).length :=
    Bump.padding_le (by decide)
  have hlen : ∀ l : List ℕ, sizeofPmmModule * l.length ≤
      (l.map fun b => sizeofPmmModule * 2 + b).sum := by
    intro l
    induction l with
    | nil => simp
    | cons b l ih =>
      rw [length_cons, map_cons, sum_cons, Nat.mul_succ]
      omega
  have hlen := hlen (bitmapSizes (estimate mmap) mmap)
  have hroom := hspec.room
  have hbound := hspec.bound
  have hlow : lowMemory ≤ 2 ^ 62 := by decide
  have hstruct : sizeofPmmModule ≤ 2 ^ 20 := by decide
  refine ⟨?_, ?_⟩
  · rw [← hmap.bitmapSizes_eq, Bump.stop_eq (by decide) (by decide), metadataSize, add_assoc]
  · rw [metadataSize]
    omega

theorem footprint_spec :
    (∀ m ∈ (bootLayout mmap h).modules, ∀ r ∈ m.footprint, max lowMemory h.base ≤ r.1 ∧
        r.2 ≤ max lowMemory h.base + metadataSize (max lowMemory h.base) mmap) ∧
      ((bootLayout mmap h).modules.flatMap PlacedModule.footprint).Pairwise fun r r' =>
        Disjoint (Set.Ico r.1 r.2) (Set.Ico r'.1 r'.2) := by
  obtain ⟨hstop, hover⟩ := metadata_stop hmap hspec
  obtain ⟨hstarts, hbitmaps⟩ := placeModules_starts (hstop ▸ hover)
  have hmem : ∀ m ∈ (bootLayout mmap h).modules,
      (m.structAt, m.mod.bitmapSize) ∈ Bump.starts sizeofPmmModule (sizeofPmmModule * 2)
        (max lowMemory h.base) (activeBitmaps (leftMap (estimate mmap) mmap)) := by
    intro m hm
    rw [← hstarts]
    exact List.mem_map.mpr ⟨m, hm, rfl⟩
  refine ⟨fun m hm r hr => ?_, pairwise_flatMap.mpr ⟨fun m hm => ?_, ?_⟩⟩
  · obtain ⟨hle, hend⟩ := Bump.mem_starts (hmem m hm)
    have hat := hbitmaps m hm
    simp only [PlacedModule.footprint, mem_cons, not_mem_nil, or_false] at hr
    rcases hr with rfl | rfl <;> simp only at hle hend ⊢ <;> omega
  · have hat := hbitmaps m hm
    simp only [PlacedModule.footprint, pairwise_cons, mem_singleton, forall_eq,
      Set.Ico_disjoint_Ico, List.Pairwise.nil, not_mem_nil, false_imp_iff, implies_true,
      and_true]
    omega
  · have hordered : ((bootLayout mmap h).modules.map fun m =>
        (m.structAt, m.mod.bitmapSize)).Pairwise fun b c =>
          b.1 + sizeofPmmModule * 2 + b.2 ≤ c.1 := hstarts ▸ Bump.starts_ordered
    rw [pairwise_map] at hordered
    refine hordered.imp_of_mem fun {m n} hm hn hmn r hr r' hr' => ?_
    have hat := hbitmaps m hm
    have hat' := hbitmaps n hn
    simp only [PlacedModule.footprint, mem_cons, not_mem_nil, or_false] at hr hr'
    rw [Set.Ico_disjoint_Ico]
    rcases hr with rfl | rfl <;> rcases hr' with rfl | rfl <;> simp only at hmn ⊢ <;> omega

theorem exists_footprint_end (hsome : bitmapSizes (estimate mmap) mmap ≠ []) :
    ∃ m ∈ (bootLayout mmap h).modules, ∃ r ∈ m.footprint,
      r.2 = max lowMemory h.base + metadataSize (max lowMemory h.base) mmap := by
  obtain ⟨hstop, hover⟩ := metadata_stop hmap hspec
  obtain ⟨hstarts, hbitmaps⟩ := placeModules_starts (hstop ▸ hover)
  obtain ⟨b, hb, hend⟩ := Bump.exists_starts_stop (hmap.bitmapSizes_eq ▸ hsome)
  rw [← hstarts] at hb
  obtain ⟨m, hm, rfl⟩ := List.mem_map.mp hb
  refine ⟨m, hm, _, mem_cons_of_mem _ (mem_singleton.mpr rfl), ?_⟩
  rw [← hstop, ← hend, hbitmaps m hm]

theorem exists_footprint_on_page {a : ℕ} (hle : max lowMemory h.base ≤ a)
    (hlt : a < max lowMemory h.base + metadataSize (max lowMemory h.base) mmap) :
    ∃ m ∈ (bootLayout mmap h).modules, ∃ r ∈ m.footprint,
      r.1 < a + pageSize ∧ a < r.2 ∧ r.1 < r.2 := by
  obtain ⟨hstop, hover⟩ := metadata_stop hmap hspec
  obtain ⟨hstarts, hbitmaps⟩ := placeModules_starts (hstop ▸ hover)
  obtain ⟨b, hb, hb₁, hb₂⟩ := Bump.exists_starts_over (by decide) hle (hstop ▸ hlt)
  rw [← hstarts] at hb
  obtain ⟨m, hm, rfl⟩ := List.mem_map.mp hb
  obtain ⟨i, e, f, hl, hf⟩ := exists_leftOf_of_mem hm
  have hsize := (hl.range_eq hmap hspec).2.2
  have hat := hbitmaps m hm
  rw [← hf] at hsize
  -- the struct if it ends behind the address, the bitmap otherwise
  rcases lt_or_ge a (m.structAt + sizeofPmmModule) with hstruct | hstruct
  · refine ⟨m, hm, _, mem_cons_self .., ?_⟩
    simp only [sizeofPmmModule, pageSize] at *
    omega
  · refine ⟨m, hm, _, mem_cons_of_mem _ (mem_singleton.mpr rfl), ?_⟩
    simp only [sizeofPmmModule, pageSize] at *
    omega

end

end Metadata

/-! ## When the layout is sound -/

section Layout

variable {mmap : List LimineMemmapEntry} {h e f : LimineMemmapEntry} {i : ℕ}

theorem BootMap.eq_of_common (hmap : BootMap mmap) {j a : ℕ} {e' : LimineMemmapEntry}
    (hi : mmap[i]? = some e) (hj : mmap[j]? = some e') (hu : e.usable) (hu' : e'.usable)
    (ha : a ∈ e.range) (ha' : a ∈ e'.range) : i = j := by
  have hpair := pairwise_iff_getElem.mp hmap.apart
  obtain ⟨hilt, rfl⟩ := List.getElem?_eq_some_iff.mp hi
  obtain ⟨hjlt, rfl⟩ := List.getElem?_eq_some_iff.mp hj
  rcases lt_trichotomy i j with hij | hij | hij
  · exact absurd ha' (Set.disjoint_left.mp (hpair i j hilt hjlt hij hu hu') ha)
  · exact hij
  · exact absurd ha (Set.disjoint_left.mp (hpair j i hjlt hilt hij hu' hu) ha')

theorem LeftOf.subset (hmap : BootMap mmap) (hh : metaHolder mmap = some h)
    (hclear : LowMemoryClear mmap) (hl : LeftOf mmap i e f) :
    lowMemory ≤ e.base ∧ f.range ⊆ e.range := by
  have hspec := metaHolder_spec hmap hh
  obtain ⟨⟨hu, hreach⟩, -, hpos, hle, hend, hcase⟩ := hl.spec hmap hspec
  have hbase : lowMemory ≤ e.base := by
    by_contra hlow
    have hmem := mem_of_getElem? hl.entry
    obtain ⟨hholder, hshort, -⟩ := hclear e hmem hu (by omega) hreach
    obtain rfl : h = e := some.inj (hh.symm.trans hholder)
    rcases hcase with ⟨hi, -⟩ | ⟨-, -, -, hroom⟩
    · have hmem : h.base ∈ h.range := ⟨le_rfl, by omega⟩
      exact hi (hmap.eq_of_common hl.entry hspec.mem hu hu hmem hmem)
    · omega
  refine ⟨hbase, Set.Ico_subset_Ico ?_ ?_⟩ <;> omega

theorem layoutSound_of_conditions (hmap : BootMap mmap) (hh : metaHolder mmap = some h)
    (hfits : PaddingFits mmap) (hclear : LowMemoryClear mmap) :
    LayoutSound mmap (bootLayout mmap h) := by
  have hspec := metaHolder_spec hmap hh
  have hfits := hfits h hh
  obtain ⟨hwhere, hfootprints⟩ := footprint_spec hmap hspec
  refine
    { usable := ?_
      apart := ?_
      reserved := fun m hm r hr => ?_
      footprints := hfootprints
      offPages := ?_ }
  · intro m hm j hj
    obtain ⟨i, e, f, hl, hf⟩ := exists_leftOf_of_mem hm
    obtain ⟨hcnt, -, -⟩ := hl.range_eq hmap hspec
    obtain ⟨⟨hu, -⟩, ⟨-, hlength⟩, hpos, hle, hend, -⟩ := hl.spec hmap hspec
    obtain ⟨hbase, -⟩ := hl.subset hmap hh hclear
    rw [hf, hcnt] at hj
    have hpage : ∀ k, m.mod.page k = f.base + k * pageSize := fun k => by rw [hf]; rfl
    have hpages : (j + 1) * pageSize ≤ f.length :=
      (Nat.mul_le_mul_right _ hj).trans (Nat.div_mul_le_self _ _)
    rw [hpage, hpage]
    exact ⟨by omega, e, mem_of_getElem? hl.entry, hu, by omega, by omega⟩
  · rw [pairwise_modules_iff (R := fun m n => Disjoint m.range n.range)]
    intro i j e e' f f' hij hl hl'
    rw [(hl.range_eq hmap hspec).2.1, (hl'.range_eq hmap hspec).2.1]
    refine Set.disjoint_left.mpr fun a ha ha' => hij.ne ?_
    exact hmap.eq_of_common hl.entry hl'.entry (hl.spec hmap hspec).1.1 (hl'.spec hmap hspec).1.1
      ((hl.subset hmap hh hclear).2 ha) ((hl'.subset hmap hh hclear).2 ha')
  · obtain ⟨hle, hend⟩ := hwhere m hm r hr
    exact ⟨hle, hend.trans (Nat.add_le_add_left hfits _)⟩
  · intro m hm r hr n hn
    obtain ⟨hle, hend⟩ := hwhere m hm r hr
    obtain ⟨i, e, f, hl, hf⟩ := exists_leftOf_of_mem hn
    obtain ⟨⟨hu, -⟩, -, hpos, hfle, hfend, hcase⟩ := hl.spec hmap hspec
    obtain ⟨hbase, hsub⟩ := hl.subset hmap hh hclear
    rw [hf, (hl.range_eq hmap hspec).2.1]
    rcases hcase with ⟨hi, hfbase⟩ | ⟨-, -, hfbase, -⟩
    · rcases lt_or_ge h.base lowMemory with hlow | hhigh
      · -- the metadata has used up its entry, and ends before the next
        obtain ⟨-, -, hnext⟩ := hclear h (mem_of_getElem? hspec.mem) hspec.usable hlow
          hspec.reach
        have hafter := hnext e (mem_of_getElem? hl.entry) hu (by omega) hbase
        rw [max_eq_left hlow.le] at hend
        rw [LimineMemmapEntry.range, Set.Ico_disjoint_Ico]
        omega
      · -- the metadata lies in its entry, which no other meets
        refine Set.disjoint_left.mpr fun a ha ha' => hi ?_
        refine hmap.eq_of_common hl.entry hspec.mem hu hspec.usable (hsub ha') ?_
        have hroom := hspec.room
        rw [max_eq_right hhigh] at hle hend hfits
        exact ⟨hle.trans ha.1, lt_of_lt_of_le ha.2 (by omega)⟩
    · rw [LimineMemmapEntry.range, Set.Ico_disjoint_Ico]
      omega

section

variable (hmap : BootMap mmap) (hspec : HolderSpec mmap h)
    (hsound : LayoutSound mmap (bootLayout mmap h))

include hmap hspec hsound

theorem LayoutSound.not_covered (hl : LeftOf mmap i e f) {a : ℕ} (hle : max lowMemory h.base ≤ a)
    (hlt : a < max lowMemory h.base + metadataSize (max lowMemory h.base) mmap) :
    ¬ Set.Ico a (a + pageSize) ⊆ f.range := by
  intro hsub
  obtain ⟨m, hm, r, hr, h₁, h₂, h₃⟩ := exists_footprint_on_page hmap hspec hle hlt
  obtain ⟨n, hn, hf⟩ := hl.exists_mem (max lowMemory h.base)
  have hdisj := hsound.offPages m hm r hr n hn
  rw [hf, (hl.range_eq hmap hspec).2.1] at hdisj
  have hmeet := hdisj.mono_right hsub
  have hpage : 0 < pageSize := by decide
  rw [Set.Ico_disjoint_Ico] at hmeet
  omega

theorem LayoutSound.exists_behind (hlow : e.base < lowMemory) (hl : LeftOf mmap i e f) :
    ∃ j e' p, i ≠ j ∧ mmap[j]? = some e' ∧ e'.usable ∧ lowMemory ≤ e'.base ∧
      p + pageSize = f.base + f.length ∧ f.base ≤ p ∧ e'.base ≤ p ∧
      p + pageSize ≤ e'.base + e'.length := by
  obtain ⟨⟨hu, hreach⟩, ⟨-, hflen⟩, hpos, hle, hend, -⟩ := hl.spec hmap hspec
  obtain ⟨n, hn, hf⟩ := hl.exists_mem (max lowMemory h.base)
  obtain ⟨hcnt, -, -⟩ := hl.range_eq hmap hspec
  obtain ⟨p, hp, hfp, hep, ⟨e', he', hu', hp₁, hp₂⟩⟩ : ∃ p, p + pageSize = f.base + f.length ∧
      f.base ≤ p ∧ e.base + e.length ≤ p ∧
      ∃ e' ∈ mmap, e'.usable ∧ e'.base ≤ p ∧ p + pageSize ≤ e'.base + e'.length := by
    obtain ⟨q, hq⟩ := hflen
    obtain ⟨b, hb⟩ := (hmap.aligned e (mem_of_getElem? hl.entry) hu).1
    have hcount : (pmmInitModule f).bitmapEntryCnt = q := by
      rw [hcnt, hq]
      exact Nat.mul_div_cancel_left q (by decide)
    have hpage : ∀ k, n.mod.page k = f.base + k * pageSize := fun k => by rw [hf]; rfl
    obtain ⟨-, e', he', hu', hp⟩ := hsound.usable n hn (q - 1) (by
      rw [hf]
      simp only [pageSize] at hq
      omega)
    rw [hpage, hpage] at hp
    refine ⟨f.base + (q - 1) * pageSize, ?_, Nat.le_add_right _ _, ?_, e', he', hu', hp.1,
      le_trans ?_ hp.2⟩ <;>
    · simp only [pageSize, lowMemory] at *
      omega
  obtain ⟨j, hj⟩ := mem_iff_getElem?.mp he'
  have hij : i ≠ j := by
    rintro rfl
    obtain rfl : e = e' := some.inj (hl.entry.symm.trans hj)
    omega
  refine ⟨j, e', p, hij, hj, hu', ?_, hp, hfp, hp₁, hp₂⟩
  by_contra hin
  have hcommon : e.base + e.length - 1 ∈ e.range ∧ e.base + e.length - 1 ∈ e'.range := by
    simp only [LimineMemmapEntry.range, Set.mem_Ico]
    omega
  exact hij (hmap.eq_of_common hl.entry hj hu hu' hcommon.1 hcommon.2)

theorem LayoutSound.not_leftOf (hlow : e.base < lowMemory) : ¬ LeftOf mmap i e f := by
  intro hl
  obtain ⟨j, e', p, hij, hj, hu', hhigh, hp, hfp, hp₁, hp₂⟩ :=
    hsound.exists_behind hmap hspec hlow hl
  have hpage : 0 < pageSize := by decide
  by_cases hholder : j = holderIdx mmap
  · subst hholder
    obtain rfl : e' = h := some.inj (hj.symm.trans hspec.mem)
    obtain ⟨-, -, -, -, -, ⟨-, hfbase⟩ | ⟨hi, -⟩⟩ := hl.spec hmap hspec
    · obtain ⟨n, hn, -⟩ := hl.exists_mem (max lowMemory e'.base)
      have hstruct := (footprint_spec hmap hspec).1 n hn _ (mem_cons_self ..)
      have hsize : 0 < sizeofPmmModule := by decide
      rw [max_eq_right hhigh] at hstruct
      refine hsound.not_covered hmap hspec hl (a := e'.base) ?_ ?_ ?_
      · rw [max_eq_right hhigh]
      · rw [max_eq_right hhigh]
        omega
      · exact Set.Ico_subset_Ico (by omega) (by omega)
    · exact hij hi
  · obtain ⟨f', hl'⟩ := exists_leftOf hspec hj hu' (by omega) (by omega)
      fun h => absurd h hholder
    obtain ⟨-, -, -, -, hend', ⟨-, hfbase'⟩ | ⟨hj', -⟩⟩ := hl'.spec hmap hspec
    · have hpf : p ∈ f.range := ⟨hfp, by omega⟩
      have hpf' : p ∈ f'.range := ⟨by omega, by omega⟩
      have hapart := pairwise_modules_iff (R := fun m n => Disjoint m.range n.range) |>.mp
        hsound.apart
      rw [← (hl.range_eq hmap hspec).2.1] at hpf
      rw [← (hl'.range_eq hmap hspec).2.1] at hpf'
      rcases lt_or_gt_of_ne hij with hlt | hlt
      · exact Set.disjoint_left.mp (hapart _ _ _ _ _ _ hlt hl hl') hpf hpf'
      · exact Set.disjoint_left.mp (hapart _ _ _ _ _ _ hlt hl' hl) hpf' hpf
    · exact hholder hj'

end

theorem conditions_of_layoutSound (hmap : BootMap mmap) (hh : metaHolder mmap = some h)
    (hsound : LayoutSound mmap (bootLayout mmap h)) :
    PaddingFits mmap ∧ LowMemoryClear mmap := by
  have hspec := metaHolder_spec hmap hh
  constructor
  · intro e he
    obtain rfl : h = e := some.inj (hh.symm.trans he)
    rcases eq_or_ne (bitmapSizes (estimate mmap) mmap) [] with hnone | hsome
    · simp [metadataSize, hnone, Bump.padding]
    · obtain ⟨m, hm, r, hr, hend⟩ := exists_footprint_end hmap hspec hsome
      have hres := (hsound.reserved m hm r hr).2
      rw [hend] at hres
      exact le_of_add_le_add_left hres
  · intro e he hu hlow hreach
    obtain ⟨i, hi⟩ := mem_iff_getElem?.mp he
    have hpos : 0 < e.length := by omega
    have hused : i = holderIdx mmap ∧ h.length < estimate mmap + pageSize := by
      by_contra hnot
      obtain ⟨f, hl⟩ := exists_leftOf hspec hi hu hpos hreach fun hi => by
        by_contra hshort
        exact hnot ⟨hi, by omega⟩
      exact hsound.not_leftOf hmap hspec hlow hl
    obtain ⟨rfl, hshort⟩ := hused
    obtain rfl : e = h := some.inj (hi.symm.trans hspec.mem)
    refine ⟨hh, hshort, fun e' he' hu' hpos' hhigh' => ?_⟩
    by_contra hbefore
    -- the module of the other entry would cover a page of the metadata
    obtain ⟨j, hj⟩ := mem_iff_getElem?.mp he'
    have hholder : j ≠ holderIdx mmap := by
      rintro rfl
      obtain rfl : e' = e := some.inj (hj.symm.trans hi)
      omega
    obtain ⟨f', hl'⟩ := exists_leftOf hspec hj hu' hpos' (by omega) fun h => absurd h hholder
    obtain ⟨-, ⟨-, hdvd⟩, hfpos, -, -, ⟨-, hfbase⟩ | ⟨hj', -⟩⟩ := hl'.spec hmap hspec
    · refine hsound.not_covered hmap hspec hl' (a := e'.base) ?_ ?_ ?_
      · rw [max_eq_left hlow.le]
        exact hhigh'
      · rw [max_eq_left hlow.le]
        omega
      · have hpage := Nat.le_of_dvd hfpos hdvd
        exact Set.Ico_subset_Ico (by omega) (by omega)
    · exact hholder hj'

theorem pmmInit_pmmInv (hmap : BootMap mmap) (hh : metaHolder mmap = some h) {l : PmmLayout}
    (hl : pmmInit mmap = some l) : PmmInv ⟨l.modules.map PlacedModule.mod, []⟩ := by
  have hspec := metaHolder_spec hmap hh
  obtain rfl := some.inj ((pmmInit_eq hmap hh).symm.trans hl)
  have key : ∀ f ∈ (leftMap (estimate mmap) mmap).filter LimineMemmapEntry.active,
      pageSize ∣ f.base ∧
        (pmmInitModule f).page (pmmInitModule f).bitmapEntryCnt < 2 ^ 64 := by
    intro f hf
    obtain ⟨m, hm, hmod⟩ : ∃ m ∈ (bootLayout mmap h).modules, m.mod = pmmInitModule f := by
      rw [← List.mem_map, placeModules_mod]
      exact mem_map_of_mem hf
    obtain ⟨i, e, f', hl, hf'⟩ := exists_leftOf_of_mem hm
    obtain rfl : f = f' := congrArg PmmModule.mmapEntry (hmod.symm.trans hf')
    obtain ⟨⟨hu, -⟩, ⟨hbase, hlen⟩, -, -, hend, -⟩ := hl.spec hmap hspec
    have hbound := hmap.bounded e (mem_of_getElem? hl.entry) hu
    have hlow : lowMemory ≤ 2 ^ 62 := by decide
    refine ⟨hbase, ?_⟩
    rw [PmmModule.page, (hl.range_eq hmap hspec).1, Nat.div_mul_cancel hlen]
    change f.base + f.length < _
    omega
  have hfresh := pmmInv_fresh (fun f hf => (key f hf).1) fun f hf => (key f hf).2
  rwa [freshPmm, ← placeModules_mod (max lowMemory h.base)] at hfresh

/-- **The layout of `pmm_init`**: for every memory map with page-aligned, disjoint usable entries
one of which can hold the metadata, the layout is sound if and only if the padding of the structs
fits and no usable entry reaches 1 MiB from below, unless the metadata uses it up. -/
theorem pmmInit_layout_iff (hmap : BootMap mmap)
    (hroom : ∃ e ∈ mmap, e.holdsMeta (estimate mmap)) :
    ∃ l, pmmInit mmap = some l ∧
      (LayoutSound mmap l ↔ PaddingFits mmap ∧ LowMemoryClear mmap) := by
  obtain ⟨h, hh⟩ : ∃ h, metaHolder mmap = some h := by
    obtain ⟨e, he, hholds⟩ := hroom
    exact isSome_iff_exists.mp (find?_isSome.mpr ⟨e, he, hholds⟩)
  exact ⟨_, pmmInit_eq hmap hh, conditions_of_layoutSound hmap hh,
    fun hcond => layoutSound_of_conditions hmap hh hcond.1 hcond.2⟩

theorem pmmInit_layout_iff_low_memory_below :
    ∃ l, pmmInit [⟨0x1000, 0x9e000, 0⟩, ⟨0x9f000, 0x61000, 1⟩, ⟨0x100000, 0x100000, 0⟩] = some l ∧
      LayoutSound [⟨0x1000, 0x9e000, 0⟩, ⟨0x9f000, 0x61000, 1⟩, ⟨0x100000, 0x100000, 0⟩] l := by
  have hmap : BootMap
      [⟨0x1000, 0x9e000, 0⟩, ⟨0x9f000, 0x61000, 1⟩, ⟨0x100000, 0x100000, 0⟩] :=
    ⟨by decide, by decide, by simp [LimineMemmapEntry.range, LimineMemmapEntry.usable]⟩
  obtain ⟨l, hl, hiff⟩ := pmmInit_layout_iff hmap (by decide)
  refine ⟨l, hl, hiff.mpr ⟨?_, by unfold LowMemoryClear; decide⟩⟩
  intro e he
  obtain rfl := some.inj
    (he.symm.trans (show metaHolder _ = some ⟨0x100000, 0x100000, 0⟩ by decide))
  decide

theorem pmmInit_layout_unsound :
    (BootMap [⟨0x80000, 0x180000, 0⟩] ∧
      ∃ l, pmmInit [⟨0x80000, 0x180000, 0⟩] = some l ∧ ¬ LayoutSound [⟨0x80000, 0x180000, 0⟩] l) ∧
    BootMap [⟨0x100000, 0x100000, 0⟩] ∧
      ∃ l, pmmInit [⟨0x100000, 0x100000, 0⟩] = some l ∧
        ¬ LayoutSound [⟨0x100000, 0x100000, 0⟩] l := by
  refine ⟨⟨⟨by decide, by decide, pairwise_singleton _ _⟩,
    ⟨0x100000, 160, [⟨0x100018, 0x100088, pmmInitModule ⟨0x101000, 0x17f000, 0⟩⟩]⟩,
    by decide +kernel, fun hsound => ?_⟩,
    ⟨⟨by decide, by decide, pairwise_singleton _ _⟩,
    ⟨0x100000, 144, [⟨0x100018, 0x100088, pmmInitModule ⟨0x101000, 0xff000, 0⟩⟩]⟩,
    by decide +kernel, fun hsound => ?_⟩⟩
  · have hlast := hsound.usable _ (mem_singleton.mpr rfl) 0x17e (by decide)
    revert hlast
    decide
  · have hend := hsound.reserved _ (mem_singleton.mpr rfl)
    revert hend
    decide

end Layout

/-! ## Memory from boot on -/

section Memory

variable {mmap : List LimineMemmapEntry} {ms ms' : List PmmModule} {cnt align : ℕ}
  {s₀ s : PmmState} {o : Owned} {l : PmmLayout} {tr : List (Event (Option PmmState) PmmOp)}

def Allocation.range (a : Allocation) : Set ℕ := Set.Ico a.base (a.base + a.cnt * pageSize)

/-- **Sound memory**: the live blocks meet neither each other nor the metadata, and their pages are
usable ones above 1 MiB. -/
structure MemorySound (mmap : List LimineMemmapEntry) (l : PmmLayout) (live : List Owned) :
    Prop where
  apart : live.Pairwise fun o o' => Disjoint o.block.range o'.block.range
  offMeta : ∀ o ∈ live, ∀ m ∈ l.modules, ∀ r ∈ m.footprint,
    Disjoint (Set.Ico r.1 r.2) o.block.range
  usable : ∀ o ∈ live, ∀ i < o.block.cnt, lowMemory ≤ o.block.base + i * pageSize ∧
    ∃ e ∈ mmap, e.usable ∧ e.base ≤ o.block.base + i * pageSize ∧
      o.block.base + (i + 1) * pageSize ≤ e.base + e.length

/-- What the calls leave as it is. -/
def PmmModule.extent (m : PmmModule) : LimineMemmapEntry × ℕ := (m.mmapEntry, m.bitmapEntryCnt)

theorem extent_pmmAlloc :
    (pmmAlloc cnt align ms).2.map PmmModule.extent = ms.map PmmModule.extent := by
  induction ms with
  | nil => rfl
  | cons m next ih =>
    have hm : (pmmModuleAlloc m cnt align).2.extent = m.extent := by
      unfold pmmModuleAlloc
      dsimp only
      split <;> rfl
    rw [pmmAlloc]
    dsimp only
    split_ifs <;> simp [hm, ih]

theorem extent_pmmFree {base : ℕ} (h : pmmFree base cnt ms = some ms') :
    ms'.map PmmModule.extent = ms.map PmmModule.extent := by
  induction ms generalizing ms' with
  | nil =>
    cases h
    rfl
  | cons m next ih =>
    rw [pmmFree] at h
    split_ifs at h
    · obtain ⟨m', hm', rfl⟩ := map_eq_some_iff.mp h
      obtain ⟨bitmap, -, rfl⟩ := map_eq_some_iff.mp hm'
      rfl
    · obtain ⟨next', hnext, rfl⟩ := map_eq_some_iff.mp h
      rw [map_cons, map_cons, ih hnext]

theorem pmmInv_run (h₀ : PmmInv s₀) (run : Run pmmStep (some s₀) tr (some s))
    (hfinds : ∀ ev ∈ tr, FreeFindsOwner ev) :
    PmmInv s ∧ s.modules.map PmmModule.extent = s₀.modules.map PmmModule.extent := by
  refine run.guarded (I := fun _ last => ∀ s, last = some s → PmmInv s ∧
    s.modules.map PmmModule.extent = s₀.modules.map PmmModule.extent) ?_ ?_ hfinds s rfl
  · rintro _ ⟨⟩
    exact ⟨h₀, rfl⟩
  · rintro tr (_ | s) op last hI hstep hfinds t rfl
    · exact hstep.elim
    obtain ⟨hinv, hextent⟩ := hI s rfl
    cases op with
    | alloc cnt align =>
      obtain ⟨hcnt, -, -, ⟨⟩⟩ := hstep
      exact ⟨pmmInv_alloc hinv hcnt, extent_pmmAlloc.trans hextent⟩
    | free o =>
      obtain ⟨ho, hs⟩ := hstep
      obtain ⟨s', hs', hinv', -⟩ := free_of_findsOwner hinv ho (hfinds s o rfl rfl)
      obtain rfl := some.inj (hs.trans hs')
      obtain ⟨ms, hms, rfl⟩ := map_eq_some_iff.mp hs'
      exact ⟨hinv', (extent_pmmFree hms).trans hextent⟩

/-- Where a live block is in the modules that were placed at boot. -/
theorem PmmInv.placed {l : List PlacedModule} (hinv : PmmInv s) (ho : o ∈ s.live)
    (hextent : s.modules.map PmmModule.extent = (l.map PlacedModule.mod).map PmmModule.extent) :
    ∃ m k, l[o.owner]? = some m ∧ o.block.base = m.mod.page k ∧
      k + o.block.cnt ≤ m.mod.bitmapEntryCnt ∧ o.block.range ⊆ m.mod.range := by
  obtain ⟨m, k, hm, hbase, -, hfit, -⟩ := hinv.owner ho
  have hsame := congrArg (·[o.owner]?) hextent
  simp only [getElem?_map, hm, List.map_map] at hsame
  obtain ⟨n, hn, heq⟩ := map_eq_some_iff.mp hsame.symm
  obtain ⟨hentry, hcnt⟩ := Prod.mk.inj heq
  rw [← hcnt] at hfit
  rw [PmmModule.page, ← hentry] at hbase
  refine ⟨n, k, hn, hbase, hfit, Set.Ico_subset_Ico ?_ ?_⟩ <;>
    simp only [hbase, PmmModule.page, pageSize] <;> omega

theorem PmmInv.disjoint (hinv : PmmInv s) {a b : Owned} (hab : [a, b].Sublist s.live)
    (howner : a.owner = b.owner) : Disjoint a.block.range b.block.range := by
  have hm := getElem?_eq_getElem (hinv.owned a (hab.subset mem_cons_self))
  have hpair : [a.block, b.block].Sublist (liveOf a.owner s.live) := by
    have := hab.filterMap fun o => if o.owner = a.owner then some o.block else none
    simpa [howner, liveOf] using this
  have hblocks := pairwise_iff_forall_sublist.mp (hinv.each _ _ hm).disjoint hpair
  refine Set.Ico_disjoint_Ico.mpr ?_
  unfold Allocation.Disjoint at hblocks
  omega

/-- **Memory from boot on**: after `pmm_init` made a sound layout, memory is sound in every state
that calls of `pmm_alloc` and `pmm_free` reach, if every free finds its owner. -/
theorem boot_memory_sound (hmap : BootMap mmap) (hroom : ∃ e ∈ mmap, e.holdsMeta (estimate mmap))
    (hinit : pmmInit mmap = some l) (hsound : LayoutSound mmap l)
    (run : Run pmmStep (some ⟨l.modules.map PlacedModule.mod, []⟩) tr (some s))
    (hfinds : ∀ ev ∈ tr, FreeFindsOwner ev) : MemorySound mmap l s.live := by
  obtain ⟨e, he, hholds⟩ := hroom
  obtain ⟨h, hh⟩ := isSome_iff_exists.mp (find?_isSome.mpr ⟨e, he, hholds⟩)
  obtain ⟨hinv, hextent⟩ := pmmInv_run (pmmInit_pmmInv hmap hh hinit) run hfinds
  refine ⟨pairwise_iff_forall_sublist.mpr fun {a b} hab => ?_, fun o ho m hm r hr => ?_,
    fun o ho i hi => ?_⟩
  · by_cases howner : a.owner = b.owner
    · exact hinv.disjoint hab howner
    -- Blocks of two modules.
    · obtain ⟨m, _, hm, -, -, hin⟩ := hinv.placed (hab.subset mem_cons_self) hextent
      obtain ⟨n, _, hn, -, -, hin'⟩ := hinv.placed (hab.subset (by simp : b ∈ [a, b])) hextent
      refine Set.disjoint_of_subset hin hin' ?_
      obtain ⟨hlt, rfl⟩ := List.getElem?_eq_some_iff.mp hm
      obtain ⟨hlt', rfl⟩ := List.getElem?_eq_some_iff.mp hn
      have hapart := pairwise_iff_getElem.mp hsound.apart
      rcases lt_or_gt_of_ne howner with h | h
      · exact hapart _ _ hlt hlt' h
      · exact (hapart _ _ hlt' hlt h).symm
  · obtain ⟨n, _, hn, -, -, hin⟩ := hinv.placed ho hextent
    exact (hsound.offPages m hm r hr n (mem_of_getElem? hn)).mono_right hin
  · obtain ⟨m, k, hm, hbase, hfit, -⟩ := hinv.placed ho hextent
    have hpage := hsound.usable m (mem_of_getElem? hm) (k + i) (by omega)
    rwa [add_assoc, PmmModule.page, PmmModule.page, add_mul, add_mul _ (i + 1), ← add_assoc,
      ← add_assoc, ← PmmModule.page, ← hbase] at hpage

def smallMap : List LimineMemmapEntry := [⟨0x700000, 0x100000, 0⟩]

def smallLayout : PmmLayout := bootLayout smallMap ⟨0x700000, 0x100000, 0⟩

def smallPmm : PmmState := ⟨smallLayout.modules.map PlacedModule.mod, []⟩

/-- **Two blocks are taken and the first is given back.** -/
theorem boot_memory_sound_after_free : pmmInit smallMap = some smallLayout ∧
    ∃ tr, ∃ s : PmmState, Run pmmStep (some smallPmm) tr (some s) ∧
      tr.map Event.act = [.alloc 2 1, .alloc 1 1, .free ⟨0, ⟨0x701000, 2⟩⟩] ∧
      s.live = [⟨0, ⟨0x703000, 1⟩⟩] ∧ MemorySound smallMap smallLayout s.live := by
  have hmap : BootMap smallMap := ⟨by decide, by decide, pairwise_singleton _ _⟩
  have hh : metaHolder smallMap = some ⟨0x700000, 0x100000, 0⟩ := by decide
  have hsound := layoutSound_of_conditions hmap hh
    (fun e he => by cases hh.symm.trans he; decide) (by unfold LowMemoryClear; decide)
  obtain ⟨s, hs, hlive⟩ := map_eq_some_iff.mp (show (((smallPmm.alloc 2 1).alloc 1 1).free
    ⟨0, ⟨0x701000, 2⟩⟩).map PmmState.live = some [⟨0, ⟨0x703000, 1⟩⟩] by decide +kernel)
  have hfree : pmmStep (some ((smallPmm.alloc 2 1).alloc 1 1)) (.free ⟨0, ⟨0x701000, 2⟩⟩) (some s) :=
    ⟨by decide +kernel, hs.symm⟩
  have run := ((Run.nil.snoc (pmmStep_alloc _ (by decide))).snoc
    (pmmStep_alloc _ (by decide))).snoc hfree
  exact ⟨pmmInit_eq hmap hh, _, s, run, rfl, hlive, boot_memory_sound hmap (by decide)
    (pmmInit_eq hmap hh) hsound run (by simp [FreeFindsOwner])⟩

end Memory

end Pastoral
