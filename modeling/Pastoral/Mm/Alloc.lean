import Mathlib.Logic.Function.Basic
import Pastoral.Lib.Macros
import Pastoral.Theory.Padded
import Pastoral.Theory.Spread

/-!
# Allocation as its callers see it

`alloc` and `realloc` of `slab.c` for a caller that only sees the blocks of memory it gets: an
object has the size of its cache and is zeroed.

## Main definitions

* `pow2Roundup`, `alloc`, `realloc`
-/

open BitSpread Function Option Padded

namespace Pastoral

/-! ## Sizes -/

def pow2Roundup (a : ℕ) : ℕ :=
  let a := wrap (a + (2 ^ 64 - 1))
  let a := a ||| a >>> 1
  let a := a ||| a >>> 2
  let a := a ||| a >>> 4
  let a := a ||| a >>> 8
  let a := a ||| a >>> 16
  wrap (a + 1)

def cacheSizes : List ℕ := [32, 64, 128, 256, 512, 1024, 2048, 4096, 8192, 16384]

def allocSize (size : ℕ) : Option ℕ :=
  if size = 0 then none
  else
    let round := pow2Roundup (wrap (size + 1))
    let round := if round ≤ 16 then 32 else round
    if round ∈ cacheSizes then some round else none

theorem pow2Roundup_succ {n : ℕ} (hpos : n ≠ 0) (hlt : n < 2 ^ 32) :
    pow2Roundup (n + 1) = 2 ^ (Nat.log2 n + 1) := by
  have hn : wrap (n + 1 + (2 ^ 64 - 1)) = n := by
    unfold wrap
    omega
  have hspread := (Spread.self n).double.double.double.double.double
  have hones := hspread.eq_two_pow_sub_one hpos hlt
  have hlog := (Nat.log2_lt hpos).mpr hlt
  have hle : 2 ^ (Nat.log2 n + 1) ≤ 2 ^ 32 := Nat.pow_le_pow_right (by decide) (by omega)
  have hpow : 0 < 2 ^ (Nat.log2 n + 1) := Nat.two_pow_pos _
  have hdef : pow2Roundup (n + 1) = wrap (2 ^ (Nat.log2 n + 1) - 1 + 1) := by
    unfold pow2Roundup
    rw [hn, ← hones]
  rw [hdef, Nat.sub_add_cancel hpow, wrap_of_lt (by omega)]

theorem two_pow_mem_cacheSizes : ∀ k < 15, 5 ≤ k → 2 ^ k ∈ cacheSizes := by decide

theorem allocSize_spec {size : ℕ} (hpos : 0 < size) (hlt : size < 16384) :
    ∃ c, allocSize size = some c ∧ size < c := by
  have hround : pow2Roundup (wrap (size + 1)) = 2 ^ (Nat.log2 size + 1) := by
    rw [wrap_of_lt (by omega)]
    exact pow2Roundup_succ (by omega) (by omega)
  have hself : size < 2 ^ (Nat.log2 size + 1) := Nat.lt_log2_self
  have hlog : Nat.log2 size < 14 := (Nat.log2_lt (by omega)).mpr hlt
  unfold allocSize
  rw [if_neg (by omega)]
  dsimp only
  rw [hround]
  split_ifs with hsmall hmem hmem
  · exact ⟨32, rfl, by omega⟩
  · exact absurd (by decide) hmem
  · exact ⟨_, rfl, hself⟩
  · refine absurd (two_pow_mem_cacheSizes (Nat.log2 size + 1) (by omega) ?_) hmem
    -- A power of two above 16 is at least the fifth.
    by_contra hle
    exact hsmall (le_trans (Nat.pow_le_pow_right (by decide) (by omega : _ ≤ 4)) (by decide))

/-- **A number that is not rounded to 0**: it is below `2 ^ 63`, or 32 consecutive bits of it are
clear. -/
def Sparse (size : ℕ) : Prop :=
  size < 2 ^ 63 ∨ ∃ i ≤ 32, ∀ j < 32, size.testBit (i + j) = false

instance (size : ℕ) : Decidable (Sparse size) := by
  unfold Sparse
  infer_instance

theorem spread_ones_iff {size y : ℕ} (hlt : size < 2 ^ 64) (h : Spread 32 size y) :
    y = 2 ^ 64 - 1 ↔ ¬ Sparse size := by
  rw [h.eq_ones_iff hlt]
  constructor
  · rintro hall (hsmall | ⟨i, hi, hclear⟩)
    · -- The highest bit is reached by itself only.
      obtain ⟨j, -, hbit⟩ := hall 63 (by decide)
      have hlarge : size < 2 ^ (63 + j) :=
        lt_of_lt_of_le hsmall (Nat.pow_le_pow_right (by decide) (by omega))
      rw [Nat.testBit_lt_two_pow hlarge] at hbit
      exact absurd hbit (by decide)
    · obtain ⟨j, hj, hbit⟩ := hall i (by omega)
      rw [hclear j hj] at hbit
      exact absurd hbit (by decide)
  · intro hdense i hi
    unfold Sparse at hdense
    push Not at hdense
    obtain ⟨hlarge, hwindows⟩ := hdense
    by_cases hlow : i ≤ 32
    · obtain ⟨j, hj, hbit⟩ := hwindows i hlow
      exact ⟨j, hj, by simpa using hbit⟩
    · refine ⟨63 - i, by omega, ?_⟩
      rw [show i + (63 - i) = 63 by omega, Nat.testBit_eq_decide_div_mod_eq, decide_eq_true_eq]
      omega

theorem allocSize_large {size : ℕ} (hge : 16384 ≤ size) (hlt : size < 2 ^ 64) :
    allocSize size = if Sparse size then none else some 32 := by
  have hsize : wrap (wrap (size + 1) + (2 ^ 64 - 1)) = size := by
    unfold wrap
    omega
  obtain ⟨y, hspread, hround⟩ : ∃ y, Spread 32 size y ∧
      pow2Roundup (wrap (size + 1)) = wrap (y + 1) := by
    refine ⟨_, (Spread.self size).double.double.double.double.double, ?_⟩
    unfold pow2Roundup
    rw [hsize]
  have hle := hspread.le (by decide)
  have hy := hspread.lt_two_pow hlt
  have hones := spread_ones_iff hlt hspread
  unfold allocSize
  rw [if_neg (by omega)]
  dsimp only
  rw [hround]
  by_cases hsparse : Sparse size
  · have hne : y ≠ 2 ^ 64 - 1 := fun h => hones.mp h hsparse
    have hbig : ∀ c ∈ cacheSizes, c ≤ 16384 := by decide
    have hnot : y + 1 ∉ cacheSizes := fun hmem => by
      have := hbig _ hmem
      omega
    have hwrap : wrap (y + 1) = y + 1 := wrap_of_lt (by omega)
    have hgt : ¬ y + 1 ≤ 16 := by omega
    rw [if_pos hsparse, hwrap, if_neg hgt, if_neg hnot]
  · rw [if_neg hsparse, hones.mpr hsparse]
    rfl

/-! ## Blocks -/

structure Block where
  bytes : List (BitVec 8)
  slab : Bool
  deriving DecidableEq, Repr

structure Pointer where
  block : ℕ
  offset : ℕ
  deriving DecidableEq, Repr

structure Memory where
  blocks : ℕ → Block
  blockCnt : ℕ

def Memory.push (h : Memory) (b : Block) : Memory :=
  { blocks := update h.blocks h.blockCnt b, blockCnt := h.blockCnt + 1 }

theorem push_new (h : Memory) (b : Block) : (h.push b).blocks h.blockCnt = b := update_self _ _ _

theorem push_old (h : Memory) (b : Block) {k : ℕ} (hk : k < h.blockCnt) :
    (h.push b).blocks k = h.blocks k := update_of_ne (Nat.ne_of_lt hk) _ _

def Memory.objectSize (h : Memory) (p : Pointer) : ℕ :=
  if (h.blocks p.block).slab then (h.blocks p.block).bytes.length else 0

def Memory.load (h : Memory) (buffer : Option Pointer) (offset cnt : ℤ) :
    Option (List (BitVec 8)) :=
  if cnt = 0 then some []
  else
    buffer.bind fun p =>
      if 0 ≤ p.offset + offset ∧ 0 ≤ cnt ∧
          p.offset + offset + cnt ≤ (h.blocks p.block).bytes.length then
        some (slice (h.blocks p.block).bytes (p.offset + offset).toNat cnt.toNat)
      else none

def Memory.store (h : Memory) (buffer : Option Pointer) (offset : ℤ) (data : List (BitVec 8)) :
    Option Memory :=
  if data = [] then some h
  else
    buffer.bind fun p =>
      if 0 ≤ p.offset + offset ∧
          p.offset + offset + data.length ≤ (h.blocks p.block).bytes.length then
        some { h with
          blocks := update h.blocks p.block
            { h.blocks p.block with
              bytes := splice (h.blocks p.block).bytes (p.offset + offset).toNat data } }
      else none

def alloc (size : ℕ) (h : Memory) : Option Pointer × Memory :=
  match allocSize size with
  | none => (none, h)
  | some c => (some ⟨h.blockCnt, 0⟩, h.push ⟨List.replicate c 0#8, true⟩)

def realloc (obj : Option Pointer) (size : ℕ) (h : Memory) : Option (Option Pointer × Memory) :=
  match obj with
  | none => some (alloc size h)
  | some p =>
    if h.objectSize p ≥ size then some (some p, h)
    else
      let ret := (alloc size h).1
      let h' := (alloc size h).2
      (h'.load (some p) 0 (h.objectSize p)).bind fun old =>
        (h'.store ret 0 old).map fun h'' => (ret, h'')

/-! ## What is loaded and stored -/

section Copies

variable {h h' : Memory} {p : Pointer} {buffer : Option Pointer} {off cnt n : ℕ}
  {data : List (BitVec 8)}

theorem load_inside (off cnt : ℕ) (hle : p.offset + off + cnt ≤ (h.blocks p.block).bytes.length) :
    h.load (some p) off cnt = some (slice (h.blocks p.block).bytes (p.offset + off) cnt) := by
  unfold Memory.load
  split_ifs with hzero
  · obtain rfl : cnt = 0 := by exact_mod_cast hzero
    simp [slice]
  · have hcond : (0 : ℤ) ≤ p.offset + off ∧ (0 : ℤ) ≤ cnt ∧
        (p.offset : ℤ) + off + cnt ≤ (h.blocks p.block).bytes.length :=
      ⟨by omega, by omega, by omega⟩
    rw [bind_some, if_pos hcond]
    rfl

theorem load_congr (hslice : slice (h'.blocks p.block).bytes (p.offset + off) cnt =
      slice (h.blocks p.block).bytes (p.offset + off) cnt)
    (hlen : (h'.blocks p.block).bytes.length = (h.blocks p.block).bytes.length) :
    h'.load (some p) off cnt = h.load (some p) off cnt := by
  unfold Memory.load
  rw [bind_some, bind_some, hlen,
    show ((p.offset : ℤ) + off).toNat = p.offset + off by omega, Int.toNat_natCast, hslice]

theorem store_inside (off : ℕ)
    (hle : p.offset + off + data.length ≤ (h.blocks p.block).bytes.length) :
    ∃ h', h.store (some p) off data = some h' ∧ h'.blockCnt = h.blockCnt ∧
      h'.blocks p.block = { h.blocks p.block with
        bytes := splice (h.blocks p.block).bytes (p.offset + off) data } ∧
      ∀ b ≠ p.block, h'.blocks b = h.blocks b := by
  unfold Memory.store
  split_ifs with hnil
  · subst hnil
    simp [splice]
  · have hcond : (0 : ℤ) ≤ p.offset + off ∧
        (p.offset : ℤ) + off + data.length ≤ (h.blocks p.block).bytes.length :=
      ⟨by omega, by omega⟩
    rw [bind_some, if_pos hcond]
    refine ⟨_, rfl, rfl, ?_, fun b hb => update_of_ne hb _ _⟩
    exact update_self _ _ _

theorem store_cases {offset : ℤ} (hstore : h.store buffer offset data = some h') :
    h' = h ∨ ∃ p, buffer = some p ∧ 0 ≤ p.offset + offset ∧
      p.offset + offset + data.length ≤ (h.blocks p.block).bytes.length ∧
      h' = { h with
        blocks := update h.blocks p.block
          { h.blocks p.block with
            bytes := splice (h.blocks p.block).bytes (p.offset + offset).toNat data } } := by
  unfold Memory.store at hstore
  split_ifs at hstore with hnil
  · exact .inl (some.inj hstore).symm
  · obtain ⟨p, rfl, hp⟩ := bind_eq_some_iff.mp hstore
    split_ifs at hp with hcond
    exact .inr ⟨p, rfl, hcond.1, hcond.2, (some.inj hp).symm⟩

end Copies

/-! ## What a reallocated block holds -/

section Realloc

variable {h : Memory} {p : Pointer} {size : ℕ}

theorem alloc_object (h : Memory) (hpos : 0 < size) (hlt : size < 16384) :
    ∃ c, size < c ∧ alloc size h = (some ⟨h.blockCnt, 0⟩, h.push ⟨List.replicate c 0#8, true⟩) := by
  obtain ⟨c, hc, hsize⟩ := allocSize_spec hpos hlt
  refine ⟨c, hsize, ?_⟩
  rw [alloc, hc]

theorem realloc_kept (hge : h.objectSize p ≥ size) : realloc (some p) size h = some (some p, h) :=
  if_pos hge

theorem realloc_moved (hless : h.objectSize p < size) : realloc (some p) size h =
      ((alloc size h).2.load (some p) 0 (h.objectSize p)).bind fun old =>
        ((alloc size h).2.store (alloc size h).1 0 old).map fun h'' => ((alloc size h).1, h'') :=
  if_neg (Nat.not_le_of_lt hless)

theorem realloc_fresh {obj : Option Pointer} (hpos : 0 < size) (hlt : size < 16384)
    (hobj : ∀ p ∈ obj, (h.blocks p.block).slab = false) :
    ∃ c, size < c ∧ realloc obj size h =
      some (some ⟨h.blockCnt, 0⟩, h.push ⟨List.replicate c 0#8, true⟩) := by
  obtain ⟨c, hc, halloc⟩ := alloc_object h hpos hlt
  refine ⟨c, hc, ?_⟩
  cases obj with
  | none => exact congrArg some halloc
  | some p =>
    have hzero : h.objectSize p = 0 := by
      rw [Memory.objectSize, hobj p rfl]
      rfl
    rw [realloc_moved (by omega), halloc, hzero]
    rfl

theorem realloc_object (hlt : size < 16384) (hslab : (h.blocks p.block).slab = true)
    (hoff : p.offset = 0) (hblock : p.block < h.blockCnt) :
    ((h.blocks p.block).bytes.length ≥ size ∧ realloc (some p) size h = some (some p, h)) ∨
      ∃ c, size < c ∧ (h.blocks p.block).bytes.length < size ∧
        ∃ h', realloc (some p) size h = some (some ⟨h.blockCnt, 0⟩, h') ∧
          h'.blockCnt = h.blockCnt + 1 ∧
          h'.blocks h.blockCnt = ⟨splice (List.replicate c 0#8) 0 (h.blocks p.block).bytes, true⟩ ∧
          ∀ b ≠ h.blockCnt, h'.blocks b = h.blocks b := by
  have hsize : h.objectSize p = (h.blocks p.block).bytes.length := by
    rw [Memory.objectSize, if_pos hslab]
  by_cases hge : (h.blocks p.block).bytes.length ≥ size
  · exact .inl ⟨hge, realloc_kept (hsize ▸ hge)⟩
  · obtain ⟨c, hc, halloc⟩ := alloc_object h (by omega) hlt
    refine .inr ⟨c, hc, by omega, ?_⟩
    have hold := push_old h ⟨List.replicate c 0#8, true⟩ hblock
    have hnew := push_new h ⟨List.replicate c 0#8, true⟩
    have hload : (h.push ⟨List.replicate c 0#8, true⟩).load (some p) 0 (h.objectSize p) =
        some (h.blocks p.block).bytes := by
      have hinside := load_inside (h := h.push ⟨List.replicate c 0#8, true⟩) (p := p) 0
        (h.objectSize p) (by rw [hold, hsize]; omega)
      rw [hold, hsize, hoff] at hinside
      rw [hsize]
      refine hinside.trans ?_
      simp [slice]
    have hfits : 0 + 0 + (h.blocks p.block).bytes.length ≤
        ((h.push ⟨List.replicate c 0#8, true⟩).blocks h.blockCnt).bytes.length := by
      rw [hnew, List.length_replicate]
      omega
    obtain ⟨h', hstore, hcnt, hblk, hothers⟩ := store_inside (p := ⟨h.blockCnt, 0⟩) 0 hfits
    refine ⟨h', ?_, hcnt, ?_, fun b hb => ?_⟩
    · rw [realloc_moved (by omega), halloc]
      rw [hload]
      exact congrArg (Option.map _) hstore
    · rw [hblk, hnew]
    · rw [hothers b hb]
      exact update_of_ne hb _ _

theorem realloc_cases {obj obj' : Option Pointer} {h' : Memory}
    (hrealloc : realloc obj size h = some (obj', h')) :
    (obj' = obj ∧ h' = h ∧ ∀ p ∈ obj, size ≤ h.objectSize p) ∨ (obj' = none ∧ h' = h) ∨
      ∃ bytes, obj' = some ⟨h.blockCnt, 0⟩ ∧ h' = h.push ⟨bytes, true⟩ := by
  have halloc : alloc size h = (none, h) ∨
      ∃ bytes, alloc size h = (some ⟨h.blockCnt, 0⟩, h.push ⟨bytes, true⟩) := by
    unfold alloc
    cases allocSize size with
    | none => exact .inl rfl
    | some c => exact .inr ⟨_, rfl⟩
  cases obj with
  | none =>
    have hresult := some.inj hrealloc
    rcases halloc with hnull | ⟨bytes, hobject⟩
    · obtain ⟨rfl, rfl⟩ := Prod.mk.inj (hresult.symm.trans hnull)
      exact .inr (.inl ⟨rfl, rfl⟩)
    · obtain ⟨rfl, rfl⟩ := Prod.mk.inj (hresult.symm.trans hobject)
      exact .inr (.inr ⟨bytes, rfl, rfl⟩)
  | some p =>
    by_cases hge : h.objectSize p ≥ size
    · rw [realloc_kept hge] at hrealloc
      cases hrealloc
      refine .inl ⟨rfl, rfl, fun q hq => ?_⟩
      rw [← some.inj hq]
      exact hge
    · rw [realloc_moved (Nat.lt_of_not_le hge)] at hrealloc
      obtain ⟨old, -, hcopy⟩ := bind_eq_some_iff.mp hrealloc
      obtain ⟨h'', hstore, hresult⟩ := map_eq_some_iff.mp hcopy
      cases hresult
      rcases halloc with hnull | ⟨bytes, hobject⟩
      · rw [hnull] at hstore ⊢
        rcases store_cases hstore with rfl | ⟨q, hq, -⟩
        · exact .inr (.inl ⟨rfl, rfl⟩)
        · simp at hq
      · rw [hobject] at hstore ⊢
        rcases store_cases hstore with rfl | ⟨q, hq, -, -, rfl⟩
        · exact .inr (.inr ⟨bytes, rfl, rfl⟩)
        · -- The copy goes to the block that has just been allocated.
          cases hq
          refine .inr (.inr ⟨splice bytes (((0 : ℕ) : ℤ) + 0).toNat old, rfl, ?_⟩)
          simp [Memory.push]

end Realloc

end Pastoral
