import Mathlib.Algebra.Group.Nat.Defs
import Mathlib.Tactic.Common
import Pastoral.Theory.Radix
import Pastoral.Theory.Run

/-!
# Page tables

The page tables of `vmm.c`, with four and with five levels.

## Main results

* `pml4_refines_map`: four levels are a map from pages to entries
-/

open List Option Transition

namespace Pastoral

abbrev vmmFlagsP : BitVec 64 := BitVec.twoPow 64 0
abbrev vmmFlagsRW : BitVec 64 := BitVec.twoPow 64 1
abbrev vmmFlagsUS : BitVec 64 := BitVec.twoPow 64 2
abbrev vmmFlagsPS : BitVec 64 := BitVec.twoPow 64 7
abbrev vmmFlagsG : BitVec 64 := BitVec.twoPow 64 8
abbrev vmmFlagsNX : BitVec 64 := BitVec.twoPow 64 63

def pmlFlagsMask : BitVec 64 := ~~~(vmmFlagsPS ||| vmmFlagsG ||| vmmFlagsNX)

structure PmlIndices where
  pml5Index : ℕ
  pml4Index : ℕ
  pml3Index : ℕ
  pml2Index : ℕ
  pml1Index : ℕ
  deriving DecidableEq, Repr

def computeTableIndices (vaddr : BitVec 64) : PmlIndices where
  pml5Index := ((vaddr >>> 48) &&& 0x1ff#64).toNat
  pml4Index := ((vaddr >>> 39) &&& 0x1ff#64).toNat
  pml3Index := ((vaddr >>> 30) &&& 0x1ff#64).toNat
  pml2Index := ((vaddr >>> 21) &&& 0x1ff#64).toNat
  pml1Index := ((vaddr >>> 12) &&& 0x1ff#64).toNat

abbrev PagingState := Radix.Store (BitVec 64) ℕ (BitVec 64)

def tableOf (entry : BitVec 64) : BitVec 64 := entry &&& ~~~0xfff#64

def nextTable (entry : BitVec 64) : Option (BitVec 64) :=
  if entry &&& vmmFlagsP = 0#64 then none else some (tableOf entry)

def PagingState.pmmAlloc (s : PagingState) : Option (BitVec 64 × PagingState) :=
  match s.free with
  | [] => none
  | frame :: free => some (frame, ⟨Radix.wipe s.mem frame 0#64, free⟩)

def linkEntry (extra flags frame : BitVec 64) : BitVec 64 :=
  frame ||| (flags &&& pmlFlagsMask) ||| extra

def mapLevel (extra flags table : BitVec 64) (index : ℕ) (s : PagingState) :
    Option (BitVec 64 × PagingState) :=
  if s.mem table index &&& vmmFlagsP = 0#64 then
    s.pmmAlloc.map fun (frame, s') =>
      let s'' := s'.store table index (linkEntry extra flags frame)
      (tableOf (s''.mem table index), s'')
  else some (tableOf (s.mem table index), s)

def mapLevels (extra flags : BitVec 64) : List ℕ → BitVec 64 → PagingState →
    Option (BitVec 64 × PagingState)
  | [], table, s => some (table, s)
  | index :: upper, table, s =>
    (mapLevel extra flags table index s).bind fun (table', s') =>
      mapLevels extra flags upper table' s'

def mapPageAt (extra : BitVec 64) (upper : List ℕ) (pml2Index pml1Index : ℕ)
    (pmlHigh paddr flags : BitVec 64) (s : PagingState) :
    Option (Option (BitVec 64 × ℕ) × PagingState) :=
  (mapLevels extra flags upper pmlHigh s).bind fun (pml2, s) =>
    if flags &&& vmmFlagsPS ≠ 0#64 then some (none, s.store pml2 pml2Index (paddr ||| flags))
    else (mapLevel extra flags pml2 pml2Index s).map fun (pml1, s) =>
      (some (pml1, pml1Index), s.store pml1 pml1Index (paddr ||| flags))

def unmapPageAt (upper : List ℕ) (pml2Index pml1Index : ℕ) (pmlHigh : BitVec 64)
    (s : PagingState) : ℕ × PagingState :=
  match Radix.walk nextTable s.mem pmlHigh upper with
  | none => (0, s)
  | some pml2 =>
    if (s.mem pml2 pml2Index &&& 0xfff#64) &&& vmmFlagsPS ≠ 0#64 then
      (0x200000, s.store pml2 pml2Index (s.mem pml2 pml2Index &&& ~~~vmmFlagsP))
    else
      match nextTable (s.mem pml2 pml2Index) with
      | none => (0, s)
      | some pml1 =>
        (0x1000, s.store pml1 pml1Index (s.mem pml1 pml1Index &&& ~~~vmmFlagsP))

def lowestLevelAt (upper : List ℕ) (pml2Index pml1Index : ℕ) (pmlHigh : BitVec 64)
    (s : PagingState) : Option (BitVec 64 × ℕ) :=
  match Radix.walk nextTable s.mem pmlHigh upper with
  | none => none
  | some pml2 =>
    if s.mem pml2 pml2Index &&& vmmFlagsPS ≠ 0#64 then some (pml2, pml2Index)
    else (nextTable (s.mem pml2 pml2Index)).map fun pml1 => (pml1, pml1Index)

def pml4MapPage (pmlHigh vaddr paddr flags : BitVec 64) (s : PagingState) :
    Option (Option (BitVec 64 × ℕ) × PagingState) :=
  let pmlIndices := computeTableIndices vaddr
  mapPageAt vmmFlagsRW [pmlIndices.pml4Index, pmlIndices.pml3Index] pmlIndices.pml2Index
    pmlIndices.pml1Index pmlHigh paddr flags s

def pml4UnmapPage (pmlHigh vaddr : BitVec 64) (s : PagingState) : ℕ × PagingState :=
  let pmlIndices := computeTableIndices vaddr
  unmapPageAt [pmlIndices.pml4Index, pmlIndices.pml3Index] pmlIndices.pml2Index
    pmlIndices.pml1Index pmlHigh s

def pml4LowestLevel (pmlHigh vaddr : BitVec 64) (s : PagingState) : Option (BitVec 64 × ℕ) :=
  let pmlIndices := computeTableIndices vaddr
  lowestLevelAt [pmlIndices.pml4Index, pmlIndices.pml3Index] pmlIndices.pml2Index
    pmlIndices.pml1Index pmlHigh s

def pml5MapPage (pmlHigh vaddr paddr flags : BitVec 64) (s : PagingState) :
    Option (Option (BitVec 64 × ℕ) × PagingState) :=
  let pmlIndices := computeTableIndices vaddr
  mapPageAt 0#64 [pmlIndices.pml5Index, pmlIndices.pml4Index, pmlIndices.pml3Index]
    pmlIndices.pml2Index pmlIndices.pml1Index pmlHigh paddr flags s

def pml5UnmapPage (pmlHigh vaddr : BitVec 64) (s : PagingState) : ℕ × PagingState :=
  let pmlIndices := computeTableIndices vaddr
  unmapPageAt [pmlIndices.pml4Index, pmlIndices.pml4Index, pmlIndices.pml3Index]
    pmlIndices.pml2Index pmlIndices.pml1Index pmlHigh s

def pml5LowestLevel (pmlHigh vaddr : BitVec 64) (s : PagingState) : Option (BitVec 64 × ℕ) :=
  let pmlIndices := computeTableIndices vaddr
  lowestLevelAt [pmlIndices.pml5Index, pmlIndices.pml4Index, pmlIndices.pml3Index]
    pmlIndices.pml2Index pmlIndices.pml1Index pmlHigh s

/-! ## Bits of entries -/

section Bits

variable {e extra flags frame : BitVec 64}

theorem and_twoPow_eq_zero_iff (e : BitVec 64) {k : ℕ} (hk : k < 64) :
    e &&& BitVec.twoPow 64 k = 0#64 ↔ e.getLsbD k = false := by
  have hne : BitVec.twoPow 64 k ≠ 0#64 := by
    intro h
    have hbit := congrArg (fun b => BitVec.getLsbD b k) h
    simp [hk] at hbit
  rw [BitVec.and_twoPow]
  cases e.getLsbD k <;> simp [hne]

theorem getLsbD_offsetMask (k : ℕ) : (0xfff#64).getLsbD k = decide (k < 12) := by
  have h : 0xfff#64 = BitVec.ofNat 64 (2 ^ 12 - 1) := rfl
  rw [h, BitVec.getLsbD_ofNat, Nat.testBit_two_pow_sub_one]
  by_cases hk : k < 12
  · simp [show k < 64 by omega]
  · simp [hk]

def FlagBits (flags : BitVec 64) : Prop := flags &&& ~~~(0xfff#64 ||| vmmFlagsNX) = 0#64

def FrameAligned (frame : BitVec 64) : Prop := frame &&& 0xfff#64 = 0#64
  deriving Decidable

theorem tableOf_flags (hflags : FlagBits flags) : tableOf (flags &&& pmlFlagsMask) = 0#64 := by
  have hmask : pmlFlagsMask &&& ~~~0xfff#64 = ~~~(0xfff#64 ||| vmmFlagsNX) := by decide
  rw [tableOf, BitVec.and_assoc]
  exact hflags

theorem tableOf_aligned (hframe : FrameAligned frame) : tableOf frame = frame := by
  have hsplit : frame &&& (0xfff#64 ||| ~~~0xfff#64) = frame := by
    rw [show 0xfff#64 ||| ~~~0xfff#64 = BitVec.allOnes 64 by decide, BitVec.and_allOnes]
  rw [BitVec.and_or_distrib_left, hframe, BitVec.zero_or] at hsplit
  exact hsplit

theorem tableOf_or (a b : BitVec 64) : tableOf (a ||| b) = tableOf a ||| tableOf b := by
  exact BitVec.and_or_distrib_right

theorem getLsbD_aligned (hframe : FrameAligned frame) {k : ℕ} (hk : k < 12) :
    frame.getLsbD k = false := by
  have hbit := congrArg (fun b => BitVec.getLsbD b k) hframe
  simpa [getLsbD_offsetMask, hk] using hbit

theorem nextTable_linkEntry (hextra : extra = 0#64 ∨ extra = vmmFlagsRW)
    (hflags : FlagBits flags) (hpresent : flags &&& vmmFlagsP ≠ 0#64)
    (hframe : FrameAligned frame) : nextTable (linkEntry extra flags frame) = some frame := by
  have hbit : (linkEntry extra flags frame).getLsbD 0 = true := by
    have hp : flags.getLsbD 0 = true := by
      rwa [Ne, and_twoPow_eq_zero_iff flags (by decide), Bool.not_eq_false] at hpresent
    have hmask : pmlFlagsMask.getLsbD 0 = true := by decide
    simp [linkEntry, hp, hmask]
  have htable : tableOf extra = 0#64 := by
    rcases hextra with rfl | rfl <;> decide
  rw [nextTable, if_neg, linkEntry, tableOf_or, tableOf_or, tableOf_flags hflags,
    tableOf_aligned hframe, htable, BitVec.or_zero, BitVec.or_zero]
  rw [and_twoPow_eq_zero_iff _ (by decide), hbit]
  simp

def NoPS (e : BitVec 64) : Prop := e &&& vmmFlagsPS = 0#64
  deriving Decidable

theorem noPS_linkEntry (hextra : extra = 0#64 ∨ extra = vmmFlagsRW) (hframe : FrameAligned frame) :
    NoPS (linkEntry extra flags frame) := by
  have hmask : pmlFlagsMask.getLsbD 7 = false := by decide
  have hext : extra.getLsbD 7 = false := by
    rcases hextra with rfl | rfl <;> decide
  rw [NoPS, and_twoPow_eq_zero_iff _ (by decide), linkEntry, BitVec.getLsbD_or, BitVec.getLsbD_or,
    BitVec.getLsbD_and, getLsbD_aligned hframe (by decide), hmask, hext]
  simp

end Bits

/-! ## The functions on a radix tree -/

section Levels

variable {extra flags paddr pmlHigh : BitVec 64} {upper : List ℕ} {pml2Index pml1Index : ℕ}
  {s s' : PagingState}

structure Paging (s : PagingState) (pmlHigh : BitVec 64) (depth : ℕ) : Prop where
  tree : Radix.Tree nextTable s pmlHigh depth
  inner : Radix.Inner nextTable NoPS s pmlHigh depth
  aligned : ∀ frame ∈ s.free, FrameAligned frame

structure LinkFlags (extra flags : BitVec 64) : Prop where
  extra : extra = 0#64 ∨ extra = vmmFlagsRW
  bits : FlagBits flags
  present : flags &&& vmmFlagsP ≠ 0#64

theorem nextTable_zero : nextTable 0#64 = none := by decide

section

variable (hlink : LinkFlags extra flags) (haligned : ∀ frame ∈ s.free, FrameAligned frame)

include hlink haligned

theorem mapLevel_eq (table : BitVec 64) (index : ℕ) : mapLevel extra flags table index s =
      Radix.ensure nextTable 0#64 (linkEntry extra flags) [index] table s := by
  rw [mapLevel, Radix.ensure]
  by_cases h : s.mem table index &&& vmmFlagsP = 0#64
  · rw [if_pos h, nextTable, if_pos h, PagingState.pmmAlloc]
    cases hfree : s.free with
    | nil => rfl
    | cons frame free =>
      have hnext := nextTable_linkEntry hlink.extra hlink.bits hlink.present
        (haligned frame (hfree ▸ mem_cons_self ..))
      have htable : tableOf (linkEntry extra flags frame) = frame := by
        rw [nextTable] at hnext
        split_ifs at hnext with hzero
        exact some.inj hnext
      simp only [map_some, Radix.Store.store, Radix.put_same, htable, Radix.ensure]
  · rw [if_neg h, nextTable, if_neg h]
    rfl

theorem mapLevels_eq (table : BitVec 64) : mapLevels extra flags upper table s =
      Radix.ensure nextTable 0#64 (linkEntry extra flags) upper table s := by
  induction upper generalizing table s with
  | nil => rfl
  | cons index upper ih =>
    change _ = Radix.ensure nextTable 0#64 (linkEntry extra flags) ([index] ++ upper) table s
    rw [mapLevels, mapLevel_eq hlink haligned, Radix.ensure_append]
    cases hr : Radix.ensure nextTable 0#64 (linkEntry extra flags) [index] table s with
    | none => rfl
    | some r =>
      exact ih (fun frame hframe => haligned frame ((Radix.ensure_free hr).subset hframe)) _

theorem mapPageAt_eq (hsmall : flags &&& vmmFlagsPS = 0#64) :
    mapPageAt extra upper pml2Index pml1Index pmlHigh paddr flags s =
      (Radix.ensure nextTable 0#64 (linkEntry extra flags) (upper ++ [pml2Index]) pmlHigh s).map
        fun (pml1, s) => (some (pml1, pml1Index), s.store pml1 pml1Index (paddr ||| flags)) := by
  rw [mapPageAt, mapLevels_eq hlink haligned, Radix.ensure_append]
  cases hr : Radix.ensure nextTable 0#64 (linkEntry extra flags) upper pmlHigh s with
  | none => rfl
  | some r =>
    have haligned' := fun frame hframe => haligned frame ((Radix.ensure_free hr).subset hframe)
    simp only [bind_some, hsmall, ne_eq, not_true_eq_false, if_false,
      mapLevel_eq hlink haligned']

end

theorem mapPageAt_spec (hpaging : Paging s pmlHigh (upper.length + 1))
    (hlink : LinkFlags extra flags) (hsmall : flags &&& vmmFlagsPS = 0#64)
    {pointer : Option (BitVec 64 × ℕ)}
    (h : mapPageAt extra upper pml2Index pml1Index pmlHigh paddr flags s = some (pointer, s')) :
    ∃ pml1 s₁, Radix.walk nextTable s₁.mem pmlHigh (upper ++ [pml2Index]) = some pml1 ∧
      Radix.Grows nextTable 0#64 (linkEntry extra flags) s s₁ pmlHigh (upper.length + 1)
        (upper ++ [pml2Index]) ∧
      Paging s₁ pmlHigh (upper.length + 1) ∧ Paging s' pmlHigh (upper.length + 1) ∧
      pointer = some (pml1, pml1Index) ∧ s' = s₁.store pml1 pml1Index (paddr ||| flags) := by
  have hlen : (upper ++ [pml2Index]).length = upper.length + 1 := by simp
  rw [mapPageAt_eq hlink hpaging.aligned hsmall] at h
  obtain ⟨⟨pml1, s₁⟩, hensure, hr⟩ := map_eq_some_iff.mp h
  cases hr
  have hmk : ∀ frame ∈ s.free, nextTable (linkEntry extra flags frame) = some frame :=
    fun frame hframe =>
      nextTable_linkEntry hlink.extra hlink.bits hlink.present (hpaging.aligned frame hframe)
  obtain ⟨htree, hwalk, hgrows⟩ := Radix.ensure_spec nextTable_zero (σ := []) hpaging.tree hmk rfl
    (by rw [nil_append, hlen]) hensure
  have hinner := hgrows.inner hpaging.inner (by decide) fun frame hframe =>
      noPS_linkEntry hlink.extra (hpaging.aligned frame hframe)
  have haligned : ∀ frame ∈ s₁.free, FrameAligned frame := fun frame hframe =>
    hpaging.aligned frame (hgrows.free.subset hframe)
  exact ⟨pml1, s₁, hwalk, hgrows, ⟨htree, hinner, haligned⟩,
    ⟨htree.store hwalk hlen, Radix.inner_store htree hwalk hlen hinner, haligned⟩, rfl, rfl⟩

theorem walk_last (pml2 : BitVec 64) (hpml2 : Radix.walk nextTable s.mem pmlHigh upper = some pml2) :
    Radix.walk nextTable s.mem pmlHigh (upper ++ [pml2Index]) =
      nextTable (s.mem pml2 pml2Index) := by
  rw [Radix.walk_snoc, hpml2]
  rfl

theorem lowestLevelAt_eq (hpaging : Paging s pmlHigh (upper.length + 1)) :
    lowestLevelAt upper pml2Index pml1Index pmlHigh s =
      (Radix.walk nextTable s.mem pmlHigh (upper ++ [pml2Index])).map fun pml1 =>
        (pml1, pml1Index) := by
  rw [lowestLevelAt]
  cases h : Radix.walk nextTable s.mem pmlHigh upper with
  | none =>
    rw [Radix.walk_snoc, h]
    rfl
  | some pml2 =>
    have hsmall := hpaging.inner upper pml2 pml2Index (Nat.lt_succ_self _) h
    rw [walk_last pml2 h]
    exact if_neg (not_not.mpr hsmall)

theorem unmapPageAt_spec (upper : List ℕ) (pml2Index pml1Index : ℕ)
    (hpaging : Paging s pmlHigh (upper.length + 1)) :
    Radix.walk nextTable s.mem pmlHigh (upper ++ [pml2Index]) = none ∧
        unmapPageAt upper pml2Index pml1Index pmlHigh s = (0, s) ∨
      ∃ pml1, Radix.walk nextTable s.mem pmlHigh (upper ++ [pml2Index]) = some pml1 ∧
        unmapPageAt upper pml2Index pml1Index pmlHigh s =
          (0x1000, s.store pml1 pml1Index (s.mem pml1 pml1Index &&& ~~~vmmFlagsP)) := by
  rw [unmapPageAt]
  cases h : Radix.walk nextTable s.mem pmlHigh upper with
  | none =>
    rw [Radix.walk_snoc, h]
    exact .inl ⟨rfl, rfl⟩
  | some pml2 =>
    have hsmall := hpaging.inner upper pml2 pml2Index (Nat.lt_succ_self _) h
    have hsmall' : ¬ (s.mem pml2 pml2Index &&& 0xfff#64) &&& vmmFlagsPS ≠ 0#64 := by
      rw [BitVec.and_assoc]
      exact not_not.mpr hsmall
    rw [walk_last pml2 h]
    simp only [if_neg hsmall']
    cases hnext : nextTable (s.mem pml2 pml2Index) with
    | none => exact .inl ⟨rfl, rfl⟩
    | some pml1 => exact .inr ⟨pml1, rfl, rfl⟩

theorem Paging.store (hpaging : Paging s pmlHigh (upper.length + 1)) {pml1 : BitVec 64}
    (hwalk : Radix.walk nextTable s.mem pmlHigh (upper ++ [pml2Index]) = some pml1)
    (index : ℕ) (entry : BitVec 64) :
    Paging (s.store pml1 index entry) pmlHigh (upper.length + 1) := by
  have hlen : (upper ++ [pml2Index]).length = upper.length + 1 := by simp
  exact ⟨hpaging.tree.store hwalk hlen, Radix.inner_store hpaging.tree hwalk hlen hpaging.inner,
    hpaging.aligned⟩

theorem mapPageAt_leaf (hpaging : Paging s pmlHigh (upper.length + 1))
    (hlink : LinkFlags extra flags) (hsmall : flags &&& vmmFlagsPS = 0#64)
    {pointer : Option (BitVec 64 × ℕ)}
    (h : mapPageAt extra upper pml2Index pml1Index pmlHigh paddr flags s = some (pointer, s'))
    {ρ : List ℕ} (hρ : ρ.length = upper.length + 1) (index : ℕ) :
    Radix.leaf nextTable s' pmlHigh ρ index = if ρ = upper ++ [pml2Index] then
        if index = pml1Index then some (paddr ||| flags)
        else some ((Radix.leaf nextTable s pmlHigh ρ index).getD 0#64)
      else Radix.leaf nextTable s pmlHigh ρ index := by
  obtain ⟨pml1, s₁, hwalk, hgrows, hpaging₁, -, -, rfl⟩ := mapPageAt_spec hpaging hlink hsmall h
  have hlen : (upper ++ [pml2Index]).length = upper.length + 1 := by simp
  rw [Radix.leaf_store hpaging₁.tree hwalk hlen hρ]
  by_cases hpath : ρ = upper ++ [pml2Index]
  · subst hpath
    by_cases hindex : index = pml1Index
    · simp only [hindex, and_self, if_true]
    · -- the table is there after the walk, so its entry is the old one or zero
      have hsome : Radix.leaf nextTable s₁ pmlHigh (upper ++ [pml2Index]) index =
          some (s₁.mem pml1 index) := by
        rw [Radix.leaf, hwalk]
        rfl
      simp only [hindex, if_false]
      rcases hgrows.leaf hlen.le hρ index with hsame | ⟨-, hnone, hzero⟩
      · rw [← hsame, hsome]
        rfl
      · rw [hnone, hzero]
        rfl
  · rw [if_neg fun h => hpath h.1, if_neg hpath]
    exact (hgrows.leaf hlen.le hρ index).resolve_right fun h => hpath h.1

theorem unmapPageAt_leaf (upper : List ℕ) (pml2Index pml1Index : ℕ)
    (hpaging : Paging s pmlHigh (upper.length + 1)) :
    Paging (unmapPageAt upper pml2Index pml1Index pmlHigh s).2 pmlHigh (upper.length + 1) ∧
      (unmapPageAt upper pml2Index pml1Index pmlHigh s).1 =
        (if Radix.leaf nextTable s pmlHigh (upper ++ [pml2Index]) pml1Index = none then 0
          else 0x1000) ∧
      ∀ ρ : List ℕ, ρ.length = upper.length + 1 → ∀ index,
        Radix.leaf nextTable (unmapPageAt upper pml2Index pml1Index pmlHigh s).2 pmlHigh ρ index =
          if ρ = upper ++ [pml2Index] ∧ index = pml1Index then
            (Radix.leaf nextTable s pmlHigh ρ index).map (· &&& ~~~vmmFlagsP)
          else Radix.leaf nextTable s pmlHigh ρ index := by
  have hlen : (upper ++ [pml2Index]).length = upper.length + 1 := by simp
  rcases unmapPageAt_spec upper pml2Index pml1Index hpaging with
    ⟨hnone, hunmap⟩ | ⟨pml1, hwalk, hunmap⟩
  · have hleaf : Radix.leaf nextTable s pmlHigh (upper ++ [pml2Index]) pml1Index = none := by
      rw [Radix.leaf, hnone]
      rfl
    rw [hunmap, if_pos hleaf]
    refine ⟨hpaging, rfl, fun ρ hρ index => ?_⟩
    split_ifs with h
    · rw [h.1, h.2, hleaf]
      rfl
    · rfl
  · have hleaf : Radix.leaf nextTable s pmlHigh (upper ++ [pml2Index]) pml1Index =
        some (s.mem pml1 pml1Index) := by
      rw [Radix.leaf, hwalk]
      rfl
    rw [hunmap, if_neg (by rw [hleaf]; simp)]
    refine ⟨hpaging.store hwalk _ _, rfl, fun ρ hρ index => ?_⟩
    rw [Radix.leaf_store hpaging.tree hwalk hlen hρ]
    split_ifs with h
    · rw [h.1, h.2, hleaf]
      rfl
    · rfl

theorem unmapPageAt_above (upper : List ℕ) (pml2Index pml1Index : ℕ)
    (hpaging : Paging s pmlHigh (upper.length + 1)) {P : BitVec 64 → Prop} :
    (∀ ρ : List ℕ, ρ.length ≤ upper.length + 1 →
      Radix.walk nextTable (unmapPageAt upper pml2Index pml1Index pmlHigh s).2.mem pmlHigh ρ =
          Radix.walk nextTable s.mem pmlHigh ρ ∧
        (Radix.Along nextTable P (unmapPageAt upper pml2Index pml1Index pmlHigh s).2 pmlHigh ρ ↔
          Radix.Along nextTable P s pmlHigh ρ)) ∧
      (Radix.Inner nextTable P s pmlHigh (upper.length + 1) →
        Radix.Inner nextTable P (unmapPageAt upper pml2Index pml1Index pmlHigh s).2 pmlHigh
          (upper.length + 1)) := by
  have hlen : (upper ++ [pml2Index]).length = upper.length + 1 := by simp
  rcases unmapPageAt_spec upper pml2Index pml1Index hpaging with
    ⟨-, hunmap⟩ | ⟨pml1, hwalk, hunmap⟩
  · rw [hunmap]
    exact ⟨fun ρ _ => ⟨rfl, Iff.rfl⟩, id⟩
  · rw [hunmap]
    exact ⟨fun ρ hρ => ⟨Radix.walk_store hpaging.tree hwalk hlen ρ hρ,
      Radix.along_store hpaging.tree hwalk hlen hρ⟩, Radix.inner_store hpaging.tree hwalk hlen⟩

end Levels

/-! ## Four levels as a map -/

section FourLevels

variable {pmlHigh v w : BitVec 64} {s s' : PagingState}

def SamePage (v w : BitVec 64) : Prop := v.extractLsb 47 12 = w.extractLsb 47 12
  deriving Decidable

def pml4Path (v : BitVec 64) : List ℕ :=
  [(computeTableIndices v).pml4Index, (computeTableIndices v).pml3Index] ++
    [(computeTableIndices v).pml2Index]

theorem index_toNat (v : BitVec 64) (k : ℕ) :
    ((v >>> k) &&& 0x1ff#64).toNat = v.toNat / 2 ^ k % 2 ^ 9 := by
  rw [BitVec.toNat_and, BitVec.toNat_ushiftRight, Nat.shiftRight_eq_div_pow]
  exact Nat.and_two_pow_sub_one_eq_mod _ 9

theorem samePage_iff : SamePage v w ↔ pml4Path v = pml4Path w ∧
    (computeTableIndices v).pml1Index = (computeTableIndices w).pml1Index := by
  have hpage : SamePage v w ↔ v.toNat / 2 ^ 12 % 2 ^ 36 = w.toNat / 2 ^ 12 % 2 ^ 36 := by
    rw [SamePage, ← BitVec.toNat_inj, BitVec.extractLsb_toNat, BitVec.extractLsb_toNat,
      Nat.shiftRight_eq_div_pow, Nat.shiftRight_eq_div_pow]
  rw [hpage]
  simp only [pml4Path, computeTableIndices, index_toNat, cons_append, nil_append,
    cons.injEq, and_true]
  omega

theorem samePage_iff' : SamePage v w ↔ pml4Path w = pml4Path v ∧
    (computeTableIndices w).pml1Index = (computeTableIndices v).pml1Index := by
  rw [samePage_iff, eq_comm, eq_comm (a := (computeTableIndices v).pml1Index)]

def entryAt (pmlHigh : BitVec 64) (s : PagingState) (w : BitVec 64) : Option (BitVec 64) :=
  (pml4LowestLevel pmlHigh w s).map fun pointer => s.mem pointer.1 pointer.2

theorem entryAt_eq (hpaging : Paging s pmlHigh 3) (w : BitVec 64) : entryAt pmlHigh s w =
      Radix.leaf nextTable s pmlHigh (pml4Path w) (computeTableIndices w).pml1Index := by
  rw [entryAt, pml4LowestLevel, lowestLevelAt_eq hpaging, Option.map_map]
  rfl

def SameOrEmpty (old new : Option (BitVec 64)) : Prop := new = old ∨ old = none ∧ new = some 0#64

theorem pml4MapPage_entry {paddr flags : BitVec 64} {pointer : Option (BitVec 64 × ℕ)}
    (hpaging : Paging s pmlHigh 3) (hflags : FlagBits flags) (hpresent : flags &&& vmmFlagsP ≠ 0#64)
    (hsmall : flags &&& vmmFlagsPS = 0#64)
    (h : pml4MapPage pmlHigh v paddr flags s = some (pointer, s')) :
    Paging s' pmlHigh 3 ∧ ∀ w, if SamePage v w then entryAt pmlHigh s' w = some (paddr ||| flags)
      else SameOrEmpty (entryAt pmlHigh s w) (entryAt pmlHigh s' w) := by
  have hlink : LinkFlags vmmFlagsRW flags := ⟨.inr rfl, hflags, hpresent⟩
  obtain ⟨-, -, -, -, -, hpaging', -⟩ := mapPageAt_spec hpaging hlink hsmall h
  refine ⟨hpaging', fun w => ?_⟩
  rw [entryAt_eq hpaging', entryAt_eq hpaging,
    mapPageAt_leaf hpaging hlink hsmall h (ρ := pml4Path w) rfl]
  by_cases hsame : SamePage v w
  · obtain ⟨hpath, hindex⟩ := samePage_iff.mp hsame
    rw [if_pos hsame]
    exact (if_pos hpath.symm).trans (if_pos hindex.symm)
  · split_ifs with hpath hindex
    · exact absurd (samePage_iff.mpr ⟨hpath.symm, hindex.symm⟩) hsame
    · cases hold : Radix.leaf nextTable s pmlHigh (pml4Path w) (computeTableIndices w).pml1Index with
      | none => exact .inr ⟨rfl, rfl⟩
      | some entry => exact .inl rfl
    · exact .inl rfl

theorem pml4UnmapPage_entry (hpaging : Paging s pmlHigh 3) :
    Paging (pml4UnmapPage pmlHigh v s).2 pmlHigh 3 ∧ ∀ w,
      entryAt pmlHigh (pml4UnmapPage pmlHigh v s).2 w =
        if SamePage v w then (entryAt pmlHigh s w).map (· &&& ~~~vmmFlagsP)
        else entryAt pmlHigh s w := by
  obtain ⟨hpaging', -, hleaf⟩ := unmapPageAt_leaf
    [(computeTableIndices v).pml4Index, (computeTableIndices v).pml3Index]
    (computeTableIndices v).pml2Index (computeTableIndices v).pml1Index hpaging
  refine ⟨hpaging', fun w => ?_⟩
  rw [entryAt_eq hpaging]
  refine (entryAt_eq hpaging' w).trans ((hleaf (pml4Path w) rfl _).trans ?_)
  exact if_congr samePage_iff'.symm rfl rfl

theorem pml4LowestLevel_store (hpaging : Paging s pmlHigh 3) {pointer : BitVec 64 × ℕ}
    (h : pml4LowestLevel pmlHigh v s = some pointer) (e : BitVec 64) :
    Paging (s.store pointer.1 pointer.2 e) pmlHigh 3 ∧ ∀ w,
      entryAt pmlHigh (s.store pointer.1 pointer.2 e) w =
        if SamePage v w then some e else entryAt pmlHigh s w := by
  rw [pml4LowestLevel, lowestLevelAt_eq hpaging, map_eq_some_iff] at h
  obtain ⟨pml1, hwalk, rfl⟩ := h
  have hpaging' := hpaging.store hwalk (computeTableIndices v).pml1Index e
  refine ⟨hpaging', fun w => ?_⟩
  rw [entryAt_eq hpaging]
  refine (entryAt_eq hpaging' w).trans ?_
  refine (Radix.leaf_store hpaging.tree hwalk rfl (ρ := pml4Path w) rfl _).trans ?_
  exact if_congr samePage_iff'.symm rfl rfl

inductive PtOp
  | map (vaddr paddr flags : BitVec 64)
  | unmap (vaddr : BitVec 64)

def lastEntry (ops : List PtOp) (w : BitVec 64) : Option (BitVec 64) :=
  ops.foldl (fun entry op =>
    match op with
    | .map v paddr flags => if SamePage v w then some (paddr ||| flags) else entry
    | .unmap v => if SamePage v w then entry.map (· &&& ~~~vmmFlagsP) else entry) none

/-- One call: `pml4_map_page` of a page-aligned frame with `VMM_FLAGS_P` and without
`VMM_FLAGS_PS`, or `pml4_unmap_page`. -/
def ptStep (pmlHigh : BitVec 64) (s : PagingState) (op : PtOp) (s' : PagingState) : Prop :=
  match op with
  | .map vaddr paddr flags =>
    FrameAligned paddr ∧ flags &&& vmmFlagsP ≠ 0#64 ∧ flags &&& vmmFlagsPS = 0#64 ∧
      ∃ pointer, pml4MapPage pmlHigh vaddr paddr flags s = some (pointer, s')
  | .unmap vaddr => s' = (pml4UnmapPage pmlHigh vaddr s).2

/-- An empty table, and frames that are aligned, fresh and none of them the table itself. -/
structure EmptyTable (pmlHigh : BitVec 64) (s : PagingState) : Prop where
  empty : ∀ index, s.mem pmlHigh index = 0#64
  fresh : pmlHigh ∉ s.free
  nodup : s.free.Nodup
  aligned : ∀ frame ∈ s.free, FrameAligned frame

/-- The entry of a page is the expected one, and null or zero if the page was never mapped. -/
def MatchesEntry (expected found : Option (BitVec 64)) : Prop :=
  match expected with
  | some entry => found = some entry
  | none => found = none ∨ found = some 0#64

/-- The flags of a call are flag bits. -/
def PtOp.FlagsOnly : PtOp → Prop
  | .map _ _ flags => FlagBits flags
  | .unmap _ => True

theorem lastEntry_snoc (ops : List PtOp) (op : PtOp) (w : BitVec 64) : lastEntry (ops ++ [op]) w =
      match op with
      | .map v paddr flags => if SamePage v w then some (paddr ||| flags) else lastEntry ops w
      | .unmap v => if SamePage v w then (lastEntry ops w).map (· &&& ~~~vmmFlagsP)
        else lastEntry ops w := by
  rw [lastEntry, foldl_append]
  rfl

theorem paging_empty (hempty : EmptyTable pmlHigh s) (depth : ℕ) : Paging s pmlHigh depth := by
  -- the only path that leads anywhere is the empty one
  have hwalk : ∀ (π : List ℕ) t, Radix.walk nextTable s.mem pmlHigh π = some t →
      π = [] ∧ t = pmlHigh := by
    intro π t h
    cases π with
    | nil => exact ⟨rfl, (some.inj h).symm⟩
    | cons index π =>
      rw [Radix.walk_cons, hempty.empty] at h
      cases h
  refine ⟨⟨fun {π ρ t} _ _ h h' => ?_, fun {π t} _ h => ?_, hempty.nodup⟩, ?_, hempty.aligned⟩
  · rw [(hwalk π t h).1, (hwalk ρ t h').1]
  · rw [(hwalk π t h).2]
    exact hempty.fresh
  · intro π t index _ h
    rw [(hwalk π t h).2, hempty.empty]
    decide

def HoldsEntries (pmlHigh : BitVec 64) (tr : List (Event PagingState PtOp)) (s : PagingState) :
    Prop :=
  Paging s pmlHigh 3 ∧ ∀ w, MatchesEntry (lastEntry (tr.map Event.act) w) (entryAt pmlHigh s w)

theorem holdsEntries_step {tr : List (Event PagingState PtOp)} {op : PtOp}
    (h : HoldsEntries pmlHigh tr s) (hstep : ptStep pmlHigh s op s') (hflags : op.FlagsOnly) :
    HoldsEntries pmlHigh (tr ++ [⟨s, op, s'⟩]) s' := by
  obtain ⟨hpaging, hmatch⟩ := h
  unfold HoldsEntries
  simp only [map_append, map_cons, map_nil, lastEntry_snoc]
  cases op with
  | map v paddr flags =>
    obtain ⟨-, hpresent, hsmall, pointer, hmap⟩ := hstep
    obtain ⟨hpaging', hentry⟩ := pml4MapPage_entry hpaging hflags hpresent hsmall hmap
    refine ⟨hpaging', fun w => ?_⟩
    have hw := hmatch w
    have hw' := hentry w
    by_cases hsame : SamePage v w
    · rw [if_pos hsame] at hw'
      simp only [if_pos hsame]
      exact hw'
    · rw [if_neg hsame] at hw'
      simp only [if_neg hsame]
      -- an entry of another page stays; a null one may have become a zero one
      cases hlast : lastEntry (tr.map Event.act) w with
      | some entry =>
        rw [hlast] at hw
        rcases hw' with hw' | ⟨hnull, -⟩
        · exact hw'.trans hw
        · exact absurd (hnull.symm.trans hw) (by simp)
      | none =>
        rw [hlast] at hw
        rcases hw' with hw' | ⟨-, hzero⟩
        · exact hw.imp hw'.trans hw'.trans
        · exact .inr hzero
  | unmap v =>
    obtain rfl : s' = _ := hstep
    obtain ⟨hpaging', hentry⟩ := pml4UnmapPage_entry (v := v) hpaging
    refine ⟨hpaging', fun w => ?_⟩
    have hw := hmatch w
    rw [hentry w]
    by_cases hsame : SamePage v w
    · simp only [if_pos hsame]
      cases hlast : lastEntry (tr.map Event.act) w with
      | some entry =>
        rw [hlast] at hw
        exact congrArg (Option.map _) hw
      | none =>
        rw [hlast] at hw
        rcases hw with hw | hw
        · exact .inl (congrArg (Option.map _) hw)
        · exact .inr (by rw [hw]; rfl)
    · simp only [if_neg hsame]
      exact hw

/-- **Four levels refine a map from pages to entries**: after every sequence of calls on an empty
table, with fresh frames and flags that are flag bits, `pml4_lowest_level` leads to the entry the
calls left for the page, and to null or a zero entry if the page was never mapped. -/
theorem pml4_refines_map {s₀ : PagingState} (hempty : EmptyTable pmlHigh s₀)
    {tr : List (Event PagingState PtOp)} (run : Run (ptStep pmlHigh) s₀ tr s)
    (hflags : ∀ ev ∈ tr, ev.act.FlagsOnly) (w : BitVec 64) :
    MatchesEntry (lastEntry (tr.map Event.act) w) (entryAt pmlHigh s w) := by
  have hstart : HoldsEntries pmlHigh [] s₀ := by
    refine ⟨paging_empty hempty 3, fun w => .inl ?_⟩
    rw [entryAt_eq (paging_empty hempty 3), pml4Path, Radix.leaf, cons_append,
      Radix.walk_cons, hempty.empty, nextTable_zero]
    rfl
  exact (run.guarded (Q := fun ev => ev.act.FlagsOnly) hstart
    (fun _ _ _ _ h hs hq => holdsEntries_step h hs hq) hflags).2 w

def threeFrames : PagingState := ⟨fun _ _ => 0#64, [0x2000#64, 0x3000#64, 0x6000#64]⟩

theorem emptyTable_threeFrames : EmptyTable 0x8000#64 threeFrames :=
  ⟨fun _ => rfl, by decide, by decide, by simp [threeFrames, FrameAligned]⟩

theorem pml4_refines_map_unmapped : ∃ s tr, Run (ptStep 0x8000#64) threeFrames tr s ∧
      entryAt 0x8000#64 s 0x7fff12345678#64 = some 0x10002#64 := by
  obtain ⟨s, hs⟩ : ∃ s, ptStep 0x8000#64 threeFrames (.map 0x7fff12345000#64 0x10000#64 0x3#64) s :=
    ⟨_, by unfold FrameAligned; decide, by decide, by decide, _, rfl⟩
  have hrun := (Run.nil.snoc hs).snoc
    (show ptStep 0x8000#64 s (.unmap 0x7fff12345fff#64) _ from rfl)
  refine ⟨_, _, hrun, ?_⟩
  refine pml4_refines_map emptyTable_threeFrames hrun ?_ 0x7fff12345678#64
  simp only [nil_append, cons_append, mem_cons, not_mem_nil, or_false,
    forall_eq_or_imp, forall_eq]
  exact ⟨show FlagBits 0x3#64 by unfold FlagBits; decide, trivial⟩

theorem pml4_map_address_bit : EmptyTable 0x8000#64 threeFrames ∧
      ∃ s tr, Run (ptStep 0x8000#64) threeFrames tr s ∧
        lastEntry (tr.map Event.act) 0#64 = some 0x11001#64 ∧ entryAt 0x8000#64 s 0#64 = none := by
  have hstep : ptStep 0x8000#64 threeFrames (.map 0#64 0x10000#64 0x1001#64) _ :=
    ⟨by unfold FrameAligned; decide, by decide, by decide, _, rfl⟩
  exact ⟨emptyTable_threeFrames, _, _, Run.nil.snoc hstep, rfl, by decide +kernel⟩

end FourLevels

end Pastoral
