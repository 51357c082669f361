import Pastoral.Mm.PageTable

/-!
# Five levels against four

The two families of page table functions run side by side on the same calls, each on a table of its
own, for addresses below `2 ^ 47`.

## Main results

* `levels_agree_iff`: when the two tables agree
-/

open BitVec List Transition

namespace Pastoral

structure TwoTables where
  four : PagingState
  five : PagingState

def pml5Path (v : BitVec 64) : List ℕ :=
  [(computeTableIndices v).pml5Index, (computeTableIndices v).pml4Index,
    (computeTableIndices v).pml3Index] ++ [(computeTableIndices v).pml2Index]

def entryAt5 (pmlHigh : BitVec 64) (s : PagingState) (w : BitVec 64) : Option (BitVec 64) :=
  (pml5LowestLevel pmlHigh w s).map fun pointer => s.mem pointer.1 pointer.2

def HasRW (e : BitVec 64) : Prop := e &&& vmmFlagsRW ≠ 0#64

def Writable (s : PagingState) (pmlHigh : BitVec 64) (path : List ℕ) (index : ℕ) : Prop :=
  Radix.Along nextTable HasRW s pmlHigh path ∧
    ∃ e, Radix.leaf nextTable s pmlHigh path index = some e ∧ HasRW e

section Levels

variable (r4 r5 : BitVec 64)

/-- One call on both tables: `map_page` of a page-aligned frame with `VMM_FLAGS_P`, without
`VMM_FLAGS_PS` and with flag bits only, or `unmap_page`, of an address below `2 ^ 47`. -/
def levelsStep (s : TwoTables) (op : PtOp) (s' : TwoTables) : Prop :=
  match op with
  | .map vaddr paddr flags =>
    vaddr.toNat < 2 ^ 47 ∧ FrameAligned paddr ∧ flags &&& vmmFlagsP ≠ 0#64 ∧
      flags &&& vmmFlagsPS = 0#64 ∧ FlagBits flags ∧
      (∃ pointer, pml4MapPage r4 vaddr paddr flags s.four = some (pointer, s'.four)) ∧
      ∃ pointer, pml5MapPage r5 vaddr paddr flags s.five = some (pointer, s'.five)
  | .unmap vaddr =>
    vaddr.toNat < 2 ^ 47 ∧ s'.four = (pml4UnmapPage r4 vaddr s.four).2 ∧
      s'.five = (pml5UnmapPage r5 vaddr s.five).2

/-- **What has to agree after a call**: the entries of all addresses below `2 ^ 47`, their write
permission, and the value `unmap_page` returned. -/
def LevelsAgree (ev : Event TwoTables PtOp) : Prop :=
  (∀ w : BitVec 64, w.toNat < 2 ^ 47 →
    entryAt r4 ev.post.four w = entryAt5 r5 ev.post.five w ∧
      (Writable ev.post.four r4 (pml4Path w) (computeTableIndices w).pml1Index ↔
        Writable ev.post.five r5 (pml5Path w) (computeTableIndices w).pml1Index)) ∧
    ∀ v, ev.act = .unmap v →
      (pml4UnmapPage r4 v ev.pre.four).1 = (pml5UnmapPage r5 v ev.pre.five).1

/-- **When it does**: a writable mapping finds `VMM_FLAGS_RW` in every link that is already on its
walk, and an unmapped address lies below `2 ^ 39` or has no last table. -/
def LevelsCondition (ev : Event TwoTables PtOp) : Prop :=
  match ev.act with
  | .map v _ flags =>
    HasRW flags → Radix.Along nextTable HasRW ev.pre.five r5 (pml5Path v)
  | .unmap v =>
    v.toNat < 2 ^ 39 ∨ Radix.walk nextTable ev.pre.four.mem r4 (pml4Path v) = none

structure LevelsInv (s : TwoTables) : Prop where
  four : Paging s.four r4 3
  five : Paging s.five r5 4
  leaf : ∀ w : BitVec 64, w.toNat < 2 ^ 47 →
    Radix.leaf nextTable s.four r4 (pml4Path w) (computeTableIndices w).pml1Index =
      Radix.leaf nextTable s.five r5 (pml5Path w) (computeTableIndices w).pml1Index
  links : Radix.Inner nextTable (fun e => nextTable e ≠ none → HasRW e) s.four r4 3
  rights : ∀ w : BitVec 64, w.toNat < 2 ^ 47 → ∀ e,
    Radix.leaf nextTable s.five r5 (pml5Path w) (computeTableIndices w).pml1Index = some e →
      HasRW e → Radix.Along nextTable HasRW s.five r5 (pml5Path w)
  low : ∀ index, index ≠ 0 → Radix.walk nextTable s.five.mem r5 [index] = none

variable {r4 r5} {s s' : TwoTables} {v w : BitVec 64}

/-! ## Addresses and bits -/

theorem pml5Path_eq (h : v.toNat < 2 ^ 47) : pml5Path v = 0 :: pml4Path v := by
  have hzero : (computeTableIndices v).pml5Index = 0 := by
    simp only [computeTableIndices, index_toNat]
    omega
  rw [pml5Path, hzero]
  rfl

theorem pml5Path_eq_iff (hv : v.toNat < 2 ^ 47) (hw : w.toNat < 2 ^ 47) :
    pml5Path w = pml5Path v ↔ pml4Path w = pml4Path v := by
  rw [pml5Path_eq hv, pml5Path_eq hw, cons_inj_right]

theorem pml4Index_eq_zero_iff (h : v.toNat < 2 ^ 47) :
    (computeTableIndices v).pml4Index = 0 ↔ v.toNat < 2 ^ 39 := by
  simp only [computeTableIndices, index_toNat]
  omega

theorem hasRW_iff (e : BitVec 64) : HasRW e ↔ e.getLsbD 1 = true := by
  rw [HasRW, Ne, and_twoPow_eq_zero_iff e (by decide), Bool.not_eq_false]

theorem not_hasRW_zero : ¬ HasRW 0#64 := by
  unfold HasRW
  decide

variable {flags paddr : BitVec 64}

theorem hasRW_or (h : FrameAligned paddr) :
    HasRW (paddr ||| flags) ↔ HasRW flags := by
  rw [hasRW_iff, hasRW_iff, getLsbD_or, getLsbD_aligned h (by decide), Bool.false_or]

theorem hasRW_and_not_present (e : BitVec 64) : HasRW (e &&& ~~~vmmFlagsP) ↔ HasRW e := by
  rw [hasRW_iff, hasRW_iff, getLsbD_and]
  have : (~~~vmmFlagsP).getLsbD 1 = true := by decide
  rw [this, Bool.and_true]

theorem hasRW_linkEntry {extra : BitVec 64} (frame : BitVec 64)
    (h : HasRW flags ∨ extra = vmmFlagsRW) : HasRW (linkEntry extra flags frame) := by
  rw [hasRW_iff, linkEntry, getLsbD_or, getLsbD_or, getLsbD_and]
  rcases h with h | rfl
  · have hmask : pmlFlagsMask.getLsbD 1 = true := by decide
    rw [(hasRW_iff flags).mp h, hmask]
    simp
  · simp

theorem entryAt5_eq {t : PagingState} (hpaging : Paging t r5 4) (w : BitVec 64) :
    entryAt5 r5 t w = Radix.leaf nextTable t r5 (pml5Path w) (computeTableIndices w).pml1Index := by
  rw [entryAt5, pml5LowestLevel, lowestLevelAt_eq hpaging, Option.map_map]
  rfl

/-! ## The relation gives agreement -/

theorem LevelsInv.writable_iff (h : LevelsInv r4 r5 s) (hw : w.toNat < 2 ^ 47) :
    Writable s.four r4 (pml4Path w) (computeTableIndices w).pml1Index ↔
      Writable s.five r5 (pml5Path w) (computeTableIndices w).pml1Index := by
  constructor
  · rintro ⟨-, e, he, hrw⟩
    rw [h.leaf w hw] at he
    exact ⟨h.rights w hw e he hrw, e, he, hrw⟩
  · rintro ⟨-, e, he, hrw⟩
    rw [← h.leaf w hw] at he
    exact ⟨h.links.along le_rfl, e, he, hrw⟩

theorem LevelsInv.entries (h : LevelsInv r4 r5 s) (hw : w.toNat < 2 ^ 47) :
    entryAt r4 s.four w = entryAt5 r5 s.five w := by
  rw [entryAt_eq h.four, entryAt5_eq h.five]
  exact h.leaf w hw

/-! ## One call -/

theorem levelsInv_map (h : LevelsInv r4 r5 s)
    (hstep : levelsStep r4 r5 s (.map v paddr flags) s')
    (hcond : HasRW flags → Radix.Along nextTable HasRW s.five r5 (pml5Path v)) :
    LevelsInv r4 r5 s' := by
  obtain ⟨hv, hpaddr, hpresent, hsmall, hflags, ⟨p4, h4⟩, p5, h5⟩ := hstep
  have hlink4 : LinkFlags vmmFlagsRW flags := ⟨.inr rfl, hflags, hpresent⟩
  have hlink5 : LinkFlags 0#64 flags := ⟨.inl rfl, hflags, hpresent⟩
  obtain ⟨t4, u4, hwalk4, hgrows4, hpaging4, hfour, -, hs4⟩ := mapPageAt_spec h.four hlink4 hsmall h4
  obtain ⟨t5, u5, hwalk5, hgrows5, hpaging5, hfive, -, hs5⟩ := mapPageAt_spec h.five hlink5 hsmall h5
  have hleaf4 : ∀ w, _ := fun w : BitVec 64 =>
    mapPageAt_leaf h.four hlink4 hsmall h4 (ρ := pml4Path w) rfl (computeTableIndices w).pml1Index
  have hleaf5 : ∀ w, _ := fun w : BitVec 64 =>
    mapPageAt_leaf h.five hlink5 hsmall h5 (ρ := pml5Path w) rfl (computeTableIndices w).pml1Index
  refine ⟨hfour, hfive, fun w hw => ?_, ?_, fun w hw e he hrw => ?_, fun index hindex => ?_⟩
  · -- the last levels change in the same place
    rw [hleaf4, hleaf5, h.leaf w hw]
    exact if_congr (pml5Path_eq_iff hv hw).symm rfl rfl
  · rw [hs4]
    refine Radix.inner_store hpaging4.tree hwalk4 rfl ?_
    refine hgrows4.inner h.links (fun hne => absurd nextTable_zero hne) fun frame _ _ => ?_
    exact hasRW_linkEntry frame (.inr rfl)
  · rw [hs5, Radix.along_store hpaging5.tree hwalk5 rfl (ρ := pml5Path w) le_rfl]
    -- either the entry was there before, or it is the new one
    have hold : ∀ e', Radix.leaf nextTable s.five r5 (pml5Path w)
        (computeTableIndices w).pml1Index = some e' → HasRW e' →
        Radix.Along nextTable HasRW u5 r5 (pml5Path w) := by
      intro e' he' hrw'
      have hwalk : Radix.walk nextTable s.five.mem r5 (pml5Path w) ≠ none := by
        intro hnone
        rw [Radix.leaf, hnone] at he'
        cases he'
      exact (hgrows5.along_iff nextTable_zero le_rfl (.inr hwalk)).mpr (h.rights w hw e' he' hrw')
    rw [hleaf5] at he
    split_ifs at he with hpath hindex
    · rw [← Option.some.inj he, hasRW_or hpaddr] at hrw
      rw [show pml5Path w = pml5Path v from hpath]
      exact (hgrows5.along_iff nextTable_zero le_rfl
        (.inl fun frame _ => hasRW_linkEntry frame (.inl hrw))).mpr (hcond hrw)
    · cases hl : Radix.leaf nextTable s.five r5 (pml5Path w) (computeTableIndices w).pml1Index with
      | none =>
        rw [hl] at he
        obtain rfl : 0#64 = e := Option.some.inj he
        exact absurd hrw not_hasRW_zero
      | some e' =>
        rw [hl] at he
        obtain rfl : e' = e := Option.some.inj he
        exact hold e' hl hrw
    · exact hold e he hrw
  · rw [hs5, Radix.walk_store hpaging5.tree hwalk5 rfl [index] (by simp)]
    cases hw : Radix.walk nextTable u5.mem r5 [index] with
    | none => rfl
    | some t =>
      -- a new link of the root lies on the path, which starts with 0
      have hpre : [index] <+: pml5Path v := hgrows5.fresh (by simp) (h.low index hindex) hw
      rw [pml5Path_eq hv] at hpre
      exact absurd (cons_prefix_cons.mp hpre).1 hindex

theorem levels_differ_map (h : LevelsInv r4 r5 s)
    (hstep : levelsStep r4 r5 s (.map v paddr flags) s') (hrw : HasRW flags)
    (hlink : ¬ Radix.Along nextTable HasRW s.five r5 (pml5Path v)) :
    Writable s'.four r4 (pml4Path v) (computeTableIndices v).pml1Index ∧
      ¬ Writable s'.five r5 (pml5Path v) (computeTableIndices v).pml1Index := by
  obtain ⟨hv, hpaddr, hpresent, hsmall, hflags, ⟨p4, h4⟩, p5, h5⟩ := hstep
  have hlink4 : LinkFlags vmmFlagsRW flags := ⟨.inr rfl, hflags, hpresent⟩
  have hlink5 : LinkFlags 0#64 flags := ⟨.inl rfl, hflags, hpresent⟩
  obtain ⟨t4, u4, hwalk4, hgrows4, hpaging4, hfour, -, hs4⟩ := mapPageAt_spec h.four hlink4 hsmall h4
  obtain ⟨t5, u5, hwalk5, hgrows5, hpaging5, hfive, -, hs5⟩ := mapPageAt_spec h.five hlink5 hsmall h5
  constructor
  · refine ⟨?_, paddr ||| flags, ?_, (hasRW_or hpaddr).mpr hrw⟩
    · have hlinks := hgrows4.inner h.links (fun hne => absurd nextTable_zero hne)
        fun frame _ _ => hasRW_linkEntry frame (.inr rfl)
      rw [hs4, Radix.along_store hpaging4.tree hwalk4 rfl (ρ := pml4Path v) le_rfl]
      exact hlinks.along le_rfl
    · rw [mapPageAt_leaf h.four hlink4 hsmall h4 (ρ := pml4Path v) rfl]
      exact (if_pos rfl).trans (if_pos rfl)
  · rintro ⟨halong, -⟩
    rw [hs5, Radix.along_store hpaging5.tree hwalk5 rfl (ρ := pml5Path v) le_rfl] at halong
    exact hlink ((hgrows5.along_iff nextTable_zero le_rfl
      (.inl fun frame _ => hasRW_linkEntry frame (.inl hrw))).mp halong)

theorem pml5UnmapPage_low (t : PagingState) (hv : v.toNat < 2 ^ 39) :
    pml5UnmapPage r5 v t = unmapPageAt [(computeTableIndices v).pml5Index,
      (computeTableIndices v).pml4Index, (computeTableIndices v).pml3Index]
      (computeTableIndices v).pml2Index (computeTableIndices v).pml1Index r5 t := by
  have h4 := (pml4Index_eq_zero_iff (by omega)).mpr hv
  have h5 : (computeTableIndices v).pml5Index = 0 := by
    simp only [computeTableIndices, index_toNat]
    omega
  simp only [pml5UnmapPage, h4, h5]

theorem pml5UnmapPage_high (h : LevelsInv r4 r5 s) (hv : v.toNat < 2 ^ 47)
    (hhigh : ¬ v.toNat < 2 ^ 39) : pml5UnmapPage r5 v s.five = (0, s.five) := by
  have hindex : (computeTableIndices v).pml4Index ≠ 0 :=
    fun h => hhigh ((pml4Index_eq_zero_iff hv).mp h)
  have hnone : Radix.walk nextTable s.five.mem r5 [(computeTableIndices v).pml4Index,
      (computeTableIndices v).pml4Index, (computeTableIndices v).pml3Index] = none := by
    rw [← singleton_append, Radix.walk_append, h.low _ hindex]
    rfl
  simp only [pml5UnmapPage, unmapPageAt, hnone]

theorem levelsInv_unmap_low (h : LevelsInv r4 r5 s) (hstep : levelsStep r4 r5 s (.unmap v) s')
    (hlow : v.toNat < 2 ^ 39) :
    LevelsInv r4 r5 s' ∧ (pml4UnmapPage r4 v s.four).1 = (pml5UnmapPage r5 v s.five).1 := by
  obtain ⟨hv, hs4, hs5⟩ := hstep
  rw [pml5UnmapPage_low s.five hlow] at hs5 ⊢
  obtain ⟨hpaging4, hret4, hleaf4⟩ := unmapPageAt_leaf
    [(computeTableIndices v).pml4Index, (computeTableIndices v).pml3Index]
    (computeTableIndices v).pml2Index (computeTableIndices v).pml1Index h.four
  obtain ⟨hpaging5, hret5, hleaf5⟩ := unmapPageAt_leaf
    [(computeTableIndices v).pml5Index, (computeTableIndices v).pml4Index,
      (computeTableIndices v).pml3Index]
    (computeTableIndices v).pml2Index (computeTableIndices v).pml1Index h.five
  obtain ⟨habove5, -⟩ := unmapPageAt_above (P := HasRW)
    [(computeTableIndices v).pml5Index, (computeTableIndices v).pml4Index,
      (computeTableIndices v).pml3Index]
    (computeTableIndices v).pml2Index (computeTableIndices v).pml1Index h.five
  have hsame : ∀ w : BitVec 64, w.toNat < 2 ^ 47 → (pml5Path w = pml5Path v ∧
          (computeTableIndices w).pml1Index = (computeTableIndices v).pml1Index ↔
        pml4Path w = pml4Path v ∧
          (computeTableIndices w).pml1Index = (computeTableIndices v).pml1Index) :=
    fun w hw => and_congr_left' (pml5Path_eq_iff hv hw)
  refine ⟨⟨?_, ?_, fun w hw => ?_, ?_, fun w hw e he hrw => ?_, fun index hindex => ?_⟩, ?_⟩
  · rw [hs4]
    exact hpaging4
  · rw [hs5]
    exact hpaging5
  · rw [hs4, hs5]
    refine (hleaf4 (pml4Path w) rfl _).trans (Eq.trans ?_ (hleaf5 (pml5Path w) rfl _).symm)
    rw [h.leaf w hw]
    exact if_congr (hsame w hw).symm rfl rfl
  · rw [hs4]
    exact (unmapPageAt_above _ _ _ h.four).2 h.links
  · rw [hs5] at he ⊢
    refine (habove5 (pml5Path w) le_rfl).2.mpr ?_
    rw [hleaf5 (pml5Path w) rfl _] at he
    split_ifs at he with hpage
    · -- the entry had the bit before
      obtain ⟨e', he', rfl⟩ := Option.map_eq_some_iff.mp he
      exact h.rights w hw e' he' ((hasRW_and_not_present e').mp hrw)
    · exact h.rights w hw e he hrw
  · rw [hs5, (habove5 [index] (by simp)).1]
    exact h.low index hindex
  · refine hret4.trans (Eq.trans ?_ hret5.symm)
    exact congrArg (fun l => if l = none then 0 else 0x1000) (h.leaf v hv)

theorem levelsInv_unmap (h : LevelsInv r4 r5 s) (hstep : levelsStep r4 r5 s (.unmap v) s')
    (hcond : v.toNat < 2 ^ 39 ∨ Radix.walk nextTable s.four.mem r4 (pml4Path v) = none) :
    LevelsInv r4 r5 s' ∧ (pml4UnmapPage r4 v s.four).1 = (pml5UnmapPage r5 v s.five).1 := by
  by_cases hlow : v.toNat < 2 ^ 39
  · exact levelsInv_unmap_low h hstep hlow
  · -- neither table has anything to unmap
    obtain ⟨hv, hs4, hs5⟩ := hstep
    have hfive := pml5UnmapPage_high h hv hlow
    have hfour : pml4UnmapPage r4 v s.four = (0, s.four) := by
      rcases unmapPageAt_spec [(computeTableIndices v).pml4Index, (computeTableIndices v).pml3Index]
        (computeTableIndices v).pml2Index (computeTableIndices v).pml1Index h.four with
        ⟨-, hunmap⟩ | ⟨pml1, hwalk, -⟩
      · exact hunmap
      · exact absurd (hwalk.symm.trans (hcond.resolve_left hlow)) (by simp)
    rw [hfour] at hs4 ⊢
    rw [hfive] at hs5 ⊢
    obtain ⟨four, five⟩ := s'
    obtain rfl : four = s.four := hs4
    obtain rfl : five = s.five := hs5
    exact ⟨h, rfl⟩

theorem levels_differ_unmap (h : LevelsInv r4 r5 s) (hv : v.toNat < 2 ^ 47)
    (hhigh : ¬ v.toNat < 2 ^ 39)
    (hwalk : Radix.walk nextTable s.four.mem r4 (pml4Path v) ≠ none) :
    (pml4UnmapPage r4 v s.four).1 ≠ (pml5UnmapPage r5 v s.five).1 := by
  rw [pml5UnmapPage_high h hv hhigh]
  rcases unmapPageAt_spec [(computeTableIndices v).pml4Index, (computeTableIndices v).pml3Index]
    (computeTableIndices v).pml2Index (computeTableIndices v).pml1Index h.four with
    ⟨hnone, -⟩ | ⟨pml1, -, hunmap⟩
  · exact absurd hnone hwalk
  · rw [pml4UnmapPage, hunmap]
    exact Nat.succ_ne_zero _

theorem levelsInv_empty (h4 : EmptyTable r4 s.four) (h5 : EmptyTable r5 s.five) :
    LevelsInv r4 r5 s := by
  have hwalk : ∀ {r : BitVec 64} {t : PagingState}, EmptyTable r t → ∀ (index : ℕ) (π : List ℕ),
      Radix.walk nextTable t.mem r (index :: π) = none := by
    intro r t ht index π
    rw [Radix.walk_cons, ht.empty]
    rfl
  have hleaf4 : ∀ (w : BitVec 64) (index : ℕ),
      Radix.leaf nextTable s.four r4 (pml4Path w) index = none := by
    intro w index
    rw [Radix.leaf, pml4Path, List.cons_append, hwalk h4]
    rfl
  have hleaf5 : ∀ (w : BitVec 64) (index : ℕ),
      Radix.leaf nextTable s.five r5 (pml5Path w) index = none := by
    intro w index
    rw [Radix.leaf, pml5Path, List.cons_append, hwalk h5]
    rfl
  refine ⟨paging_empty h4 3, paging_empty h5 4, fun w _ => ?_, ?_, fun w _ e he => ?_,
    fun index _ => hwalk h5 index []⟩
  · rw [hleaf4, hleaf5]
  · intro ρ u index _ hu hnext
    cases ρ with
    | nil =>
      cases hu
      rw [h4.empty] at hnext
      exact absurd nextTable_zero hnext
    | cons i ρ =>
      rw [hwalk h4] at hu
      cases hu
  · rw [hleaf5] at he
    cases he

/-- **Five levels agree with four exactly as long as neither difference shows**: in every run of
calls on two empty tables, all calls agree if and only if every writable mapping finds
`VMM_FLAGS_RW` in the links that are already on its walk, and every unmapped address lies below
`2 ^ 39` or in a 2 MiB range without a last table. -/
theorem levels_agree_iff {s₀ : TwoTables} (h4 : EmptyTable r4 s₀.four) (h5 : EmptyTable r5 s₀.five)
    {tr : List (Event TwoTables PtOp)} (run : Run (levelsStep r4 r5) s₀ tr s) :
    (∀ ev ∈ tr, LevelsAgree r4 r5 ev) ↔ ∀ ev ∈ tr, LevelsCondition r4 r5 ev := by
  refine run.every_iff (I := LevelsInv r4 r5) (levelsInv_empty h4 h5) ?_ ?_
  · intro s op s' hinv hstep hcond
    cases op with
    | map v paddr flags => exact levelsInv_map hinv hstep hcond
    | unmap v => exact (levelsInv_unmap hinv hstep hcond).1
  · intro s op s' hinv hstep
    have hagree : LevelsInv r4 r5 s' → ∀ w : BitVec 64, w.toNat < 2 ^ 47 → _ := fun hinv' w hw =>
      And.intro (hinv'.entries hw) (hinv'.writable_iff hw)
    cases op with
    | map v paddr flags =>
      constructor
      · rintro ⟨hall, -⟩ hrw
        by_contra hlink
        obtain ⟨hyes, hno⟩ := levels_differ_map hinv hstep hrw hlink
        exact hno ((hall v hstep.1).2.mp hyes)
      · intro hcond
        exact ⟨hagree (levelsInv_map hinv hstep hcond), fun _ h => by cases h⟩
    | unmap v =>
      constructor
      · rintro ⟨-, hret⟩
        by_contra hnot
        obtain ⟨hhigh, hwalk⟩ := not_or.mp hnot
        exact levels_differ_unmap hinv hstep.1 hhigh hwalk (hret v rfl)
      · intro hcond
        obtain ⟨hinv', hret⟩ := levelsInv_unmap hinv hstep hcond
        refine ⟨hagree hinv', fun v' hv' => ?_⟩
        obtain rfl : v = v' := by cases hv'; rfl
        exact hret

def emptyTables : TwoTables :=
  ⟨⟨fun _ _ => 0#64, [0x2000#64, 0x3000#64, 0x6000#64]⟩,
    ⟨fun _ _ => 0#64, [0x2000#64, 0x3000#64, 0x6000#64, 0x7000#64]⟩⟩

theorem emptyTable_four : EmptyTable 0x8000#64 emptyTables.four :=
  ⟨fun _ => rfl, by decide, by decide, by simp [emptyTables, FrameAligned]⟩

theorem emptyTable_five : EmptyTable 0x8000#64 emptyTables.five :=
  ⟨fun _ => rfl, by decide, by decide, by simp [emptyTables, FrameAligned]⟩

theorem levelsStep_first (vaddr flags : BitVec 64) (hv : vaddr.toNat < 2 ^ 47)
    (hpresent : flags &&& vmmFlagsP ≠ 0#64) (hsmall : flags &&& vmmFlagsPS = 0#64)
    (hflags : FlagBits flags) {p4 p5 : Option (BitVec 64 × ℕ)} {t4 t5 : PagingState}
    (h4 : pml4MapPage 0x8000#64 vaddr 0x10000#64 flags emptyTables.four = some (p4, t4))
    (h5 : pml5MapPage 0x8000#64 vaddr 0x10000#64 flags emptyTables.five = some (p5, t5)) :
    levelsStep 0x8000#64 0x8000#64 emptyTables (.map vaddr 0x10000#64 flags) ⟨t4, t5⟩ :=
  ⟨hv, by unfold FrameAligned; decide, hpresent, hsmall, hflags, ⟨p4, h4⟩, p5, h5⟩

theorem levels_agree_iff_low_page : ∃ s tr, Run (levelsStep 0x8000#64 0x8000#64) emptyTables tr s ∧
      tr.map Event.act = [.map 0x1000#64 0x10000#64 0x3#64, .unmap 0x1000#64] ∧
      ∀ ev ∈ tr, LevelsAgree 0x8000#64 0x8000#64 ev := by
  have hmap := levelsStep_first 0x1000#64 0x3#64 (by decide) (by decide) (by decide)
    (by unfold FlagBits; decide) rfl rfl
  have hrun := (Run.nil.snoc hmap).snoc
    (show levelsStep 0x8000#64 0x8000#64 _ (.unmap 0x1000#64) ⟨_, _⟩ from ⟨by decide, rfl, rfl⟩)
  refine ⟨_, _, hrun, rfl, (levels_agree_iff emptyTable_four emptyTable_five hrun).mpr ?_⟩
  simp only [nil_append, List.cons_append, mem_cons, not_mem_nil, or_false,
    forall_eq_or_imp, forall_eq]
  exact ⟨fun _ _ _ _ _ _ hnext => absurd nextTable_zero hnext, .inl (by decide)⟩

theorem levels_disagree : (∃ s tr, Run (levelsStep 0x8000#64 0x8000#64) emptyTables tr s ∧
      tr.map Event.act = [.map 0x8000000000#64 0x10000#64 0x3#64, .unmap 0x8000000000#64] ∧
      ¬ ∀ ev ∈ tr, LevelsAgree 0x8000#64 0x8000#64 ev) ∧
    ∃ s tr, Run (levelsStep 0x8000#64 0x8000#64) emptyTables tr s ∧
      tr.map Event.act = [.map 0x1000#64 0x10000#64 0x1#64, .map 0x2000#64 0x11000#64 0x3#64] ∧
      ¬ ∀ ev ∈ tr, LevelsAgree 0x8000#64 0x8000#64 ev := by
  constructor
  · have hmap := levelsStep_first 0x8000000000#64 0x3#64 (by decide) (by decide) (by decide)
      (by unfold FlagBits; decide) rfl rfl
    refine ⟨_, _, (Run.nil.snoc hmap).snoc (show levelsStep 0x8000#64 0x8000#64 _
      (.unmap 0x8000000000#64) ⟨_, _⟩ from ⟨by decide, rfl, rfl⟩), rfl, fun hall => ?_⟩
    have hret := (hall _ (mem_append_right _ (mem_singleton.mpr rfl))).2 _ rfl
    revert hret
    decide +kernel
  · have key : ∀ s₁ s₂,
        levelsStep 0x8000#64 0x8000#64 emptyTables (.map 0x1000#64 0x10000#64 0x1#64) s₁ →
        levelsStep 0x8000#64 0x8000#64 s₁ (.map 0x2000#64 0x11000#64 0x3#64) s₂ →
        nextTable (s₁.five.mem 0x8000#64 0) ≠ none → ¬ HasRW (s₁.five.mem 0x8000#64 0) →
        ∃ s tr, Run (levelsStep 0x8000#64 0x8000#64) emptyTables tr s ∧
          tr.map Event.act = [.map 0x1000#64 0x10000#64 0x1#64, .map 0x2000#64 0x11000#64 0x3#64] ∧
          ¬ ∀ ev ∈ tr, LevelsAgree 0x8000#64 0x8000#64 ev := by
      intro s₁ s₂ hmap hmap' hroot hread
      have hinv := levelsInv_map (levelsInv_empty emptyTable_four emptyTable_five) hmap
        fun h => absurd h (by unfold HasRW; decide)
      refine ⟨_, _, (Run.nil.snoc hmap).snoc hmap', rfl, fun hall => ?_⟩
      -- the link of the root is on the walk of the second page
      obtain ⟨hyes, hno⟩ := levels_differ_map hinv hmap' (by unfold HasRW; decide)
        fun halong => hread (halong [] 0 0x8000#64 ⟨_, rfl⟩ rfl hroot)
      exact hno (((hall _ (mem_append_right _ (mem_singleton.mpr rfl))).1
        0x2000#64 (by decide)).2.mp hyes)
    refine key _ ⟨_, _⟩ (levelsStep_first 0x1000#64 0x1#64 (by decide) (by decide) (by decide)
      (by unfold FlagBits; decide) rfl rfl) ⟨by decide, by unfold FrameAligned; decide, by decide,
        by decide, by unfold FlagBits; decide, ⟨_, rfl⟩, _, rfl⟩ (by decide +kernel) ?_
    unfold HasRW
    decide +kernel

end Levels

end Pastoral
