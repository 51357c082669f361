import Pastoral.Lib.Macros
import Pastoral.Theory.BitArray
import Pastoral.Theory.Run

/-!
# The physical page allocator: one module

`pmm.c`: a module owns the pages of one memory map entry and keeps one bit of a bitmap for each.

## Main definitions

* `pmmModuleAlloc`, `pmmModuleFree`

## Main results

* `pmmModule_sound`: live blocks are disjoint, and the bitmap has their pages
-/

open Transition

namespace Pastoral

structure LimineMemmapEntry where
  base : ℕ
  length : ℕ
  type : ℕ
  deriving DecidableEq, Repr

structure PmmModule where
  mmapEntry : LimineMemmapEntry
  bitmapSize : ℕ
  bitmapEntryCnt : ℕ
  lastFree : ℕ
  bitmap : List (BitVec 8)
  deriving DecidableEq, Repr

abbrev allocFailed : ℕ := 2 ^ 64 - 1

def pmmInitModule (mmapEntry : LimineMemmapEntry) : PmmModule :=
  let pageCnt := divRoundup mmapEntry.length pageSize
  { mmapEntry := mmapEntry
    bitmapSize := divRoundup pageCnt 8
    bitmapEntryCnt := pageCnt
    lastFree := 0
    bitmap := List.replicate (divRoundup pageCnt 8) 0#8 }

inductive Scan
  | busy
  | found (j : ℕ)
  | ended
  deriving DecidableEq, Repr

def scanPages (bitmap : List (BitVec 8)) (cnt : ℕ) : ℕ → ℕ → ℕ → Scan
  | 0, _, _ => .ended
  | n + 1, j, count =>
    if BitArray.test bitmap j then .busy
    else if count + 1 = cnt then .found j
    else scanPages bitmap cnt n (j + 1) (count + 1)

def allocLoop (m : PmmModule) (cnt align : ℕ) : ℕ → ℕ → ℕ → Option (ℕ × ℕ × ℕ)
  | 0, _, _ => none
  | n + 1, i, allocBase =>
    if i < m.bitmapEntryCnt then
      if m.bitmapEntryCnt < wrap (i + cnt) then none
      else
        match scanPages m.bitmap cnt (wrap (i + cnt) - i) i 0 with
        | .busy =>
          allocLoop m cnt align n (wrap (i + align)) (wrap (allocBase + align * pageSize))
        | .found j => some (allocBase, i, j)
        | .ended => allocLoop m cnt align n (wrap (i + align)) allocBase
    else none

def nextFree (bitmap : List (BitVec 8)) : ℕ → ℕ → ℕ
  | 0, _ => 0
  | n + 1, z => if BitArray.test bitmap z then nextFree bitmap n (z + 1) else z

def PmmModule.startBase (m : PmmModule) (align : ℕ) : ℕ :=
  alignUp (wrap (m.mmapEntry.base + wrap (m.lastFree * pageSize))) (wrap (align * pageSize))

def pmmModuleAlloc (m : PmmModule) (cnt align : ℕ) : ℕ × PmmModule :=
  let allocBase := m.startBase align
  let bitBase := wrap (allocBase + (2 ^ 64 - m.mmapEntry.base)) / pageSize
  match allocLoop m cnt align (m.bitmapEntryCnt + 1) bitBase allocBase with
  | none => (allocFailed, m)
  | some (allocBase, i, j) =>
    let bitmap := BitArray.setRun m.bitmap i cnt
    (allocBase,
      { m with bitmap := bitmap, lastFree := nextFree bitmap (m.bitmapEntryCnt - j) j })

def pmmModuleFree (m : PmmModule) (base cnt : ℕ) : Option PmmModule :=
  let start := divRoundup base pageSize
  (BitArray.clearRun? m.bitmap (wrap (start + cnt) - start) start).map fun bitmap =>
    { m with bitmap := bitmap }

/-! ## The loops -/

section Loops

variable {m : PmmModule} {cnt align : ℕ}

variable {j n : ℕ}

theorem scanPages_found {bitmap : List (BitVec 8)} {count l : ℕ}
    (h : scanPages bitmap cnt n j count = .found l) :
    j ≤ l ∧ l < j + n ∧ count + (l - j) + 1 = cnt ∧
      ∀ z, j ≤ z → z ≤ l → BitArray.test bitmap z = false := by
  induction n generalizing j count with
  | zero => simp [scanPages] at h
  | succ n ih =>
    rw [scanPages] at h
    split_ifs at h with hbit hcnt
    · obtain rfl : j = l := by simpa using h
      refine ⟨le_rfl, by omega, by omega, fun z hz hz' => ?_⟩
      rw [le_antisymm hz' hz]
      simpa using hbit
    · obtain ⟨hjl, hln, hc, hclear⟩ := ih h
      refine ⟨by omega, by omega, by omega, fun z hz hz' => ?_⟩
      rcases eq_or_lt_of_le hz with rfl | hlt
      · simpa using hbit
      · exact hclear z hlt hz'

theorem scanPages_ended {bitmap : List (BitVec 8)} {count : ℕ}
    (h : scanPages bitmap cnt n j count = .ended) : count + n < cnt ∨ cnt ≤ count := by
  induction n generalizing j count with
  | zero => omega
  | succ n ih =>
    rw [scanPages] at h
    split_ifs at h with hbit hcnt
    have := ih h
    omega

def Unservable (m : PmmModule) (cnt : ℕ) : Prop := cnt = 0 ∨ 2 ^ 64 ≤ cnt + m.bitmapEntryCnt

theorem allocLoop_unservable (hcnt : cnt < 2 ^ 64) (hm : m.bitmapEntryCnt < 2 ^ 63)
    (hbad : Unservable m cnt) (n i allocBase : ℕ) :
    allocLoop m cnt align n i allocBase = none := by
  induction n generalizing i allocBase with
  | zero => rfl
  | succ n ih =>
    rw [allocLoop]
    split_ifs with hi hfit
    · rfl
    · have hstop : wrap (i + cnt) - i = 0 := by
        unfold Unservable at hbad
        unfold wrap at hfit ⊢
        omega
      rw [hstop]
      exact ih _ _
    · rfl

/-- What holds of the position and the address at the start of the search, and is kept by a step
of it, holds of the run that is found. -/
theorem allocLoop_induct {P : ℕ → ℕ → Prop} (hcnt : cnt < 2 ^ 64) (hm : m.bitmapEntryCnt < 2 ^ 63)
    (hnext : ∀ i allocBase, i < m.bitmapEntryCnt → P i allocBase →
      P (wrap (i + align)) (wrap (allocBase + align * pageSize)))
    {i allocBase r i' : ℕ} (hP : P i allocBase)
    (h : allocLoop m cnt align n i allocBase = some (r, i', j)) :
    P i' r ∧ 0 < cnt ∧ i' + cnt ≤ m.bitmapEntryCnt ∧ j + 1 = i' + cnt ∧
      ∀ z, i' ≤ z → z < i' + cnt → BitArray.test m.bitmap z = false := by
  induction n generalizing i allocBase with
  | zero => simp [allocLoop] at h
  | succ n ih =>
    rw [allocLoop] at h
    split_ifs at h with hi hfit
    cases hs : scanPages m.bitmap cnt (wrap (i + cnt) - i) i 0 with
    | busy =>
      rw [hs] at h
      exact ih (hnext i allocBase hi hP) h
    | found l =>
      rw [hs] at h
      obtain ⟨rfl, rfl, rfl⟩ : allocBase = r ∧ i = i' ∧ l = j := by simpa using h
      obtain ⟨hil, hln, hc, hclear⟩ := scanPages_found hs
      -- a wrapped sum would leave the inner loop without an iteration
      have hsum : wrap (i + cnt) = i + cnt := by
        unfold wrap at hln ⊢
        omega
      exact ⟨hP, by omega, by omega, by omega, fun z hz hz' => hclear z hz (by omega)⟩
    | ended =>
      have hbad : Unservable m cnt := by
        have hend := scanPages_ended hs
        unfold Unservable
        unfold wrap at hend
        omega
      rw [hs] at h
      simp [allocLoop_unservable hcnt hm hbad] at h

theorem sync_step {base i allocBase : ℕ} (hsync : allocBase ≡ base + i * pageSize [MOD 2 ^ 64]) :
    wrap (allocBase + align * pageSize) ≡ base + wrap (i + align) * pageSize [MOD 2 ^ 64] :=
  calc wrap (allocBase + align * pageSize)
      ≡ allocBase + align * pageSize [MOD 2 ^ 64] := wrap_modEq _
    _ ≡ base + i * pageSize + align * pageSize [MOD 2 ^ 64] := hsync.add_right _
    _ = base + (i + align) * pageSize := by ring
    _ ≡ base + wrap (i + align) * pageSize [MOD 2 ^ 64] :=
      ((wrap_modEq _).symm.mul_right _).add_left _

theorem allocLoop_spec (hcnt : cnt < 2 ^ 64) (hm : m.bitmapEntryCnt < 2 ^ 63)
    {base i allocBase r i' : ℕ} (hsync : allocBase ≡ base + i * pageSize [MOD 2 ^ 64])
    (hlt : allocBase < 2 ^ 64)
    (h : allocLoop m cnt align n i allocBase = some (r, i', j)) :
    (r ≡ base + i' * pageSize [MOD 2 ^ 64] ∧ r < 2 ^ 64) ∧ 0 < cnt ∧
      i' + cnt ≤ m.bitmapEntryCnt ∧ j + 1 = i' + cnt ∧
      ∀ z, i' ≤ z → z < i' + cnt → BitArray.test m.bitmap z = false :=
  allocLoop_induct (P := fun i r => r ≡ base + i * pageSize [MOD 2 ^ 64] ∧ r < 2 ^ 64) hcnt hm
    (fun _ _ _ hP => ⟨sync_step hP.1, wrap_lt _⟩) ⟨hsync, hlt⟩ h

/-- The steps the search can still make: the position goes up by `align`, or down by
`2 ^ 64 - align`, until it is not in the module. -/
def stepsLeft (m : PmmModule) (align i : ℕ) : ℕ :=
  if align < 2 ^ 63 then m.bitmapEntryCnt - i else if i < m.bitmapEntryCnt then i + 1 else 0

theorem allocLoop_bound (halign : 0 < align) (halign' : align < 2 ^ 64)
    (hm : m.bitmapEntryCnt < 2 ^ 63) (extra i allocBase : ℕ) :
    allocLoop m cnt align (m.bitmapEntryCnt + 1 + extra) i allocBase =
      allocLoop m cnt align (m.bitmapEntryCnt + 1) i allocBase := by
  have hdown : ∀ i < m.bitmapEntryCnt,
      stepsLeft m align (wrap (i + align)) < stepsLeft m align i := by
    intro i hi
    unfold stepsLeft wrap
    split_ifs <;> omega
  have key : ∀ n i allocBase, stepsLeft m align i < n →
      allocLoop m cnt align (n + extra) i allocBase = allocLoop m cnt align n i allocBase := by
    intro n
    induction n with
    | zero => omega
    | succ n ih =>
      intro i allocBase h
      rw [add_right_comm, allocLoop, allocLoop]
      split_ifs with hi hfit
      · rfl
      · have hnext := hdown i hi
        rw [ih _ _ (by omega), ih _ _ (by omega)]
      · rfl
  refine key _ i allocBase ?_
  unfold stepsLeft
  split_ifs <;> omega

theorem nextFree_bound (bitmap : List (BitVec 8)) (n z : ℕ) :
    nextFree bitmap n z = 0 ∨ nextFree bitmap n z < z + n := by
  induction n generalizing z with
  | zero => exact .inl rfl
  | succ n ih =>
    rw [nextFree]
    split_ifs
    · have := ih (z + 1)
      omega
    · omega

theorem allocLoop_dvd {base i allocBase r i' : ℕ}
    (hroom : ∀ i < m.bitmapEntryCnt, base + i * pageSize + align * pageSize < 2 ^ 64)
    (hsync : allocBase ≡ base + i * pageSize [MOD 2 ^ 64]) (hlt : allocBase < 2 ^ 64)
    (hcnt : cnt < 2 ^ 64) (hm : m.bitmapEntryCnt < 2 ^ 63)
    (hdvd : align * pageSize ∣ allocBase)
    (h : allocLoop m cnt align n i allocBase = some (r, i', j)) : align * pageSize ∣ r := by
  refine (allocLoop_induct (P := fun i r => (r ≡ base + i * pageSize [MOD 2 ^ 64] ∧ r < 2 ^ 64) ∧
    align * pageSize ∣ r) hcnt hm ?_ ⟨⟨hsync, hlt⟩, hdvd⟩ h).1.2
  rintro i r hi ⟨⟨hsync, hlt⟩, hdvd⟩
  refine ⟨⟨sync_step hsync, wrap_lt _⟩, ?_⟩
  have hi' := hroom i hi
  rw [wrap_of_lt (by rwa [hsync.eq_of_lt_of_lt hlt (by omega)])]
  exact (Nat.dvd_add_right hdvd).mpr dvd_rfl

end Loops

/-! ## The invariant of a module -/

structure Allocation where
  base : ℕ
  cnt : ℕ
  deriving DecidableEq, Repr

/-- The address lies in the pages of the allocation. -/
def Allocation.Covers (a : Allocation) (address : ℕ) : Prop :=
  a.base ≤ address ∧ address < a.base + a.cnt * pageSize

def Allocation.Disjoint (a b : Allocation) : Prop :=
  a.base + a.cnt * pageSize ≤ b.base ∨ b.base + b.cnt * pageSize ≤ a.base

theorem Allocation.Disjoint.symm {a b : Allocation} (h : a.Disjoint b) : b.Disjoint a :=
  Or.symm h

def PmmModule.page (m : PmmModule) (i : ℕ) : ℕ := m.mmapEntry.base + i * pageSize

structure ModuleInv (m : PmmModule) (live : List Allocation) : Prop where
  aligned : pageSize ∣ m.mmapEntry.base
  bounded : m.page m.bitmapEntryCnt ≤ 2 ^ 64
  fits : m.bitmapEntryCnt ≤ 8 * m.bitmap.length
  lastFree : m.lastFree = 0 ∨ m.lastFree < m.bitmapEntryCnt
  inside : ∀ a ∈ live, ∃ i, a.base = m.page i ∧ 0 < a.cnt ∧ i + a.cnt ≤ m.bitmapEntryCnt
  bits : ∀ j, BitArray.test m.bitmap j = true ↔ ∃ a ∈ live, a.Covers (m.page j)
  disjoint : live.Pairwise Allocation.Disjoint

section Invariant

variable {m : PmmModule} {live : List Allocation} {cnt align : ℕ}

theorem ModuleInv.entryCnt_lt (h : ModuleInv m live) : m.bitmapEntryCnt < 2 ^ 63 := by
  have := h.bounded
  simp only [PmmModule.page, pageSize] at this
  omega

def PmmModule.startBit (m : PmmModule) (align : ℕ) : ℕ :=
  wrap (m.startBase align + (2 ^ 64 - m.mmapEntry.base)) / pageSize

/-- The loop of `pmm_module_alloc`, from where it starts. -/
abbrev PmmModule.allocSearch (m : PmmModule) (cnt align : ℕ) : Option (ℕ × ℕ × ℕ) :=
  allocLoop m cnt align (m.bitmapEntryCnt + 1) (m.startBit align) (m.startBase align)

theorem startBase_sync (haligned : pageSize ∣ m.mmapEntry.base)
    (hbase : m.mmapEntry.base ≤ 2 ^ 64) :
    m.startBase align ≡ m.page (m.startBit align) [MOD 2 ^ 64] := by
  have hstart : pageSize ∣ m.startBase align :=
    dvd_alignUp pageSize_dvd_two_pow (dvd_wrap pageSize_dvd_two_pow (dvd_mul_left _ _))
  have hdvd := dvd_wrap pageSize_dvd_two_pow
      (Nat.dvd_add hstart (Nat.dvd_sub pageSize_dvd_two_pow haligned))
  rw [PmmModule.page, PmmModule.startBit, Nat.div_mul_cancel hdvd]
  have hsum : m.mmapEntry.base + (m.startBase align + (2 ^ 64 - m.mmapEntry.base)) =
      m.startBase align + 2 ^ 64 := by omega
  calc m.startBase align
      ≡ m.startBase align + 2 ^ 64 [MOD 2 ^ 64] := (Nat.add_modEq_right).symm
    _ = m.mmapEntry.base + (m.startBase align + (2 ^ 64 - m.mmapEntry.base)) := hsum.symm
    _ ≡ m.mmapEntry.base + wrap (m.startBase align + (2 ^ 64 - m.mmapEntry.base)) [MOD 2 ^ 64] :=
      ((wrap_modEq _).symm).add_left _

theorem startBase_lt : m.startBase align < 2 ^ 64 := wrap_lt _

theorem pmmModuleAlloc_none
    (h : m.allocSearch cnt align = none) : pmmModuleAlloc m cnt align = (allocFailed, m) := by
  unfold PmmModule.allocSearch PmmModule.startBit at h
  simp only [pmmModuleAlloc, h]

theorem pmmModuleAlloc_some {r i j : ℕ}
    (h : m.allocSearch cnt align = some (r, i, j)) :
    pmmModuleAlloc m cnt align = (r, { m with
      bitmap := BitArray.setRun m.bitmap i cnt
      lastFree := nextFree (BitArray.setRun m.bitmap i cnt) (m.bitmapEntryCnt - j) j }) := by
  unfold PmmModule.allocSearch PmmModule.startBit at h
  simp only [pmmModuleAlloc, h]

theorem covers_page_iff {i j n : ℕ} :
    (Allocation.mk (m.page i) n).Covers (m.page j) ↔ i ≤ j ∧ j < i + n := by
  simp only [Allocation.Covers, PmmModule.page, pageSize]
  omega

theorem pmmModuleAlloc_inv (align : ℕ) (hinv : ModuleInv m live) (hcnt : cnt < 2 ^ 64) :
    pmmModuleAlloc m cnt align = (allocFailed, m) ∨
      ∃ i m', pmmModuleAlloc m cnt align = (m.page i, m') ∧ m.page i ≠ allocFailed ∧ 0 < cnt ∧
        i + cnt ≤ m.bitmapEntryCnt ∧ m'.mmapEntry = m.mmapEntry ∧
        m'.bitmapEntryCnt = m.bitmapEntryCnt ∧
        (∀ a ∈ live, (Allocation.mk (m.page i) cnt).Disjoint a) ∧
        ModuleInv m' (⟨m.page i, cnt⟩ :: live) := by
  have hentry := hinv.entryCnt_lt
  have hbound := hinv.bounded
  cases hloop : m.allocSearch cnt align with
  | none => exact .inl (pmmModuleAlloc_none hloop)
  | some result =>
    obtain ⟨r, i, j⟩ := result
    have hbase := le_trans (Nat.le_add_right _ _) hbound
    obtain ⟨⟨hr, hlt⟩, hpos, hfit, hj, hclear⟩ :=
      allocLoop_spec hcnt hentry (startBase_sync hinv.aligned hbase) startBase_lt hloop
    have hpage : r = m.page i := by
      refine Nat.ModEq.eq_of_lt_of_lt hr hlt ?_
      simp only [PmmModule.page, pageSize] at hbound ⊢
      omega
    subst hpage
    have hrun := hfit.trans hinv.fits
    have hdisj : ∀ a ∈ live, (Allocation.mk (m.page i) cnt).Disjoint a := by
      intro a ha
      obtain ⟨i', ha', hpos', -⟩ := hinv.inside a ha
      by_contra hmeet
      -- a common page would be a set bit of a clear run
      have hcommon : ∃ z, i ≤ z ∧ z < i + cnt ∧ a.Covers (m.page z) := by
        refine ⟨max i i', ?_⟩
        simp only [Allocation.Disjoint, Allocation.Covers, PmmModule.page, pageSize, ha'] at hmeet ⊢
        omega
      obtain ⟨z, hz, hz', hcov⟩ := hcommon
      have hset := (hinv.bits z).mpr ⟨a, ha, hcov⟩
      rw [hclear z hz hz'] at hset
      simp at hset
    refine .inr ⟨i, _, pmmModuleAlloc_some hloop, ?_, hpos, hfit, rfl, rfl, hdisj, ?_⟩
    · obtain ⟨q, hq⟩ := hinv.aligned
      simp only [PmmModule.page, pageSize, allocFailed] at hq ⊢
      omega
    · refine
        { aligned := hinv.aligned
          bounded := hinv.bounded
          fits := by simpa using hinv.fits
          lastFree := ?_
          inside := ?_
          bits := ?_
          disjoint := List.pairwise_cons.mpr ⟨hdisj, hinv.disjoint⟩ }
      · have := nextFree_bound (BitArray.setRun m.bitmap i cnt) (m.bitmapEntryCnt - j) j
        simp only
        omega
      · intro a ha
        rcases List.mem_cons.mp ha with rfl | ha
        · exact ⟨i, rfl, hpos, hfit⟩
        · exact hinv.inside a ha
      · intro c
        have hold := hinv.bits c
        simp only [BitArray.test_setRun hrun, Bool.or_eq_true, decide_eq_true_eq, hold,
          List.exists_mem_cons_iff]
        exact or_congr (covers_page_iff (m := m)).symm Iff.rfl

theorem pmmModuleFree_inv (hinv : ModuleInv m live) {a : Allocation} (ha : a ∈ live) :
    ∃ m', pmmModuleFree m (a.base - m.mmapEntry.base) a.cnt = some m' ∧
      m'.mmapEntry = m.mmapEntry ∧ m'.bitmapEntryCnt = m.bitmapEntryCnt ∧
      (∀ j, BitArray.test m'.bitmap j = true ↔
        BitArray.test m.bitmap j = true ∧ ¬ a.Covers (m.page j)) ∧
      ModuleInv m' (live.erase a) := by
  obtain ⟨i, hbase, hpos, hfit⟩ := hinv.inside a ha
  have hentry := hinv.entryCnt_lt
  have hbound := hinv.bounded
  obtain ⟨base, n⟩ := a
  simp only at hbase hpos hfit
  subst hbase
  have hstart : divRoundup (m.page i - m.mmapEntry.base) pageSize = i := by
    have hoff : m.page i - m.mmapEntry.base = i * pageSize := by simp [PmmModule.page]
    rw [hoff]
    refine divRoundup_mul (by decide) ?_
    simp only [PmmModule.page, pageSize] at hbound ⊢
    omega
  have hsteps : wrap (i + n) - i = n := by
    rw [wrap_of_lt (by omega)]
    omega
  obtain ⟨bitmap, hclear⟩ := BitArray.clearRun?_eq_some
    (show i + n ≤ 8 * m.bitmap.length from hfit.trans hinv.fits)
  obtain ⟨hlen, htest⟩ := BitArray.test_clearRun? hclear
  have hbits : ∀ j, BitArray.test bitmap j = true ↔
      BitArray.test m.bitmap j = true ∧ ¬ (Allocation.mk (m.page i) n).Covers (m.page j) := by
    intro j
    rw [htest, covers_page_iff, Bool.and_eq_true, Bool.not_eq_true', decide_eq_false_iff_not]
    exact and_comm
  refine ⟨{ m with bitmap := bitmap }, ?_, rfl, rfl, hbits, ?_⟩
  · simp only [pmmModuleFree, hstart, hsteps, hclear, Option.map_some]
  · -- no other live allocation covers a page of the freed one
    have hsplit := List.perm_cons_erase ha
    have hpair := hsplit.pairwise_iff Allocation.Disjoint.symm |>.mp hinv.disjoint
    obtain ⟨hfirst, hrest⟩ := List.pairwise_cons.mp hpair
    refine
      { aligned := hinv.aligned
        bounded := hinv.bounded
        fits := by simpa [hlen] using hinv.fits
        lastFree := hinv.lastFree
        inside := fun b hb => hinv.inside b (List.mem_of_mem_erase hb)
        bits := ?_
        disjoint := hrest }
    intro j
    simp only [hbits, hinv.bits]
    constructor
    · rintro ⟨⟨b, hb, hcov⟩, hnot⟩
      rcases List.mem_cons.mp (hsplit.mem_iff.mp hb) with rfl | hb'
      · exact absurd hcov hnot
      · exact ⟨b, hb', hcov⟩
    · rintro ⟨b, hb, hcov⟩
      refine ⟨⟨b, List.mem_of_mem_erase hb, hcov⟩, fun hcov' => ?_⟩
      have hdisj := hfirst b hb
      simp only [Allocation.Covers, Allocation.Disjoint, PmmModule.page]
        at hcov hcov' hdisj
      omega

end Invariant

/-! ## Runs of one module -/

section Runs

structure ModuleState where
  mod : PmmModule
  live : List Allocation
  deriving DecidableEq, Repr

inductive ModuleOp
  | alloc (cnt align : ℕ)
  | free (a : Allocation)

def PmmModule.Alignable (m : PmmModule) (align : ℕ) : Prop :=
  1 ≤ align ∧ m.mmapEntry.base + m.mmapEntry.length + align * pageSize < 2 ^ 64
  deriving Decidable

def ModuleState.alloc (s : ModuleState) (cnt align : ℕ) : ModuleState :=
  ⟨(pmmModuleAlloc s.mod cnt align).2,
    if (pmmModuleAlloc s.mod cnt align).1 = allocFailed then s.live
    else ⟨(pmmModuleAlloc s.mod cnt align).1, cnt⟩ :: s.live⟩

theorem ModuleState.alloc_failed {s : ModuleState} {cnt align : ℕ}
    (h : pmmModuleAlloc s.mod cnt align = (allocFailed, s.mod)) : s.alloc cnt align = s := by
  simp only [ModuleState.alloc, h, if_true]

theorem ModuleState.alloc_ok {s : ModuleState} {cnt align r : ℕ} {m' : PmmModule}
    (h : pmmModuleAlloc s.mod cnt align = (r, m')) (hr : r ≠ allocFailed) :
    s.alloc cnt align = ⟨m', ⟨r, cnt⟩ :: s.live⟩ := by
  simp only [ModuleState.alloc, h, if_neg hr]

/-- One call: an allocation of any 64-bit number of pages, or the free of a live allocation. -/
def moduleStep (s : ModuleState) (op : ModuleOp) (s' : ModuleState) : Prop :=
  match op with
  | .alloc cnt align => cnt < 2 ^ 64 ∧ s.mod.Alignable align ∧ s' = s.alloc cnt align
  | .free a =>
    a ∈ s.live ∧ ∃ m', pmmModuleFree s.mod (a.base - s.mod.mmapEntry.base) a.cnt = some m' ∧
      s' = ⟨m', s.live.erase a⟩

def freshModule (e : LimineMemmapEntry) : ModuleState := ⟨pmmInitModule e, []⟩

/-- What an allocation of a run has to satisfy: a result other than `-1` is aligned, its pages
lie inside the module, and they meet no live allocation. -/
def AllocSound (ev : Event ModuleState ModuleOp) : Prop :=
  ∀ cnt align, ev.act = .alloc cnt align →
    (pmmModuleAlloc ev.pre.mod cnt align).1 ≠ allocFailed →
    align * pageSize ∣ (pmmModuleAlloc ev.pre.mod cnt align).1 ∧
      ev.pre.mod.mmapEntry.base ≤ (pmmModuleAlloc ev.pre.mod cnt align).1 ∧
      (pmmModuleAlloc ev.pre.mod cnt align).1 + cnt * pageSize ≤
        ev.pre.mod.page ev.pre.mod.bitmapEntryCnt ∧
      (pageSize ∣ ev.pre.mod.mmapEntry.length →
        (pmmModuleAlloc ev.pre.mod cnt align).1 + cnt * pageSize ≤
          ev.pre.mod.mmapEntry.base + ev.pre.mod.mmapEntry.length) ∧
      ∀ a ∈ ev.pre.live, (Allocation.mk (pmmModuleAlloc ev.pre.mod cnt align).1 cnt).Disjoint a

variable {e : LimineMemmapEntry} {s : ModuleState} {cnt align : ℕ}

theorem entryCnt_spec (h : e.length + pageSize ≤ 2 ^ 64) :
    e.length ≤ (pmmInitModule e).bitmapEntryCnt * pageSize ∧
      (pmmInitModule e).bitmapEntryCnt * pageSize < e.length + pageSize :=
  divRoundup_spec (by decide) (by simp only [pageSize] at h ⊢; omega)

theorem moduleInv_fresh (haligned : pageSize ∣ e.base)
    (hbound : (pmmInitModule e).page (pmmInitModule e).bitmapEntryCnt ≤ 2 ^ 64) :
    ModuleInv (pmmInitModule e) [] := by
  have hsize := divRoundup_spec (a := (pmmInitModule e).bitmapEntryCnt) (b := 8) (by decide)
    (by simp only [PmmModule.page, pageSize] at hbound; omega)
  refine
    { aligned := haligned
      bounded := hbound
      fits := ?_
      lastFree := .inl rfl
      inside := by simp
      bits := by simp [pmmInitModule]
      disjoint := List.Pairwise.nil }
  simp only [pmmInitModule, List.length_replicate] at hsize ⊢
  omega

variable {m : PmmModule}

theorem page_add_align_lt (halign : m.Alignable align)
    (hpages : m.bitmapEntryCnt * pageSize < m.mmapEntry.length + pageSize) :
    ∀ i < m.bitmapEntryCnt, m.mmapEntry.base + i * pageSize + align * pageSize < 2 ^ 64 := by
  obtain ⟨-, hover⟩ := halign
  simp only [pageSize] at hpages hover ⊢
  omega

theorem startBase_dvd {live : List Allocation} (hinv : ModuleInv m live)
    (hpages : m.bitmapEntryCnt * pageSize < m.mmapEntry.length + pageSize)
    (halign : m.Alignable align) : align * pageSize ∣ m.startBase align := by
  have hlast : m.mmapEntry.base + m.lastFree * pageSize + align * pageSize < 2 ^ 64 := by
    rcases hinv.lastFree with h | h
    · rw [h, zero_mul, add_zero]
      exact lt_of_le_of_lt (by omega) halign.2
    · exact page_add_align_lt halign hpages _ h
  clear hpages
  have hpos : 0 < align * pageSize := mul_pos halign.1 (by decide)
  have h₁ : wrap (m.lastFree * pageSize) = m.lastFree * pageSize := wrap_of_lt (by omega)
  have h₂ : wrap (align * pageSize) = align * pageSize := wrap_of_lt (by omega)
  rw [PmmModule.startBase, h₁, h₂, wrap_of_lt (by omega)]
  exact (alignUp_spec hpos (by omega)).1

theorem pmmModuleAlloc_aligned {live : List Allocation} (hinv : ModuleInv m live)
    (hpages : m.bitmapEntryCnt * pageSize < m.mmapEntry.length + pageSize)
    (halign : m.Alignable align) (hcnt : cnt < 2 ^ 64)
    (hr : (pmmModuleAlloc m cnt align).1 ≠ allocFailed) :
    align * pageSize ∣ (pmmModuleAlloc m cnt align).1 := by
  have hbase := le_trans (Nat.le_add_right _ _) hinv.bounded
  cases hloop : m.allocSearch cnt align with
  | none => exact absurd (congrArg Prod.fst (pmmModuleAlloc_none hloop)) hr
  | some result =>
    rw [pmmModuleAlloc_some hloop]
    exact allocLoop_dvd (page_add_align_lt halign hpages)
      (startBase_sync hinv.aligned hbase) startBase_lt hcnt hinv.entryCnt_lt
      (startBase_dvd hinv hpages halign) hloop

def RunInv (e : LimineMemmapEntry) (s : ModuleState) : Prop :=
  s.mod.mmapEntry = e ∧ s.mod.bitmapEntryCnt = (pmmInitModule e).bitmapEntryCnt ∧
    (ModuleInv s.mod s.live ∨ (s = freshModule e ∧ 2 ^ 64 < e.base + e.length + pageSize))

theorem RunInv.of_alignable (h : RunInv e s) (halign : s.mod.Alignable align) :
    ModuleInv s.mod s.live ∧
      s.mod.bitmapEntryCnt * pageSize < s.mod.mmapEntry.length + pageSize := by
  obtain ⟨rfl, hcount, hinv⟩ := h
  obtain ⟨hpos, hover⟩ := halign
  have hroom : s.mod.mmapEntry.base + s.mod.mmapEntry.length + pageSize ≤ 2 ^ 64 := by
    simp only [pageSize] at hover ⊢
    omega
  rcases hinv with hinv | ⟨-, hhigh⟩
  · exact ⟨hinv, hcount ▸ (entryCnt_spec (by omega)).2⟩
  · omega

theorem runInv_step {s' : ModuleState} {op : ModuleOp} (h : RunInv e s)
    (hstep : moduleStep s op s') : RunInv e s' := by
  cases op with
  | alloc cnt align =>
    obtain ⟨hcnt, halign, rfl⟩ := hstep
    obtain ⟨hinv, -⟩ := h.of_alignable halign
    obtain ⟨hentry, hcount, -⟩ := h
    rcases pmmModuleAlloc_inv align hinv hcnt with
      hfail | ⟨i, m', hok, hr, -, -, he, hc, -, hinv'⟩
    · rw [ModuleState.alloc_failed hfail]
      exact ⟨hentry, hcount, .inl hinv⟩
    · rw [ModuleState.alloc_ok hok hr]
      exact ⟨he.trans hentry, hc.trans hcount, .inl hinv'⟩
  | free a =>
    obtain ⟨ha, m', hfree, rfl⟩ := hstep
    obtain ⟨hentry, hcount, hinv | ⟨rfl, -⟩⟩ := h
    · obtain ⟨m'', hfree', he, hc, -, hinv'⟩ := pmmModuleFree_inv hinv ha
      obtain rfl : m'' = m' := Option.some.inj (hfree'.symm.trans hfree)
      exact ⟨he.trans hentry, hc.trans hcount, .inl hinv'⟩
    · simp [freshModule] at ha

theorem allocSound_step {s' : ModuleState} {op : ModuleOp} (h : RunInv e s)
    (hstep : moduleStep s op s') : AllocSound ⟨s, op, s'⟩ := by
  rintro cnt align rfl hr
  obtain ⟨hcnt, halign, -⟩ := hstep
  obtain ⟨hinv, hpages⟩ := h.of_alignable halign
  refine ⟨pmmModuleAlloc_aligned hinv hpages halign hcnt hr, ?_⟩
  rcases pmmModuleAlloc_inv align hinv hcnt with
    hfail | ⟨i, m', hok, -, -, hfit, -, -, hdisj, -⟩
  · exact absurd (congrArg Prod.fst hfail) hr
  · rw [hok]
    refine ⟨Nat.le_add_right _ _, ?_, ?_, hdisj⟩
    · simp only [PmmModule.page, pageSize]
      omega
    · rintro ⟨q, hq⟩
      simp only [PmmModule.page, pageSize] at hpages hq ⊢
      omega

/-- **The module allocator is sound**: in every run of allocations and frees of a fresh module
with a page-aligned base, every allocation is aligned, inside the module and disjoint from the
live ones; in every state reached the set bits of the bitmap are the pages of the live
allocations, and a live allocation can be freed inside the bitmap. -/
theorem pmmModule_sound (haligned : pageSize ∣ e.base) {tr : List (Event ModuleState ModuleOp)}
    (run : Run moduleStep (freshModule e) tr s) :
    (∀ ev ∈ tr, AllocSound ev) ∧
      (∀ j, BitArray.test s.mod.bitmap j = true ↔ ∃ a ∈ s.live, a.Covers (e.base + j * pageSize)) ∧
      ∀ a ∈ s.live, (pmmModuleFree s.mod (a.base - e.base) a.cnt).isSome := by
  have hfresh : RunInv e (freshModule e) := by
    refine ⟨rfl, rfl, ?_⟩
    rcases lt_or_ge (2 ^ 64) (e.base + e.length + pageSize) with hhigh | hroom
    · exact .inr ⟨rfl, hhigh⟩
    · refine .inl (moduleInv_fresh haligned ?_)
      obtain ⟨-, hlt⟩ := entryCnt_spec (e := e) (by omega)
      change e.base + _ * pageSize ≤ _
      omega
  have hinv : RunInv e s :=
    run.invariant (I := fun _ s => RunInv e s) hfresh fun _ _ _ _ h hs => runInv_step h hs
  refine ⟨run.forall_event hfresh (fun _ _ _ h hs => runInv_step h hs)
    fun _ _ _ h hs => allocSound_step h hs, ?_⟩
  obtain ⟨he, -, hinv | ⟨rfl, -⟩⟩ := hinv
  · subst he
    refine ⟨hinv.bits, fun a ha => ?_⟩
    obtain ⟨m', hm', -⟩ := pmmModuleFree_inv hinv ha
    simp [hm']
  · exact ⟨by simp [freshModule, pmmInitModule], by simp [freshModule]⟩

theorem pmmModule_sound_aligned_pair :
    ∃ s tr, Run moduleStep (freshModule ⟨0x101000, 0x4000, 0⟩) tr s ∧
      s.live = [⟨0x102000, 2⟩] ∧ s.mod.bitmap = [0b0110#8] ∧
      ∀ j, BitArray.test s.mod.bitmap j = true ↔
        ∃ a ∈ s.live, a.Covers (0x101000 + j * pageSize) := by
  have halloc : moduleStep (freshModule ⟨0x101000, 0x4000, 0⟩) (.alloc 1 1)
      ⟨⟨⟨0x101000, 0x4000, 0⟩, 1, 4, 1, [0b0001#8]⟩, [⟨0x101000, 1⟩]⟩ :=
    ⟨by decide, by decide, by decide +kernel⟩
  have halloc' : moduleStep ⟨⟨⟨0x101000, 0x4000, 0⟩, 1, 4, 1, [0b0001#8]⟩, [⟨0x101000, 1⟩]⟩
      (.alloc 2 2)
      ⟨⟨⟨0x101000, 0x4000, 0⟩, 1, 4, 3, [0b0111#8]⟩, [⟨0x102000, 2⟩, ⟨0x101000, 1⟩]⟩ :=
    ⟨by decide, by decide, by decide +kernel⟩
  have hfree : moduleStep
      ⟨⟨⟨0x101000, 0x4000, 0⟩, 1, 4, 3, [0b0111#8]⟩, [⟨0x102000, 2⟩, ⟨0x101000, 1⟩]⟩
      (.free ⟨0x101000, 1⟩) ⟨⟨⟨0x101000, 0x4000, 0⟩, 1, 4, 3, [0b0110#8]⟩, [⟨0x102000, 2⟩]⟩ :=
    ⟨by decide, _, by decide +kernel, rfl⟩
  have hrun := ((Run.nil.snoc halloc).snoc halloc').snoc hfree
  exact ⟨_, _, hrun, rfl, rfl, (pmmModule_sound (by decide) hrun).2.1⟩

end Runs

end Pastoral
