import Mathlib.Data.Multiset.MapFold
import Mathlib.Logic.Function.Basic
import Pastoral.Lib.Hash
import Pastoral.Mm.PageTable
import Pastoral.Mm.Region

/-!
# Address spaces, page faults and fork

The address spaces of `vmm.c`: a page table, its pages in a hash table by virtual address, and its
regions.

## Main definitions

* `vmmPfHandler`, `vmmForkPageTable`
* `TableInv`: the invariant of an address space
-/

open BitVec Function List Multiset Probe

namespace Pastoral

abbrev vmmCowFlag : BitVec 64 := BitVec.twoPow 64 9
abbrev vmmFileFlag : BitVec 64 := BitVec.twoPow 64 10
abbrev vmmShareFlag : BitVec 64 := BitVec.twoPow 64 11

def pageOf (address : BitVec 64) : BitVec 64 := address &&& ~~~0xfff#64

def addressBytes (address : BitVec 64) : List (BitVec 8) :=
  (List.range 8).map fun i => (address >>> (8 * i)).setWidth 8

def addressHash (address : BitVec 64) : BitVec 64 := fnvHash (addressBytes address)

structure Page (N : Type) where
  paddr : BitVec 64
  vaddr : BitVec 64
  size : ℕ
  flags : BitVec 64
  node : Option N
  offset : ℤ
  reference : ℕ
  deriving DecidableEq, Repr

structure PageTable (N : Type) extends RegionMap where
  leaves : BitVec 64 → BitVec 64
  pages : HashTable (BitVec 64) (Page N)

def UserAddress (v : BitVec 64) : Prop := v.toNat < 2 ^ 47
  deriving Decidable

/-- The entries that `vmm_default_table` makes in every table, all of them in the upper half. -/
structure KernelMaps where
  leaf : BitVec 64 → BitVec 64
  upper : ∀ v, UserAddress v → leaf v = 0#64

structure Kernel where
  mem : BitVec 64 → ℕ → BitVec 8
  used : List (BitVec 64)
  references : ℕ → ℤ
  nextReference : ℕ
  maps : KernelMaps

variable {N : Type}

def PageTable.lowestLevel (t : PageTable N) (vaddr : BitVec 64) : BitVec 64 :=
  t.leaves (pageOf vaddr)

def PageTable.setEntry (t : PageTable N) (vaddr entry : BitVec 64) : PageTable N :=
  { t with leaves := update t.leaves (pageOf vaddr) entry }

def PageTable.mapPage (t : PageTable N) (vaddr paddr flags : BitVec 64) : PageTable N :=
  t.setEntry vaddr (paddr ||| flags)

def Kernel.pmmAlloc (k : Kernel) (frame : BitVec 64) : Kernel :=
  { k with mem := update k.mem frame fun _ => 0#8, used := frame :: k.used }

def Kernel.copyFrame (k : Kernel) (dst src : BitVec 64) : Kernel :=
  { k with mem := update k.mem dst (k.mem src) }

def Kernel.newReference (k : Kernel) : Kernel :=
  { k with
    references := update k.references k.nextReference 1
    nextReference := k.nextReference + 1 }

def Kernel.addReference (k : Kernel) (reference : ℕ) (n : ℤ) : Kernel :=
  { k with references := update k.references reference (k.references reference + n) }

/-! ## Page faults -/

def anonFlags (prot : BitVec 32) : BitVec 64 :=
  let flags := vmmFlagsP ||| vmmFlagsNX
  let flags := if prot &&& mmapProtWrite ≠ 0#32 then flags ||| vmmFlagsRW else flags
  let flags := if prot &&& mmapProtUser ≠ 0#32 then flags ||| vmmFlagsUS else flags
  let flags := if prot &&& mmapProtExec ≠ 0#32 then flags &&& ~~~vmmFlagsNX else flags
  if prot &&& mmapProtNone ≠ 0#32 then flags &&& ~~~vmmFlagsP else flags

def anonPage (prot : BitVec 32) (vaddr frame : BitVec 64) (reference : ℕ) : Page N where
  paddr := frame
  vaddr := vaddr
  size := pageSize
  flags := anonFlags prot
  node := none
  offset := 0
  reference := reference

/-- The `read` of the files: the node, the offset, and the bytes of the buffer before and after. -/
abbrev AssetRead (N : Type) : Type := N → ℤ → (ℕ → BitVec 8) → Option (ℕ → BitVec 8)

/-- What `vmm_anon_map` does with the region that it finds. -/
def anonMapIn (frame : BitVec 64) (t : PageTable N) (k : Kernel) (address : BitVec 64) :
    Option Region → Bool × PageTable N × Kernel
  | none => (false, t, k)
  | some root =>
    let vaddr := address - (address &&& 0xfff#64)
    let page := anonPage root.prot vaddr frame k.nextReference
    (true,
      { t.mapPage vaddr frame page.flags with
        pages := hashTablePush addressHash t.pages page.vaddr page },
      (k.pmmAlloc frame).newReference)

/-- What `vmm_file_map` does with the region that it finds. -/
def fileMapIn (assetRead : AssetRead N) (t : PageTable N)
    (k : Kernel) (address : BitVec 64) : Option Region → Bool × PageTable N × Kernel
  | none => (false, t, k)
  | some _ =>
    match hashTableSearch addressHash t.pages (pageOf address) with
    | none => (false, t, k)
    | some page =>
      match page.node with
      | none => (false, t, k)
      | some node =>
        match assetRead node page.offset (k.mem page.paddr) with
        | none => (false, t, k)
        | some contents =>
          (true, t.setEntry address (t.lowestLevel address ||| vmmFlagsP),
            { k with mem := update k.mem page.paddr contents })

def vmmAnonMap (frame : BitVec 64) (t : PageTable N) (k : Kernel) (address : BitVec 64) :
    Bool × PageTable N × Kernel :=
  anonMapIn frame t k address (mmapSearchRegion t.mmapRegionRoot address.toNat)

def vmmFileMap (assetRead : AssetRead N) (t : PageTable N)
    (k : Kernel) (address : BitVec 64) : Bool × PageTable N × Kernel :=
  fileMapIn assetRead t k address (mmapSearchRegion t.mmapRegionRoot address.toNat)

def originalFrame (pmllEntry : BitVec 64) : BitVec 64 :=
  pmllEntry &&& ~~~0xfff#64 &&& 0xffffffffff#64

def cowEntry (newFrame pmllEntry : BitVec 64) : BitVec 64 :=
  newFrame ||| ((pmllEntry &&& 0x1ff#64) ||| vmmFlagsRW)

def vmmCowFault (frame : BitVec 64) (t : PageTable N) (k : Kernel) (faultingPage : BitVec 64)
    (page : Page N) : Bool × PageTable N × Kernel :=
  let pmllEntry := t.lowestLevel faultingPage
  let alone : Bool := k.references page.reference ≤ 1
  let newFrame := if alone then originalFrame pmllEntry else frame
  let k := if alone then k else (k.pmmAlloc frame).copyFrame frame (originalFrame pmllEntry)
  let k := k.addReference page.reference (-1)
  let page := { page with paddr := newFrame, reference := k.nextReference }
  (true,
    { t.setEntry faultingPage (cowEntry newFrame pmllEntry) with
      pages := hashTableStore addressHash t.pages faultingPage page },
    k.newReference)

def vmmPfHandler (assetRead : AssetRead N)
    (frame : BitVec 64) (t : PageTable N) (k : Kernel) (errorCode faultingAddress : BitVec 64) :
    Bool × PageTable N × Kernel :=
  let faultingPage := pageOf faultingAddress
  let pmllEntry := t.lowestLevel faultingPage
  if errorCode &&& vmmFlagsP = 0#64 then
    if pmllEntry &&& vmmFileFlag ≠ 0#64 then vmmFileMap assetRead t k faultingAddress
    else vmmAnonMap frame t k faultingAddress
  else if pmllEntry &&& vmmCowFlag ≠ 0#64 then
    match hashTableSearch addressHash t.pages faultingPage with
    | none => (false, t, k)
    | some page => vmmCowFault frame t k faultingPage page
  else (true, t.setEntry faultingPage (pmllEntry ||| vmmFlagsRW), k)

/-! ## Fork -/

def shareCow (x : BitVec 64) : BitVec 64 := (x &&& ~~~vmmFlagsRW) ||| vmmCowFlag

structure Forking (N : Type) where
  leaves : BitVec 64 → BitVec 64
  child : PageTable N
  references : ℕ → ℤ

def forkPage (page : Page N) (f : Forking N) : Page N × Forking N :=
  let shared : Bool := f.leaves (pageOf page.vaddr) &&& vmmShareFlag ≠ 0#64
  let leaves := if shared then f.leaves else
    update f.leaves (pageOf page.vaddr) (shareCow (f.leaves (pageOf page.vaddr)))
  let page := if shared then page else { page with flags := shareCow page.flags }
  (page,
    { leaves := leaves
      references :=
        update f.references page.reference (f.references page.reference + 1)
      child := { f.child.mapPage page.vaddr page.paddr page.flags with
        pages := hashTablePush addressHash f.child.pages page.vaddr page } })

def forkSlots : Slots (BitVec 64) (Page N) → Forking N → Slots (BitVec 64) (Page N) × Forking N
  | [], f => ([], f)
  | none :: slots, f =>
    let (slots', f') := forkSlots slots f
    (none :: slots', f')
  | some (key, page) :: slots, f =>
    let (page', f') := forkPage page f
    let (slots', f'') := forkSlots slots f'
    (some (key, page') :: slots', f'')

abbrev highVma : BitVec 64 := 0xffff800000000000#64

/-- What the boot loader says: the addresses of the kernel, and the ranges of the memory. -/
structure BootInfo where
  kernelVaddr : BitVec 64
  kernelPaddr : BitVec 64
  memmap : List (ℕ × ℕ)
  kernelHigh : kernelVaddr.toNat + 0x400000 ≤ 2 ^ 64 ∧ 2 ^ 63 ≤ kernelVaddr.toNat
  memory : ∀ e ∈ memmap, e.1 + e.2 + 0x200000 ≤ 2 ^ 47

/-- A page of all memory, that is mapped in pages of two megabytes. -/
def BootInfo.InMemory (boot : BootInfo) (phys : ℕ) : Prop :=
  phys < 0x800 * 0x200000 ∨ ∃ e ∈ boot.memmap, e.1 / 0x200000 * 0x200000 ≤ phys ∧
    phys < e.1 / 0x200000 * 0x200000 + (e.2 + 0x1fffff) / 0x200000 * 0x200000
  deriving Decidable

/-- The loops of `vmm_default_table`: what a walk for the page comes to. -/
def BootInfo.leaf (boot : BootInfo) (v : BitVec 64) : BitVec 64 :=
  if boot.InMemory (v - highVma).toNat then
    pageOf (v - highVma) |||
      (vmmFlagsP ||| vmmFlagsRW ||| vmmFlagsPS ||| vmmFlagsG ||| vmmFlagsUS)
  else if (v - boot.kernelVaddr).toNat < 0x400 * 0x1000 then
    (boot.kernelPaddr + pageOf (v - boot.kernelVaddr)) |||
      (vmmFlagsP ||| vmmFlagsRW ||| vmmFlagsG ||| vmmFlagsUS)
  else 0#64

def BootInfo.maps (boot : BootInfo) : KernelMaps where
  leaf := boot.leaf
  upper v hv := by
    have hlt : v.toNat < 2 ^ 47 := hv
    have hhigh := boot.kernelHigh
    have hkernel := boot.kernelVaddr.isLt
    have hphys : (v - highVma).toNat = v.toNat + 2 ^ 47 := by
      rw [toNat_sub]
      simp only [highVma, toNat_ofNat]
      omega
    have himage : ¬ (v - boot.kernelVaddr).toNat < 0x400 * 0x1000 := by
      rw [toNat_sub]
      omega
    rw [BootInfo.leaf, if_neg, if_neg himage]
    rw [hphys]
    rintro (hlow | ⟨e, he, -, hend⟩)
    · omega
    · have hmemory := boot.memory e he
      omega

/-- A kernel at its usual place and no memory beyond the first 4 GiB. -/
def smallBoot : BootInfo := ⟨0xffffffff80000000#64, 0x200000#64, [], by decide, by decide⟩

def vmmDefaultTable (maps : KernelMaps) : PageTable N where
  mmapRegionRoot := .nil
  mmapBumpBase := mmapMapMinAddr
  leaves := maps.leaf
  pages := HashTable.empty

def vmmForkPageTable (t : PageTable N) (k : Kernel) : PageTable N × PageTable N × Kernel :=
  let (slots, f) := forkSlots t.pages.slots ⟨t.leaves, vmmDefaultTable k.maps, k.references⟩
  ({ t with leaves := f.leaves, pages := ⟨slots⟩ },
    { f.child with mmapRegionRoot := t.mmapRegionRoot },
    { k with references := f.references })

/-! ## Bits of entries -/

section EntryBits

variable {e frame flags : BitVec 64}

def PhysFrame (frame : BitVec 64) : Prop := FrameAligned frame ∧ frame.toNat < 2 ^ 52
  deriving Decidable

def addressBits (e : BitVec 64) : BitVec 64 := e &&& ~~~(0xfff#64 ||| vmmFlagsNX)

structure MapFlags (flags : BitVec 64) : Prop where
  bits : FlagBits flags
  present : flags.getLsbD 0 = true
  small : flags.getLsbD 7 = false

theorem addressBits_or (a b : BitVec 64) :
    addressBits (a ||| b) = addressBits a ||| addressBits b := BitVec.and_or_distrib_right

theorem addressBits_eq_zero (h : FlagBits e) : addressBits e = 0#64 := h

theorem getLsbD_addressMask {i : ℕ} (hi : i < 64) :
    (~~~(0xfff#64 ||| vmmFlagsNX)).getLsbD i = decide (12 ≤ i ∧ i < 63) := by
  rw [getLsbD_not, getLsbD_or, getLsbD_offsetMask, getLsbD_twoPow]
  by_cases h12 : i < 12
  · simp [h12]
  · by_cases h63 : i = 63
    · simp [h63]
    · simp [hi, Ne.symm h63, show 12 ≤ i by omega, show i < 63 by omega]

theorem PhysFrame.bit (h : PhysFrame frame) {i : ℕ} (hi : i < 12 ∨ 52 ≤ i) :
    frame.getLsbD i = false := by
  rcases hi with hi | hi
  · exact getLsbD_aligned h.1 hi
  · apply Nat.testBit_lt_two_pow
    exact h.2.trans_le (Nat.pow_le_pow_right (by decide) hi)

theorem PhysFrame.addressBits (h : PhysFrame frame) : addressBits frame = frame := by
  apply eq_of_getLsbD_eq
  intro i hi
  rw [Pastoral.addressBits, getLsbD_and, getLsbD_addressMask hi]
  by_cases hflag : 12 ≤ i ∧ i < 63
  · simp [hflag]
  · rw [h.bit (by omega), Bool.false_and]

theorem addressBits_mapping (hframe : PhysFrame frame) (hflags : FlagBits flags) :
    addressBits (frame ||| flags) = frame := by
  rw [addressBits_or, hframe.addressBits, addressBits_eq_zero hflags, or_zero]

theorem getLsbD_mapping (hframe : PhysFrame frame) {i : ℕ} (hi : i < 12 ∨ 52 ≤ i) :
    (frame ||| flags).getLsbD i = flags.getLsbD i := by
  rw [getLsbD_or, hframe.bit hi, Bool.false_or]

theorem addressBits_shareCow : addressBits (shareCow e) = addressBits e := by
  have hmask : ~~~vmmFlagsRW &&& ~~~(0xfff#64 ||| vmmFlagsNX) = ~~~(0xfff#64 ||| vmmFlagsNX) := by
    decide
  have hcow : addressBits vmmCowFlag = 0#64 := by decide
  rw [shareCow, addressBits_or, hcow, or_zero, addressBits, BitVec.and_assoc]
  rfl

theorem getLsbD_shareCow {i : ℕ} (hi : i < 64) :
    (shareCow e).getLsbD i = if i = 1 then false else if i = 9 then true else e.getLsbD i := by
  rw [shareCow, getLsbD_or, getLsbD_and, getLsbD_not, getLsbD_twoPow,
    getLsbD_twoPow]
  split_ifs with h1 h9
  · simp [h1]
  · simp [h9]
  · simp [hi, Ne.symm h1, Ne.symm h9]

theorem flagBits_shareCow (h : FlagBits flags) : FlagBits (shareCow flags) := by
  have hcow : FlagBits (shareCow flags) ↔ addressBits (shareCow flags) = 0#64 := Iff.rfl
  rw [hcow, addressBits_shareCow]
  exact h

theorem addressBits_setRW : addressBits (e ||| vmmFlagsRW) = addressBits e := by
  have hrw : addressBits vmmFlagsRW = 0#64 := by decide
  rw [addressBits_or, hrw, or_zero]

theorem getLsbD_setRW {i : ℕ} : (e ||| vmmFlagsRW).getLsbD i = (e.getLsbD i || decide (i = 1)) := by
  by_cases hi : i = 1
  · simp [hi]
  · simp [hi, Ne.symm hi]

theorem addressBits_cowEntry (hframe : PhysFrame frame) : addressBits (cowEntry frame e) = frame := by
  have hlow : addressBits (e &&& 0x1ff#64) = 0#64 := by
    rw [addressBits, BitVec.and_assoc,
      show 0x1ff#64 &&& ~~~(0xfff#64 ||| vmmFlagsNX) = 0#64 by decide, and_zero]
  have hrw : addressBits vmmFlagsRW = 0#64 := by decide
  rw [cowEntry, addressBits_or, addressBits_or, hframe.addressBits, hlow, hrw, or_zero,
    or_zero]

theorem getLsbD_cowEntry (hframe : PhysFrame frame) {i : ℕ} (hi : i < 12 ∨ 52 ≤ i) :
    (cowEntry frame e).getLsbD i = (decide (i = 1) || (decide (i < 9) && e.getLsbD i)) := by
  have hmask : (0x1ff#64).getLsbD i = decide (i < 9) := by
    have h : 0x1ff#64 = BitVec.ofNat 64 (2 ^ 9 - 1) := rfl
    rw [h, getLsbD_ofNat, Nat.testBit_two_pow_sub_one]
    by_cases h9 : i < 9
    · simp [show i < 64 by omega]
    · simp [h9]
  rw [cowEntry, getLsbD_or, hframe.bit hi, getLsbD_or,
    getLsbD_and, hmask]
  by_cases h1 : i = 1
  · simp [h1]
  · simp [h1, Ne.symm h1, Bool.and_comm]

theorem originalFrame_eq (h : (addressBits e).toNat < 2 ^ 40) : originalFrame e = addressBits e := by
  have hmask : ~~~0xfff#64 &&& 0xffffffffff#64 =
      ~~~(0xfff#64 ||| vmmFlagsNX) &&& 0xffffffffff#64 := by decide
  have hlow : originalFrame e = addressBits e &&& 0xffffffffff#64 := by
    rw [originalFrame, addressBits, BitVec.and_assoc, hmask, BitVec.and_assoc]
  rw [hlow]
  apply eq_of_toNat_eq
  exact (Nat.and_two_pow_sub_one_eq_mod _ 40).trans (Nat.mod_eq_of_lt h)

theorem physFrame_originalFrame : PhysFrame (originalFrame e) := by
  constructor
  · rw [FrameAligned, originalFrame, BitVec.and_assoc, BitVec.and_assoc,
      show ~~~0xfff#64 &&& (0xffffffffff#64 &&& 0xfff#64) = 0#64 by decide, and_zero]
  · exact Nat.and_le_right.trans_lt (by decide)

theorem anonFlags_spec (prot : BitVec 32) :
    MapFlags (anonFlags prot) ∧ (anonFlags prot).getLsbD 9 = false ∧
      (anonFlags prot).getLsbD 10 = false ∧ (anonFlags prot).getLsbD 11 = false ∧
      (anonFlags prot).getLsbD 1 = decide (prot &&& mmapProtWrite ≠ 0#32) ∧
      (anonFlags prot).getLsbD 63 = decide (prot &&& mmapProtExec = 0#32) := by
  have hnone : prot &&& mmapProtNone = 0#32 := and_zero
  simp only [anonFlags, hnone, ne_eq, not_true_eq_false]
  by_cases hw : prot &&& mmapProtWrite = 0#32 <;> by_cases hu : prot &&& mmapProtUser = 0#32 <;>
    by_cases hx : prot &&& mmapProtExec = 0#32 <;>
    simp only [hw, hu, hx] <;>
    refine ⟨⟨?_, ?_, ?_⟩, ?_⟩ <;> first | decide | (unfold FlagBits; decide)

end EntryBits

/-! ## The last level as a map -/

section Leaves

variable {pmlHigh v w : BitVec 64} {s s' : PagingState} {leaves : BitVec 64 → BitVec 64}

theorem pageOf_eq_sub (v : BitVec 64) : v - (v &&& 0xfff#64) = pageOf v := by
  have hdisjoint : pageOf v &&& (v &&& 0xfff#64) = 0#64 := by
    rw [pageOf, and_comm v 0xfff#64, BitVec.and_assoc, ← and_assoc (~~~0xfff#64),
      show ~~~0xfff#64 &&& 0xfff#64 = 0#64 by decide, zero_and, and_zero]
  have hsplit : pageOf v + (v &&& 0xfff#64) = v := by
    rw [add_eq_or_of_and_eq_zero _ _ hdisjoint, pageOf, ← and_or_distrib_left,
      show ~~~0xfff#64 ||| 0xfff#64 = allOnes 64 by decide, and_allOnes]
  calc v - (v &&& 0xfff#64)
      = pageOf v + (v &&& 0xfff#64) - (v &&& 0xfff#64) := by rw [hsplit]
    _ = pageOf v := BitVec.add_sub_cancel ..

theorem pageOf_toNat (v : BitVec 64) : (pageOf v).toNat = v.toNat - v.toNat % 2 ^ 12 := by
  have hlow : (v &&& 0xfff#64).toNat = v.toNat % 2 ^ 12 := by
    exact Nat.and_two_pow_sub_one_eq_mod _ 12
  have hle : v &&& 0xfff#64 ≤ v := by
    rw [le_def, hlow]
    exact Nat.mod_le _ _
  rw [← pageOf_eq_sub, toNat_sub_of_le hle, hlow]

theorem UserAddress.pageOf {v : BitVec 64} (h : UserAddress v) : UserAddress (pageOf v) := by
  unfold UserAddress at h ⊢
  rw [pageOf_toNat]
  omega

theorem pageOf_pageOf (v : BitVec 64) : pageOf (pageOf v) = pageOf v := by
  rw [pageOf, pageOf, BitVec.and_assoc, BitVec.and_self]

theorem samePage_iff_pageOf (hv : UserAddress v) (hw : UserAddress w) :
    SamePage v w ↔ pageOf v = pageOf w := by
  rw [SamePage, ← toNat_inj, ← toNat_inj, extractLsb_toNat,
    extractLsb_toNat, pageOf_toNat,
    pageOf_toNat]
  unfold UserAddress at hv hw
  omega

structure Represents (pmlHigh : BitVec 64) (s : PagingState) (leaves : BitVec 64 → BitVec 64) :
    Prop where
  paging : Paging s pmlHigh 3
  entry : ∀ w, UserAddress w → (entryAt pmlHigh s w).getD 0#64 = leaves (pageOf w)

theorem Represents.map (h : Represents pmlHigh s leaves) {paddr flags : BitVec 64}
    {pointer : Option (BitVec 64 × ℕ)} (hv : UserAddress v) (hflags : MapFlags flags)
    (hmap : pml4MapPage pmlHigh v paddr flags s = some (pointer, s')) :
    Represents pmlHigh s' (update leaves (pageOf v) (paddr ||| flags)) := by
  have hpresent : flags &&& vmmFlagsP ≠ 0#64 := by
    rw [Ne, and_twoPow_eq_zero_iff flags (by decide), hflags.present]
    decide
  have hsmall := (and_twoPow_eq_zero_iff flags (by decide)).mpr hflags.small
  obtain ⟨hpaging, hentry⟩ := pml4MapPage_entry h.paging hflags.bits hpresent hsmall hmap
  refine ⟨hpaging, fun w hw => ?_⟩
  have hentryw := hentry w
  by_cases hsame : SamePage v w
  · rw [if_pos hsame] at hentryw
    rw [hentryw, (samePage_iff_pageOf hv hw).mp hsame, update_self]
    rfl
  · rw [if_neg hsame] at hentryw
    rw [update_of_ne fun heq => hsame ((samePage_iff_pageOf hv hw).mpr heq.symm), ← h.entry w hw]
    rcases hentryw with heq | ⟨hnone, hzero⟩
    · rw [heq]
    · rw [hnone, hzero]
      rfl

theorem Represents.write (h : Represents pmlHigh s leaves) {pointer : BitVec 64 × ℕ}
    (hv : UserAddress v) (hpointer : pml4LowestLevel pmlHigh v s = some pointer) (e : BitVec 64) :
    Represents pmlHigh (s.store pointer.1 pointer.2 e) (update leaves (pageOf v) e) := by
  obtain ⟨hpaging, hentry⟩ := pml4LowestLevel_store h.paging hpointer e
  refine ⟨hpaging, fun w hw => ?_⟩
  rw [hentry w]
  by_cases hsame : SamePage v w
  · rw [if_pos hsame, (samePage_iff_pageOf hv hw).mp hsame, update_self]
    rfl
  · rw [if_neg hsame, update_of_ne fun heq => hsame ((samePage_iff_pageOf hv hw).mpr heq.symm)]
    exact h.entry w hw

end Leaves

/-! ## The pages of a table and their entries -/

section Table

variable {e v : BitVec 64} {page page' : Page N} {leaves : BitVec 64 → BitVec 64}
  {pages : HashTable (BitVec 64) (Page N)}

def pageSet (pages : HashTable (BitVec 64) (Page N)) : Multiset (Page N) :=
  ↑((entries pages.slots).map Prod.snd)

structure Backs (e : BitVec 64) (page : Page N) : Prop where
  frame : PhysFrame page.paddr
  address : addressBits e = page.paddr
  present : e.getLsbD 0 = true
  noFile : e.getLsbD 10 = false
  noShare : e.getLsbD 11 = false
  cow : e.getLsbD 9 = true → e.getLsbD 1 = false
  nx : e.getLsbD 63 = true → page.flags.getLsbD 63 = true
  flags : MapFlags page.flags
  flagsNoFile : page.flags.getLsbD 10 = false
  flagsNoShare : page.flags.getLsbD 11 = false

/-- The pages of a table are pages of the lower half, and the entries of the others are zero there. -/
structure TableInv (leaves : BitVec 64 → BitVec 64) (pages : HashTable (BitVec 64) (Page N)) :
    Prop where
  good : pages.Good addressHash
  keyed : ∀ {v page}, (v, page) ∈ entries pages.slots →
    page.vaddr = v ∧ pageOf v = v ∧ UserAddress v
  backs : ∀ {v page}, (v, page) ∈ entries pages.slots → Backs (leaves v) page
  absent : ∀ {v}, UserAddress v → v ∉ keys pages.slots → leaves v = 0#64

theorem tableInv_empty (hzero : ∀ v, UserAddress v → leaves v = 0#64) :
    TableInv leaves (HashTable.empty : HashTable (BitVec 64) (Page N)) where
  good := good_empty
  keyed h := absurd h (not_mem_nil)
  backs h := absurd h (not_mem_nil)
  absent hv _ := hzero _ hv

theorem TableInv.mem_pageSet (h : TableInv leaves pages) :
    page ∈ pageSet pages ↔ (page.vaddr, page) ∈ entries pages.slots := by
  rw [pageSet, mem_coe, List.mem_map]
  constructor
  · rintro ⟨⟨v, p⟩, hmem, rfl⟩
    rwa [(h.keyed hmem).1]
  · exact fun hmem => ⟨_, hmem, rfl⟩

theorem mem_pageSet_of_entry (h : (v, page) ∈ entries pages.slots) : page ∈ pageSet pages := by
  rw [pageSet, mem_coe, List.mem_map]
  exact ⟨_, h, rfl⟩

theorem TableInv.exists_page (h : TableInv leaves pages) (huser : UserAddress v)
    (hv : (leaves v).getLsbD 0 = true) : ∃ page, (v, page) ∈ entries pages.slots := by
  by_contra hno
  have hzero := h.absent huser fun hk => hno (mem_keys_iff.mp hk)
  rw [hzero] at hv
  simp at hv

theorem TableInv.notMem_keys (h : TableInv leaves pages) (hv : (leaves v).getLsbD 0 = false) :
    v ∉ keys pages.slots := by
  intro hk
  obtain ⟨page, hpage⟩ := mem_keys_iff.mp hk
  rw [(h.backs hpage).present] at hv
  exact Bool.noConfusion hv

theorem TableInv.insert (h : TableInv leaves pages) (hv : v ∉ keys pages.slots)
    (hpage : page.vaddr = v) (haligned : pageOf v = v ∧ UserAddress v) (hbacks : Backs e page) :
    TableInv (update leaves v e) (hashTablePush addressHash pages v page) ∧
      pageSet (hashTablePush addressHash pages v page) = page ::ₘ pageSet pages := by
  obtain ⟨hgood, hperm⟩ := hashTablePush_fresh (d := page) h.good hv
  refine ⟨⟨hgood, fun {w p} hw => ?_, fun {w p} hw => ?_, fun {w} huser hw => ?_⟩, ?_⟩
  · rcases mem_cons.mp (hperm.mem_iff.mp hw) with heq | hw
    · cases heq
      exact ⟨hpage, haligned⟩
    · exact h.keyed hw
  · rcases mem_cons.mp (hperm.mem_iff.mp hw) with heq | hw
    · cases heq
      rwa [update_self]
    · -- an old page has another address
      have hne : w ≠ v := fun heq => hv (heq ▸ mem_keys_iff.mpr ⟨p, hw⟩)
      rw [update_of_ne hne]
      exact h.backs hw
  · obtain ⟨hne, hold⟩ := not_or.mp (mt (mem_keys_hashTablePush h.good hv).mpr hw)
    rw [update_of_ne hne]
    exact h.absent huser hold
  · have hpages := hperm.map Prod.snd
    rw [pageSet, coe_eq_coe.mpr hpages]
    rfl

theorem TableInv.replace (h : TableInv leaves pages) (hv : (v, page) ∈ entries pages.slots)
    (hpage : page'.vaddr = v) (hbacks : Backs e page') :
    TableInv (update leaves v e) (hashTableStore addressHash pages v page') ∧
      ∃ others, pageSet pages = page ::ₘ others ∧
        pageSet (hashTableStore addressHash pages v page') = page' ::ₘ others := by
  obtain ⟨hgood, rest, hold, hnew⟩ := hashTableStore_good (d := page') h.good hv
  have hnodup := (hold.map Prod.fst).nodup_iff.mp h.good.keys_nodup
  have hrest : ∀ {w p}, (w, p) ∈ rest → w ≠ v := by
    rintro w p hmem rfl
    exact (nodup_cons.mp hnodup).1 (mem_map.mpr ⟨_, hmem, rfl⟩)
  refine ⟨⟨hgood, fun {w p} hw => ?_, fun {w p} hw => ?_, fun {w} huser hw => ?_⟩, ?_⟩
  · rcases mem_cons.mp (hnew.mem_iff.mp hw) with heq | hw
    · cases heq
      exact ⟨hpage, (h.keyed hv).2⟩
    · exact h.keyed (hold.mem_iff.mpr (mem_cons_of_mem _ hw))
  · rcases mem_cons.mp (hnew.mem_iff.mp hw) with heq | hw
    · cases heq
      rwa [update_self]
    · rw [update_of_ne (hrest hw)]
      exact h.backs (hold.mem_iff.mpr (mem_cons_of_mem _ hw))
  · have hkeys : w ∈ keys pages.slots ↔ w ∈ keys (hashTableStore addressHash pages v page').slots :=
      ((hold.map Prod.fst).trans (hnew.map Prod.fst).symm).mem_iff
    have hne : w ≠ v := by
      rintro rfl
      exact hw (hkeys.mp (mem_keys_iff.mpr ⟨page, hv⟩))
    rw [update_of_ne hne]
    exact h.absent huser (mt hkeys.mp hw)
  · refine ⟨↑(rest.map Prod.snd), ?_, ?_⟩
    · rw [pageSet, coe_eq_coe.mpr (hold.map Prod.snd)]
      rfl
    · rw [pageSet, coe_eq_coe.mpr (hnew.map Prod.snd)]
      rfl

theorem TableInv.setEntry (h : TableInv leaves pages) (hv : (v, page) ∈ entries pages.slots)
    (hbacks : Backs e page) : TableInv (update leaves v e) pages := by
  refine ⟨h.good, h.keyed, fun {w p} hw => ?_, fun {w} huser hw => ?_⟩
  · by_cases hwv : w = v
    · subst hwv
      rw [h.good.entry_unique hw hv, update_self]
      exact hbacks
    · rw [update_of_ne hwv]
      exact h.backs hw
  · have hne : w ≠ v := by
      rintro rfl
      exact hw (mem_keys_iff.mpr ⟨page, hv⟩)
    rw [update_of_ne hne]
    exact h.absent huser hw

theorem backs_anon {frame : BitVec 64} (hframe : PhysFrame frame) (prot : BitVec 32)
    (v : BitVec 64) (reference : ℕ) :
    Backs (frame ||| anonFlags prot) (anonPage prot v frame reference : Page N) := by
  obtain ⟨hflags, hcow, hfile, hshare, -, -⟩ := anonFlags_spec prot
  constructor
  · exact hframe
  · exact addressBits_mapping hframe hflags.bits
  · rw [getLsbD_mapping hframe (by decide)]
    exact hflags.present
  · rw [getLsbD_mapping hframe (by decide)]
    exact hfile
  · rw [getLsbD_mapping hframe (by decide)]
    exact hshare
  · rw [getLsbD_mapping hframe (by decide), hcow]
    exact fun h => Bool.noConfusion h
  · rw [getLsbD_mapping hframe (by decide)]
    exact id
  · exact hflags
  · exact hfile
  · exact hshare

def Page.move (page : Page N) (frame : BitVec 64) (reference : ℕ) : Page N :=
  { page with paddr := frame, reference := reference }

theorem Backs.cowFault (h : Backs e page) {frame : BitVec 64} (hframe : PhysFrame frame)
    (reference : ℕ) : Backs (cowEntry frame e) (page.move frame reference) where
  frame := hframe
  address := addressBits_cowEntry hframe
  present := by
    rw [getLsbD_cowEntry hframe (by decide), h.present]
    rfl
  noFile := getLsbD_cowEntry hframe (by decide)
  noShare := getLsbD_cowEntry hframe (by decide)
  cow := by
    rw [getLsbD_cowEntry hframe (by decide)]
    exact fun h => Bool.noConfusion h
  nx := by
    rw [getLsbD_cowEntry hframe (by decide)]
    exact fun h => Bool.noConfusion h
  flags := h.flags
  flagsNoFile := h.flagsNoFile
  flagsNoShare := h.flagsNoShare

theorem Backs.setRW (h : Backs e page) (hcow : e.getLsbD 9 = false) :
    Backs (e ||| vmmFlagsRW) page := by
  have hother : ∀ {i}, i ≠ 1 → (e ||| vmmFlagsRW).getLsbD i = e.getLsbD i := by
    intro i hi
    rw [getLsbD_setRW, decide_eq_false hi, Bool.or_false]
  constructor
  · exact h.frame
  · exact addressBits_setRW.trans h.address
  · exact (hother (by decide)).trans h.present
  · exact (hother (by decide)).trans h.noFile
  · exact (hother (by decide)).trans h.noShare
  · rw [hother (by decide), hcow]
    exact fun h => Bool.noConfusion h
  · rw [hother (by decide)]
    exact h.nx
  · exact h.flags
  · exact h.flagsNoFile
  · exact h.flagsNoShare

def Page.share (page : Page N) : Page N := { page with flags := shareCow page.flags }

theorem MapFlags.shareCow {flags : BitVec 64} (h : MapFlags flags) : MapFlags (shareCow flags) where
  bits := flagBits_shareCow h.bits
  present := (getLsbD_shareCow (by decide)).trans h.present
  small := (getLsbD_shareCow (by decide)).trans h.small

theorem Backs.share (h : Backs e page) : Backs (shareCow e) page.share where
  frame := h.frame
  address := addressBits_shareCow.trans h.address
  present := (getLsbD_shareCow (by decide)).trans h.present
  noFile := (getLsbD_shareCow (by decide)).trans h.noFile
  noShare := (getLsbD_shareCow (by decide)).trans h.noShare
  cow := fun _ => getLsbD_shareCow (by decide)
  nx := by
    rw [getLsbD_shareCow (by decide)]
    exact fun hnx => (getLsbD_shareCow (by decide)).trans (h.nx hnx)
  flags := h.flags.shareCow
  flagsNoFile := (getLsbD_shareCow (by decide)).trans h.flagsNoFile
  flagsNoShare := (getLsbD_shareCow (by decide)).trans h.flagsNoShare

theorem Backs.forked (h : Backs e page) : Backs (page.paddr ||| shareCow page.flags) page.share := by
  have hbit : ∀ {i}, i < 12 ∨ 52 ≤ i → (page.paddr ||| Pastoral.shareCow page.flags).getLsbD i =
        (Pastoral.shareCow page.flags).getLsbD i := getLsbD_mapping h.frame
  constructor
  · exact h.frame
  · exact addressBits_mapping h.frame (flagBits_shareCow h.flags.bits)
  · exact (hbit (by decide)).trans h.flags.shareCow.present
  · exact (hbit (by decide)).trans ((getLsbD_shareCow (by decide)).trans h.flagsNoFile)
  · exact (hbit (by decide)).trans ((getLsbD_shareCow (by decide)).trans h.flagsNoShare)
  · exact fun _ => (hbit (by decide)).trans (getLsbD_shareCow (by decide))
  · rw [hbit (by decide)]
    exact id
  · exact h.flags.shareCow
  · exact (getLsbD_shareCow (by decide)).trans h.flagsNoFile
  · exact (getLsbD_shareCow (by decide)).trans h.flagsNoShare

end Table

/-! ## What a page fault does -/

section Fault

variable {t : PageTable N} {errorCode address : BitVec 64}

def ErrorCodeOf (t : PageTable N) (errorCode address : BitVec 64) : Prop :=
  errorCode &&& vmmFlagsP = 0#64 ↔ (t.leaves (pageOf address)).getLsbD 0 = false

instance (t : PageTable N) (errorCode address : BitVec 64) :
    Decidable (ErrorCodeOf t errorCode address) := inferInstanceAs (Decidable (_ ↔ _))

theorem lowestLevel_pageOf : t.lowestLevel (pageOf address) = t.leaves (pageOf address) := by
  rw [PageTable.lowestLevel, pageOf_pageOf]

def anonMapped (frame : BitVec 64) (t : PageTable N) (k : Kernel) (v : BitVec 64)
    (root : Region) : PageTable N × Kernel :=
  ({ t with
      leaves := update t.leaves v (frame ||| anonFlags root.prot)
      pages := hashTablePush addressHash t.pages v (anonPage root.prot v frame k.nextReference) },
    (k.pmmAlloc frame).newReference)

def cowTable (t : PageTable N) (v : BitVec 64) (page : Page N) (newFrame : BitVec 64)
    (reference : ℕ) : PageTable N :=
  { t with
    leaves := update t.leaves v (cowEntry newFrame (t.leaves v))
    pages := hashTableStore addressHash t.pages v (page.move newFrame reference) }

theorem cowTable_leaves (t : PageTable N) (v : BitVec 64) (page : Page N) (newFrame : BitVec 64)
    (reference : ℕ) : (cowTable t v page newFrame reference).leaves =
      update t.leaves v (cowEntry newFrame (t.leaves v)) := rfl

theorem vmmCowFault_alone {v : BitVec 64} {page : Page N} {k : Kernel} (frame : BitVec 64)
    (hv : pageOf v = v) (halone : k.references page.reference ≤ 1) :
    vmmCowFault frame t k v page =
      (true, cowTable t v page (originalFrame (t.leaves v)) k.nextReference,
        (k.addReference page.reference (-1)).newReference) := by
  simp only [vmmCowFault, PageTable.lowestLevel, PageTable.setEntry, hv, halone, decide_true]
  rfl

theorem vmmCowFault_copy {v : BitVec 64} {page : Page N} {k : Kernel} (frame : BitVec 64)
    (hv : pageOf v = v) (hshared : ¬ k.references page.reference ≤ 1) :
    vmmCowFault frame t k v page = (true, cowTable t v page frame k.nextReference,
        (((k.pmmAlloc frame).copyFrame frame (originalFrame (t.leaves v))).addReference
          page.reference (-1)).newReference) := by
  simp only [vmmCowFault, PageTable.lowestLevel, PageTable.setEntry, hv, hshared]
  rfl

theorem vmmPfHandler_cases
    (assetRead : AssetRead N) (frame : BitVec 64) (k : Kernel)
    (h : TableInv t.leaves t.pages) (huser : UserAddress (pageOf address))
    (hcode : ErrorCodeOf t errorCode address) :
    (pageOf address ∉ keys t.pages.slots ∧ mmapSearchRegion t.mmapRegionRoot address.toNat = none ∧
        vmmPfHandler assetRead frame t k errorCode address = (false, t, k)) ∨
      (∃ root, pageOf address ∉ keys t.pages.slots ∧
        mmapSearchRegion t.mmapRegionRoot address.toNat = some root ∧
        vmmPfHandler assetRead frame t k errorCode address =
          (true, anonMapped frame t k (pageOf address) root)) ∨
      (∃ page, (pageOf address, page) ∈ entries t.pages.slots ∧
        (t.leaves (pageOf address)).getLsbD 9 = true ∧
        vmmPfHandler assetRead frame t k errorCode address =
          vmmCowFault frame t k (pageOf address) page) ∨
      ∃ page, (pageOf address, page) ∈ entries t.pages.slots ∧
        (t.leaves (pageOf address)).getLsbD 9 = false ∧
        vmmPfHandler assetRead frame t k errorCode address =
          (true, t.setEntry (pageOf address) (t.leaves (pageOf address) ||| vmmFlagsRW), k) := by
  rw [vmmPfHandler]
  simp only [lowestLevel_pageOf]
  by_cases hpresent : (t.leaves (pageOf address)).getLsbD 0 = false
  · -- not present: there is no page, so the entry is zero and the fault is anonymous
    have hkeys := h.notMem_keys hpresent
    have hzero := h.absent huser hkeys
    rw [if_pos (hcode.mpr hpresent), hzero,
      vmmAnonMap]
    cases hsearch : mmapSearchRegion t.mmapRegionRoot address.toNat with
    | none => exact .inl ⟨hkeys, rfl, rfl⟩
    | some root =>
      refine .inr (.inl ⟨root, hkeys, rfl, ?_⟩)
      simp only [anonMapIn, pageOf_eq_sub, PageTable.mapPage, PageTable.setEntry, pageOf_pageOf]
      rfl
  · -- present: the entry is the entry of a page
    obtain ⟨page, hpage⟩ := h.exists_page huser (Bool.not_eq_false _ ▸ hpresent)
    have hflag := and_twoPow_eq_zero_iff (t.leaves (pageOf address)) (k := 9) (by decide)
    rw [if_neg (mt hcode.mp hpresent)]
    by_cases hcow : (t.leaves (pageOf address)).getLsbD 9 = false
    · rw [if_neg (not_not.mpr (hflag.mpr hcow))]
      exact .inr (.inr (.inr ⟨page, hpage, hcow, rfl⟩))
    · rw [if_pos (mt hflag.mp hcow), (hashTableSearch_eq_some_iff h.good).mpr hpage]
      exact .inr (.inr (.inl ⟨page, hpage, Bool.not_eq_false _ ▸ hcow, rfl⟩))

end Fault

/-! ## What a fork does -/

section Fork

variable {t : PageTable N} {k : Kernel}

def references (pages : Multiset (Page N)) : Multiset ℕ := pages.map Page.reference

def shareSlots (slots : Slots (BitVec 64) (Page N)) : Slots (BitVec 64) (Page N) :=
  slots.map fun slot => slot.map fun e => (e.1, e.2.share)

@[simp] theorem entries_shareSlots (slots : Slots (BitVec 64) (Page N)) :
    entries (shareSlots slots) = (entries slots).map fun e => (e.1, e.2.share) := by
  induction slots with
  | nil => rfl
  | cons slot slots ih =>
    cases slot with
    | none => exact ih
    | some e => exact congrArg (List.cons (e.1, e.2.share)) ih

@[simp] theorem keys_shareSlots (slots : Slots (BitVec 64) (Page N)) :
    keys (shareSlots slots) = keys slots := by
  simp [Probe.keys]

theorem good_shareSlots {pages : HashTable (BitVec 64) (Page N)} (h : pages.Good addressHash) :
    (HashTable.mk (shareSlots pages.slots)).Good addressHash := by
  have hslot : ∀ {j : ℕ} {v : BitVec 64} {page : Page N},
      (shareSlots pages.slots)[j]? = some (some (v, page)) →
        ∃ page₀, pages.slots[j]? = some (some (v, page₀)) := by
    intro j v page hj
    simp only [shareSlots, getElem?_map, Option.map_eq_some_iff] at hj
    obtain ⟨slot, hslot, ⟨w, page₀⟩, rfl, heq⟩ := hj
    cases heq
    exact ⟨page₀, hslot⟩
  have hcapacity : (HashTable.mk (shareSlots pages.slots)).capacity = pages.capacity := by
    simp [HashTable.capacity, shareSlots]
  rw [HashTable.Good, hcapacity]
  constructor
  · intro j v page hj
    obtain ⟨_, hold⟩ := hslot hj
    exact h.placed hold
  · intro i j v page page' hi hj
    obtain ⟨_, hi'⟩ := hslot hi
    obtain ⟨_, hj'⟩ := hslot hj
    exact h.unique hi' hj'

def Forking.shared (f : Forking N) (page : Page N) : Forking N where
  leaves := update f.leaves page.vaddr (shareCow (f.leaves page.vaddr))
  references := update f.references page.reference (f.references page.reference + 1)
  child := { f.child with
    leaves := update f.child.leaves page.vaddr (page.paddr ||| shareCow page.flags)
    pages := hashTablePush addressHash f.child.pages page.vaddr page.share }

theorem Forking.shared_leaves (f : Forking N) (page : Page N) : (f.shared page).leaves =
      update f.leaves page.vaddr (shareCow (f.leaves page.vaddr)) := rfl

theorem Forking.shared_references (f : Forking N) (page : Page N) : (f.shared page).references =
      update f.references page.reference (f.references page.reference + 1) := rfl

theorem Forking.shared_child_leaves (f : Forking N) (page : Page N) : (f.shared page).child.leaves =
      update f.child.leaves page.vaddr (page.paddr ||| shareCow page.flags) := rfl

theorem Forking.shared_child_pages (f : Forking N) (page : Page N) : (f.shared page).child.pages =
      hashTablePush addressHash f.child.pages page.vaddr page.share := rfl

theorem forkPage_eq {page : Page N} {f : Forking N} (haligned : pageOf page.vaddr = page.vaddr)
    (hshare : (f.leaves page.vaddr).getLsbD 11 = false) :
    forkPage page f = (page.share, f.shared page) := by
  have hflag := (and_twoPow_eq_zero_iff (f.leaves page.vaddr) (k := 11) (by decide)).mpr hshare
  simp only [forkPage, haligned, hflag, ne_eq, not_true_eq_false, decide_false,
    Bool.false_eq_true, if_false, PageTable.mapPage, PageTable.setEntry]
  rfl

structure ForkInv (slots : Slots (BitVec 64) (Page N)) (f : Forking N) : Prop where
  nodup : (keys slots).Nodup
  keyed : ∀ {v page}, (v, page) ∈ entries slots → page.vaddr = v ∧ pageOf v = v ∧ UserAddress v
  backs : ∀ {v page}, (v, page) ∈ entries slots → Backs (f.leaves v) page
  child : TableInv f.child.leaves f.child.pages
  fresh : ∀ {v}, v ∈ keys slots → v ∉ keys f.child.pages.slots

structure ForkDone (slots : Slots (BitVec 64) (Page N)) (f f' : Forking N) : Prop where
  leaves : ∀ v, f'.leaves v = if v ∈ keys slots then shareCow (f.leaves v) else f.leaves v
  references : ∀ r, f'.references r =
    f.references r + ((entries slots).map fun e => e.2.reference).count r
  child : TableInv f'.child.leaves f'.child.pages
  pages : pageSet f'.child.pages =
    ↑((entries slots).map fun e => e.2.share) + pageSet f.child.pages
  mapped : ∀ {v page}, (v, page) ∈ entries slots →
    f'.child.leaves v = page.paddr ||| shareCow page.flags
  other : ∀ {v}, v ∉ keys slots → f'.child.leaves v = f.child.leaves v
  regions : f'.child.toRegionMap = f.child.toRegionMap

theorem forkSlots_spec (slots : Slots (BitVec 64) (Page N)) : ∀ f : Forking N, ForkInv slots f →
      (forkSlots slots f).1 = shareSlots slots ∧ ForkDone slots f (forkSlots slots f).2 := by
  induction slots with
  | nil =>
    intro f hf
    exact ⟨rfl, fun v => by simp [forkSlots, Probe.keys], fun r => by simp [forkSlots], hf.child,
      by simp [forkSlots], fun h => absurd h not_mem_nil, fun _ => rfl, rfl⟩
  | cons slot slots ih =>
    intro f hf
    rcases slot with - | ⟨v, page⟩
    · -- an empty slot
      obtain ⟨hslots, hdone⟩ := ih f ⟨hf.nodup, hf.keyed, hf.backs, hf.child, hf.fresh⟩
      refine ⟨congrArg (List.cons none) hslots, hdone.leaves, hdone.references, hdone.child,
        hdone.pages, hdone.mapped, hdone.other, hdone.regions⟩
    · have hmem : (v, page) ∈ entries (some (v, page) :: slots) := by simp
      obtain ⟨rfl, haligned⟩ := hf.keyed hmem
      have hbacks := hf.backs hmem
      have hnodup := nodup_cons.mp hf.nodup
      have hfresh := hf.fresh (v := page.vaddr) (by simp [Probe.keys])
      obtain ⟨hchild, hpages⟩ := hf.child.insert hfresh (show page.share.vaddr = page.vaddr from rfl)
        haligned hbacks.forked
      have hne : ∀ {w}, w ∈ keys slots → w ≠ page.vaddr := fun hw heq => hnodup.1 (heq ▸ hw)
      have hnext : ForkInv slots (f.shared page) := by
        refine ⟨hnodup.2, fun hw => hf.keyed (mem_cons_of_mem _ hw), fun {w p} hw => ?_,
          hchild, fun {w} hw => ?_⟩
        · rw [Forking.shared_leaves, update_of_ne (hne (mem_keys_iff.mpr ⟨p, hw⟩))]
          exact hf.backs (mem_cons_of_mem _ hw)
        · rw [Forking.shared_child_pages, mem_keys_hashTablePush hf.child.good hfresh]
          exact not_or.mpr ⟨hne hw, hf.fresh (mem_cons_of_mem _ hw)⟩
      obtain ⟨hslots, hdone⟩ := ih (f.shared page) hnext
      rw [forkSlots, forkPage_eq haligned.1 hbacks.noShare]
      refine ⟨congrArg (List.cons (some (page.vaddr, page.share))) hslots, fun w => ?_,
        fun r => ?_, hdone.child, ?_, fun {w p} hw => ?_, fun {w} hw => ?_, hdone.regions⟩
      · refine (hdone.leaves w).trans ?_
        rw [Forking.shared_leaves]
        have hkeys : w ∈ keys (some (page.vaddr, page) :: slots) ↔
            w = page.vaddr ∨ w ∈ keys slots := mem_cons
        by_cases hw : w = page.vaddr
        · rw [if_neg (hw ▸ hnodup.1), if_pos (hkeys.mpr (.inl hw)), hw, update_self]
        · rw [update_of_ne hw]
          exact if_congr (by simp [hkeys, hw]) rfl rfl
      · refine (hdone.references r).trans ?_
        rw [Forking.shared_references, entries_some_cons, List.map_cons]
        by_cases hr : r = page.reference
        · rw [hr, update_self, List.count_cons_self]
          omega
        · rw [update_of_ne hr, List.count_cons_of_ne (Ne.symm hr)]
      · refine hdone.pages.trans ?_
        rw [Forking.shared_child_pages, hpages, entries_some_cons, List.map_cons,
          ← cons_coe, add_cons, cons_add]
      · rcases mem_cons.mp hw with heq | hw
        · cases heq
          refine (hdone.other hnodup.1).trans ?_
          rw [Forking.shared_child_leaves, update_self]
        · exact hdone.mapped hw
      · obtain ⟨hwv, hw⟩ := not_or.mp (mt List.mem_cons.mpr hw)
        refine (hdone.other hw).trans ?_
        rw [Forking.shared_child_leaves, update_of_ne hwv]

structure Forked (t : PageTable N) (k : Kernel) (parent child : PageTable N) (k' : Kernel) :
    Prop where
  parentInv : TableInv parent.leaves parent.pages
  childInv : TableInv child.leaves child.pages
  parentPages : pageSet parent.pages = (pageSet t.pages).map Page.share
  childPages : pageSet child.pages = (pageSet t.pages).map Page.share
  parentEntry : ∀ {v page}, (v, page) ∈ entries t.pages.slots →
    parent.leaves v = shareCow (t.leaves v)
  childEntry : ∀ {v page}, (v, page) ∈ entries t.pages.slots →
    child.leaves v = page.paddr ||| shareCow page.flags
  absent : ∀ {v}, UserAddress v → v ∉ keys t.pages.slots →
    parent.leaves v = 0#64 ∧ child.leaves v = 0#64
  parentRegions : parent.mmapRegionRoot = t.mmapRegionRoot
  childRegions : child.mmapRegionRoot = t.mmapRegionRoot
  mem : k'.mem = k.mem
  used : k'.used = k.used
  nextReference : k'.nextReference = k.nextReference
  references : k'.references = fun r => k.references r + (references (pageSet t.pages)).count r

theorem Forked.page {parent child : PageTable N} {k' : Kernel} (h : Forked t k parent child k')
    {v : BitVec 64} (huser : UserAddress v)
    (hv : (parent.leaves v).getLsbD 0 = true ∨ (child.leaves v).getLsbD 0 = true) :
    ∃ page, (v, page) ∈ entries t.pages.slots := by
  by_contra hno
  obtain ⟨hparent, hchild⟩ := h.absent huser fun hk => hno (mem_keys_iff.mp hk)
  rw [hparent, hchild] at hv
  simp at hv

theorem Forked.cow {parent child : PageTable N} {k' : Kernel} (h : Forked t k parent child k')
    (hinv : TableInv t.leaves t.pages) {v : BitVec 64} (huser : UserAddress v) :
    ((parent.leaves v).getLsbD 0 = true → (parent.leaves v).getLsbD 9 = true) ∧
      ((child.leaves v).getLsbD 0 = true → (child.leaves v).getLsbD 9 = true) := by
  constructor
  · intro hv
    obtain ⟨page, hpage⟩ := h.page huser (.inl hv)
    rw [h.parentEntry hpage]
    exact getLsbD_shareCow (by decide)
  · intro hv
    obtain ⟨page, hpage⟩ := h.page huser (.inr hv)
    rw [h.childEntry hpage, getLsbD_mapping (hinv.backs hpage).frame (by decide)]
    exact getLsbD_shareCow (by decide)

theorem vmmForkPageTable_spec (h : TableInv t.leaves t.pages) :
    Forked t k (vmmForkPageTable t k).1 (vmmForkPageTable t k).2.1 (vmmForkPageTable t k).2.2 := by
  have hstart : ForkInv t.pages.slots ⟨t.leaves, vmmDefaultTable k.maps, k.references⟩ :=
    ⟨h.good.keys_nodup, h.keyed, h.backs, tableInv_empty k.maps.upper, fun _ => not_mem_nil⟩
  obtain ⟨hslots, hdone⟩ := forkSlots_spec _ _ hstart
  have hshared : (pageSet t.pages).map Page.share =
      ↑((entries t.pages.slots).map fun e => e.2.share) := by
    rw [pageSet, map_coe, List.map_map]
    rfl
  have hparent : (vmmForkPageTable t k).1.pages = ⟨shareSlots t.pages.slots⟩ :=
    congrArg HashTable.mk hslots
  have hentry : ∀ {v page}, (v, page) ∈ entries t.pages.slots →
      (vmmForkPageTable t k).1.leaves v = shareCow (t.leaves v) := fun {v page} hv =>
    (hdone.leaves v).trans (if_pos (mem_keys_iff.mpr ⟨page, hv⟩))
  have habsent : ∀ {v}, UserAddress v → v ∉ keys t.pages.slots →
      (vmmForkPageTable t k).1.leaves v = 0#64 :=
    fun {v} huser hv => ((hdone.leaves v).trans (if_neg hv)).trans (h.absent huser hv)
  constructor
  · rw [hparent]
    refine ⟨good_shareSlots h.good, fun {v page} hv => ?_, fun {v page} hv => ?_,
      fun {v} huser hv => ?_⟩
    · obtain ⟨⟨w, page₀⟩, hw, heq⟩ := mem_map.mp (entries_shareSlots t.pages.slots ▸ hv)
      cases heq
      have hkeyed := h.keyed hw
      exact hkeyed
    · obtain ⟨⟨w, page₀⟩, hw, heq⟩ := mem_map.mp (entries_shareSlots t.pages.slots ▸ hv)
      cases heq
      rw [hentry hw]
      exact (h.backs hw).share
    · exact habsent huser (keys_shareSlots t.pages.slots ▸ hv)
  · exact hdone.child
  · rw [hparent, hshared, pageSet, entries_shareSlots, List.map_map]
    rfl
  · refine hdone.pages.trans ?_
    have hempty : pageSet (vmmDefaultTable k.maps : PageTable N).pages = 0 := rfl
    rw [hshared, hempty, Multiset.add_zero]
  · exact hentry
  · exact hdone.mapped
  · exact fun huser hv => ⟨habsent huser hv, (hdone.other hv).trans (k.maps.upper _ huser)⟩
  · rfl
  · rfl
  · rfl
  · rfl
  · rfl
  · funext r
    refine (hdone.references r).trans ?_
    rw [Pastoral.references, pageSet, map_coe, coe_count, List.map_map]
    rfl

end Fork

end Pastoral
