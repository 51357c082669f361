import Pastoral.Mm.AddressSpaces

/-!
# Accesses of the kernel to the memory of a task

The kernel reads and writes the memory of the current task through the page table of the task, as a
load or a store at an address.

## Main definitions

* `storeByte`, `loadByte`: an access, with its page fault
-/

open BitVec Function Option

namespace Pastoral

variable {N : Type}

def Canonical (a : BitVec 64) : Prop := a.toNat < 2 ^ 47 ∨ 2 ^ 64 - 2 ^ 47 ≤ a.toNat
  deriving Decidable

theorem UserAddress.canonical {a : BitVec 64} (h : UserAddress a) : Canonical a := Or.inl h

structure Machine (N : Type) where
  frame : BitVec 64 → BitVec 64
  physFrame : ∀ v, PhysFrame (frame v)
  distinct : ∀ a b, UserAddress a → UserAddress b → frame (pageOf a) = frame (pageOf b) →
    pageOf a = pageOf b
  kernelPages : BitVec 64 → Bool
  upperHalf : ∀ a, UserAddress a → kernelPages (pageOf a) = false
  assetRead : AssetRead N

structure TaskMemory (N : Type) where
  table : PageTable N
  kernel : Kernel

inductive StoreResult (N : Type)
  | faulted
  | kernel
  | done (s : TaskMemory N)

namespace TaskMemory

variable (m : Machine N) (s : TaskMemory N)

def fault (errorCode a : BitVec 64) : Option (TaskMemory N) :=
  let r := vmmPfHandler m.assetRead (m.frame (pageOf a)) s.table s.kernel errorCode a
  if r.1 then some ⟨r.2.1, r.2.2⟩ else none

def touch (store : Bool) (a : BitVec 64) : Option (TaskMemory N) :=
  let e := s.table.lowestLevel a
  if e.getLsbD 0 = false then s.fault m 0#64 a
  else if store && !e.getLsbD 1 then s.fault m vmmFlagsP a
  else some s

def storeByte (a : BitVec 64) (value : BitVec 8) : StoreResult N :=
  if ¬ Canonical a then .faulted
  else if m.kernelPages (pageOf a) then .kernel
  else
    match (s.touch m true a).bind fun s => s.touch m true a with
    | none => .faulted
    | some s => .done { s with kernel := s.kernel.writeByte (s.table.lowestLevel a) a value }

def loadByte (a : BitVec 64) : Option (BitVec 8 × TaskMemory N) :=
  if ¬ UserAddress a then none
  else
    (s.touch m false a).map fun s =>
      (s.kernel.mem (entryFrame (s.table.lowestLevel a)) (pageOffset a), s)

def loadBytes : List (BitVec 64) → TaskMemory N → Option (List (BitVec 8) × TaskMemory N)
  | [], s => some ([], s)
  | a :: l, s => (s.loadByte m a).bind fun r => (loadBytes l r.2).map fun r' => (r.1 :: r'.1, r'.2)

end TaskMemory

/-- **What is there can be written**: an entry is zero or that of a writable page, and every region
may be written. -/
structure Plain (t : PageTable N) : Prop where
  entry : ∀ v, t.leaves v = 0#64 ∨ (t.leaves v).getLsbD 0 = true ∧ (t.leaves v).getLsbD 1 = true
  region : ∀ r ∈ t.regions, r.prot &&& mmapProtWrite ≠ 0#32

theorem plain_defaultTable (boot : BootInfo) : Plain (vmmDefaultTable boot.maps : PageTable N) where
  entry v := by
    have hbits (e : BitVec 64) {flags : BitVec 64} (h : flags.getLsbD 0 = true)
        (h' : flags.getLsbD 1 = true) :
        (e ||| flags).getLsbD 0 = true ∧ (e ||| flags).getLsbD 1 = true := by
      rw [getLsbD_or, getLsbD_or, h, h', Bool.or_true, Bool.or_true]
      exact ⟨rfl, rfl⟩
    simp only [vmmDefaultTable, BootInfo.maps, BootInfo.leaf]
    split
    · exact .inr (hbits _ (by decide) (by decide))
    · split
      · exact .inr (hbits _ (by decide) (by decide))
      · exact .inl rfl
  region _ hr := absurd hr List.not_mem_nil

structure StoreEffect (m : Machine N) (s : TaskMemory N) (a : BitVec 64) (value : BitVec 8)
    (s' : TaskMemory N) : Prop where
  plain : Plain s'.table
  regions : s'.table.toRegionMap = s.table.toRegionMap
  others : ∀ v, v ≠ pageOf a → s'.table.leaves v = s.table.leaves v
  present : s'.table.leaves (pageOf a) ≠ 0#64
  old : s.table.leaves (pageOf a) ≠ 0#64 →
    s'.table.leaves (pageOf a) = s.table.leaves (pageOf a) ∧
      s'.kernel.mem = (s.kernel.writeByte (s.table.leaves (pageOf a)) a value).mem
  new : s.table.leaves (pageOf a) = 0#64 →
    entryFrame (s'.table.leaves (pageOf a)) = m.frame (pageOf a) ∧
      s'.kernel.mem = update s.kernel.mem (m.frame (pageOf a))
        (update (fun _ => 0#8) (pageOffset a) value)

section Store

variable {m : Machine N} {s s' : TaskMemory N} {a : BitVec 64} {value : BitVec 8}

theorem ne_zero_of_present {e : BitVec 64} (h : e.getLsbD 0 = true) : e ≠ 0#64 := by
  rintro rfl
  exact absurd h (by decide)

theorem Plain.present (h : Plain s.table) (ha : s.table.leaves (pageOf a) ≠ 0#64) :
    (s.table.lowestLevel a).getLsbD 0 = true ∧ (s.table.lowestLevel a).getLsbD 1 = true :=
  (h.entry (pageOf a)).resolve_left ha

theorem touch_present (store : Bool) (h : Plain s.table)
    (ha : s.table.leaves (pageOf a) ≠ 0#64) : s.touch m store a = some s := by
  obtain ⟨hpresent, hwritable⟩ := h.present ha
  rw [TaskMemory.touch, hpresent, hwritable, if_neg Bool.noConfusion, Bool.not_true,
    Bool.and_false, if_neg Bool.noConfusion]

def TaskMemory.mapped (m : Machine N) (s : TaskMemory N) (v : BitVec 64) (root : Region) :
    TaskMemory N :=
  ⟨(anonMapped (m.frame v) s.table s.kernel v root).1,
    (anonMapped (m.frame v) s.table s.kernel v root).2⟩

theorem touch_absent (store : Bool) (habsent : s.table.leaves (pageOf a) = 0#64) :
    s.touch m store a =
      (mmapSearchRegion s.table.mmapRegionRoot a.toNat).map (s.mapped m (pageOf a)) := by
  have hlevel : s.table.lowestLevel a = 0#64 := habsent
  have hpage := lowestLevel_pageOf.trans habsent
  rw [TaskMemory.touch, hlevel, TaskMemory.fault, vmmPfHandler, hpage, vmmAnonMap]
  cases mmapSearchRegion s.table.mmapRegionRoot a.toNat with
  | none => rfl
  | some root =>
    simp only [anonMapIn, pageOf_eq_sub, PageTable.mapPage, PageTable.setEntry, pageOf_pageOf]
    rfl

theorem leaves_mapped (v : BitVec 64) (root : Region) :
    (s.mapped m v root).table.leaves v = m.frame v ||| anonFlags root.prot :=
  update_self ..

theorem leaves_mapped_of_ne {v w : BitVec 64} (root : Region) (h : w ≠ v) :
    (s.mapped m v root).table.leaves w = s.table.leaves w :=
  update_of_ne h ..

theorem entry_mapped (v : BitVec 64) {root : Region} (hroot : root.prot &&& mmapProtWrite ≠ 0#32) :
    ((s.mapped m v root).table.leaves v).getLsbD 0 = true ∧
      ((s.mapped m v root).table.leaves v).getLsbD 1 = true ∧
      entryFrame ((s.mapped m v root).table.leaves v) = m.frame v := by
  obtain ⟨hflags, -, -, -, hwrite, -⟩ := anonFlags_spec root.prot
  have hframe := m.physFrame v
  rw [leaves_mapped]
  refine ⟨?_, ?_, entryFrame_eq hframe (addressBits_mapping hframe hflags.bits)⟩
  · rw [getLsbD_mapping hframe (by decide)]
    exact hflags.present
  · rw [getLsbD_mapping hframe (by decide), hwrite, decide_eq_true hroot]

theorem Plain.mapped (h : Plain s.table) (v : BitVec 64) {root : Region}
    (hroot : root.prot &&& mmapProtWrite ≠ 0#32) : Plain (s.mapped m v root).table := by
  obtain ⟨hpresent, hwritable, -⟩ := entry_mapped (m := m) (s := s) v hroot
  refine ⟨fun w => ?_, h.region⟩
  by_cases hw : w = v
  · rw [hw]
    exact .inr ⟨hpresent, hwritable⟩
  · rw [leaves_mapped_of_ne root hw]
    exact h.entry w

/-- A page is there, or the lookup of the address finds a region for it. -/
def TaskMemory.Reachable (s : TaskMemory N) (a : BitVec 64) : Prop :=
  s.table.leaves (pageOf a) ≠ 0#64 ∨ (mmapSearchRegion s.table.mmapRegionRoot a.toNat).isSome

theorem storeByte_effect (h : Plain s.table) (hcanonical : Canonical a)
    (hkernel : m.kernelPages (pageOf a) = false) (hthere : s.Reachable a) :
    ∃ s', s.storeByte m a value = .done s' ∧ StoreEffect m s a value s' := by
  rw [TaskMemory.storeByte, if_neg (not_not.mpr hcanonical), hkernel]
  by_cases hpage : s.table.leaves (pageOf a) = 0#64
  · obtain ⟨root, hroot⟩ := isSome_iff_exists.mp (hthere.resolve_left (not_not.mpr hpage))
    have hwrite := h.region root (mem_of_mmapSearchRegion hroot)
    obtain ⟨hpresent, -, hframe⟩ := entry_mapped (m := m) (s := s) (pageOf a) hwrite
    have hplain := h.mapped (m := m) (pageOf a) hwrite
    rw [touch_absent true hpage, hroot, map_some, bind_some,
      touch_present true hplain (ne_zero_of_present hpresent)]
    refine ⟨_, rfl, ⟨hplain, rfl, fun v hv => leaves_mapped_of_ne root hv,
      ne_zero_of_present hpresent, fun hne => absurd hpage hne, fun _ => ⟨hframe, ?_⟩⟩⟩
    -- The frame was zeroed before the byte was written.
    have hlevel : entryFrame ((s.mapped m (pageOf a) root).table.lowestLevel a) =
        m.frame (pageOf a) := hframe
    have hmem : (s.mapped m (pageOf a) root).kernel.mem =
        update s.kernel.mem (m.frame (pageOf a)) fun _ => 0#8 := rfl
    dsimp only [Kernel.writeByte]
    rw [hlevel, hmem, update_idem, update_self]
  · rw [touch_present true h hpage, bind_some, touch_present true h hpage]
    exact ⟨_, rfl, h, rfl, fun _ _ => rfl, hpage, fun _ => ⟨rfl, rfl⟩, fun heq => absurd heq hpage⟩

end Store

/-! ## The bytes that the task sees -/

structure Holds (m : Machine N) (s : TaskMemory N) (contents : ℕ → BitVec 8) : Prop where
  plain : Plain s.table
  frame : ∀ a, UserAddress a → s.table.leaves (pageOf a) ≠ 0#64 →
    entryFrame (s.table.leaves (pageOf a)) = m.frame (pageOf a)
  byte : ∀ a, UserAddress a → s.table.leaves (pageOf a) ≠ 0#64 →
    s.kernel.mem (m.frame (pageOf a)) (pageOffset a) = contents a.toNat
  zero : ∀ a, UserAddress a → s.table.leaves (pageOf a) = 0#64 → contents a.toNat = 0#8

section Contents

variable {m : Machine N} {s s' : TaskMemory N} {a : BitVec 64} {value : BitVec 8}
  {contents : ℕ → BitVec 8}

section

variable (h : Holds m s contents) (ha : UserAddress a)

include h ha

theorem Holds.written (heffect : StoreEffect m s a value s') :
    entryFrame (s'.table.leaves (pageOf a)) = m.frame (pageOf a) ∧
      ∃ page, s'.kernel.mem = update s.kernel.mem (m.frame (pageOf a))
          (update page (pageOffset a) value) ∧
        ∀ b, UserAddress b → pageOf b = pageOf a → page (pageOffset b) = contents b.toNat := by
  by_cases hpage : s.table.leaves (pageOf a) = 0#64
  · obtain ⟨hframe, hmem⟩ := heffect.new hpage
    refine ⟨hframe, _, hmem, fun b hb hab => (h.zero b hb ?_).symm⟩
    rw [hab, hpage]
  · obtain ⟨hentry, hmem⟩ := heffect.old hpage
    have hframe := h.frame a ha hpage
    refine ⟨by rw [hentry, hframe], s.kernel.mem (m.frame (pageOf a)), ?_, fun b hb hab => ?_⟩
    · rw [hmem, Kernel.writeByte, hframe]
    · have hbyte := h.byte b hb (by rwa [hab])
      rwa [hab] at hbyte

theorem Holds.store (heffect : StoreEffect m s a value s') :
    Holds m s' (update contents a.toNat value) := by
  obtain ⟨hframe, page, hmem, hold⟩ := h.written ha heffect
  have hne : ∀ b, pageOf b ≠ pageOf a → b.toNat ≠ a.toNat := fun b hab heq =>
    hab (congrArg pageOf (eq_of_toNat_eq heq))
  refine ⟨heffect.plain, fun b hb hthere => ?_, fun b hb hthere => ?_, fun b hb habsent => ?_⟩
  · by_cases hab : pageOf b = pageOf a
    · rw [hab, hframe]
    · rw [heffect.others _ hab] at hthere ⊢
      exact h.frame b hb hthere
  · by_cases hab : pageOf b = pageOf a
    · rw [hmem, hab, update_self]
      by_cases heq : b = a
      · rw [heq, update_self, update_self]
      · have hoffset : pageOffset b ≠ pageOffset a := fun ho => heq (eq_of_pageOf_eq hab ho)
        rw [update_of_ne hoffset, hold b hb hab, update_of_ne (mt eq_of_toNat_eq heq)]
    · -- Another page has another frame.
      have hother : m.frame (pageOf b) ≠ m.frame (pageOf a) := fun heq =>
        hab (m.distinct b a hb ha heq)
      rw [heffect.others _ hab] at hthere
      rw [hmem, update_of_ne hother, update_of_ne (hne b hab)]
      exact h.byte b hb hthere
  · have hab : pageOf b ≠ pageOf a := fun hab => heffect.present (hab ▸ habsent)
    rw [heffect.others _ hab] at habsent
    rw [update_of_ne (hne b hab)]
    exact h.zero b hb habsent

theorem Holds.mapped {root : Region}
    (hroot : root.prot &&& mmapProtWrite ≠ 0#32) (habsent : s.table.leaves (pageOf a) = 0#64) :
    Holds m (s.mapped m (pageOf a) root) contents := by
  obtain ⟨hpresent, -, hframe⟩ := entry_mapped (m := m) (s := s) (pageOf a) hroot
  have hmem : (s.mapped m (pageOf a) root).kernel.mem =
      update s.kernel.mem (m.frame (pageOf a)) fun _ => 0#8 := rfl
  refine ⟨h.plain.mapped _ hroot, fun b hb hthere => ?_, fun b hb hthere => ?_,
    fun b hb hnone => ?_⟩
  · by_cases hab : pageOf b = pageOf a
    · rw [hab, hframe]
    · rw [leaves_mapped_of_ne root hab] at hthere ⊢
      exact h.frame b hb hthere
  · rw [hmem]
    by_cases hab : pageOf b = pageOf a
    · rw [hab, update_self]
      exact (h.zero b hb (hab ▸ habsent)).symm
    · have hother : m.frame (pageOf b) ≠ m.frame (pageOf a) := fun heq =>
        hab (m.distinct b a hb ha heq)
      rw [leaves_mapped_of_ne root hab] at hthere
      rw [update_of_ne hother]
      exact h.byte b hb hthere
  · have hab : pageOf b ≠ pageOf a := by
      intro hab
      rw [hab] at hnone
      exact ne_zero_of_present hpresent hnone
    rw [leaves_mapped_of_ne root hab] at hnone
    exact h.zero b hb hnone

theorem Holds.load (hthere : s.Reachable a) :
    ∃ s', s.loadByte m a = some (contents a.toNat, s') ∧ Holds m s' contents ∧
      s'.table.mmapRegionRoot = s.table.mmapRegionRoot := by
  rw [TaskMemory.loadByte, if_neg (not_not.mpr ha)]
  by_cases hpage : s.table.leaves (pageOf a) = 0#64
  · obtain ⟨root, hroot⟩ := isSome_iff_exists.mp (hthere.resolve_left (not_not.mpr hpage))
    have hwrite := h.plain.region root (mem_of_mmapSearchRegion hroot)
    obtain ⟨hpresent, -, hframe⟩ := entry_mapped (m := m) (s := s) (pageOf a) hwrite
    have hmapped := h.mapped ha hwrite hpage
    have hbyte := hmapped.byte a ha (ne_zero_of_present hpresent)
    rw [touch_absent false hpage, hroot, map_some, map_some]
    refine ⟨_, ?_, hmapped, rfl⟩
    rw [PageTable.lowestLevel, hframe, hbyte]
  · refine ⟨s, ?_, h, rfl⟩
    rw [touch_present false h.plain hpage, map_some, PageTable.lowestLevel,
      h.frame a ha hpage, h.byte a ha hpage]

end

end Contents

end Pastoral
