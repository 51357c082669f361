import Pastoral.Mm.Vmm

/-!
# Runs of address spaces

The address spaces of any number of tasks under anonymous `mmap` calls, page faults, forks and user
writes.

## Main definitions

* `vmmStep`: a step of a task
-/

open BitVec List Option Probe Transition

namespace Pastoral

variable {N : Type}

structure VmmState (N : Type) where
  tables : List (PageTable N)
  kernel : Kernel

inductive VmmOp
  | mmap (task addr length : ℕ) (prot flags : BitVec 32) (fd offset : ℤ)
  | fault (task : ℕ) (errorCode address frame : BitVec 64)
  | fork (task : ℕ)
  | write (task : ℕ) (address : BitVec 64) (value : BitVec 8)

def VmmState.setTable (s : VmmState N) (task : ℕ) (t : PageTable N) (k : Kernel) : VmmState N :=
  ⟨s.tables.set task t, k⟩

variable {task : ℕ} {t : PageTable N} {a : BitVec 64} {page : Page N}

theorem VmmState.setTable_self (s : VmmState N)
    (ht : s.tables[task]? = some t) : s.setTable task t s.kernel = s := by
  obtain ⟨hlt, rfl⟩ := List.getElem?_eq_some_iff.mp ht
  rw [VmmState.setTable, set_getElem_self]

def FreshFrame (s : VmmState N) (frame : BitVec 64) : Prop :=
  frame ∉ s.kernel.used ∧ PhysFrame frame

def entryFrame (e : BitVec 64) : BitVec 64 := e &&& 0xffffffffff000#64

theorem entryFrame_eq {e frame : BitVec 64} (hframe : PhysFrame frame)
    (h : addressBits e = frame) : entryFrame e = frame := by
  have hmask : 0xffffffffff000#64 = ~~~(0xfff#64 ||| vmmFlagsNX) &&& 0xfffffffffffff#64 := by
    decide
  have hlow : entryFrame e = addressBits e &&& 0xfffffffffffff#64 := by
    rw [entryFrame, hmask, ← BitVec.and_assoc]
    rfl
  rw [hlow, h]
  apply eq_of_toNat_eq
  exact (Nat.and_two_pow_sub_one_eq_mod _ 52).trans (Nat.mod_eq_of_lt hframe.2)

def pageOffset (address : BitVec 64) : ℕ := address.toNat % pageSize

theorem eq_of_pageOf_eq {b : BitVec 64} (hpage : pageOf a = pageOf b)
    (hoffset : pageOffset a = pageOffset b) : a = b := by
  have hnat := congrArg BitVec.toNat hpage
  rw [pageOf_toNat, pageOf_toNat] at hnat
  apply eq_of_toNat_eq
  unfold pageOffset pageSize at hoffset
  omega

def Kernel.writeByte (k : Kernel) (e address : BitVec 64) (value : BitVec 8) : Kernel :=
  { k with
    mem := Function.update k.mem (entryFrame e)
      (Function.update (k.mem (entryFrame e)) (pageOffset address) value) }

def VmmState.read (s : VmmState N) (task : ℕ) (address : BitVec 64) : Option (BitVec 8) :=
  s.tables[task]?.bind fun t =>
    if (t.leaves (pageOf address)).getLsbD 0 then
      some (s.kernel.mem (entryFrame (t.leaves (pageOf address))) (pageOffset address))
    else none

/-- One step of the address spaces. -/
def vmmStep (assetRead : AssetRead N) (s : VmmState N) :
    VmmOp → VmmState N → Prop
  | .mmap task addr length prot flags fd offset, s' =>
    ∃ t iterations ret m, s.tables[task]? = some t ∧ flags &&& mmapMapAnonymous ≠ 0#32 ∧
      mmapAnonymous iterations t.toRegionMap addr length prot flags fd offset = some (ret, m) ∧
      s' = s.setTable task { t with toRegionMap := m } s.kernel
  | .fault task errorCode address frame, s' =>
    ∃ t, s.tables[task]? = some t ∧ UserAddress address ∧ FreshFrame s frame ∧
      ErrorCodeOf t errorCode address ∧
      s' = s.setTable task (vmmPfHandler assetRead frame t s.kernel errorCode address).2.1
        (vmmPfHandler assetRead frame t s.kernel errorCode address).2.2
  | .fork task, s' =>
    ∃ t, s.tables[task]? = some t ∧
      s' = ⟨s.tables.set task (vmmForkPageTable t s.kernel).1 ++ [(vmmForkPageTable t s.kernel).2.1],
        (vmmForkPageTable t s.kernel).2.2⟩
  | .write task address value, s' =>
    ∃ t, s.tables[task]? = some t ∧ UserAddress address ∧
      (t.leaves (pageOf address)).getLsbD 0 = true ∧
      (t.leaves (pageOf address)).getLsbD 1 = true ∧
      s' = { s with kernel := s.kernel.writeByte (t.leaves (pageOf address)) address value }

/-! ## What a step does -/

inductive Effect (s : VmmState N) : VmmOp → VmmState N → Prop
  | mmap {task addr length iterations : ℕ} {prot flags : BitVec 32} {fd offset : ℤ}
      {t : PageTable N} {ret : Option ℕ} {m : RegionMap} (ht : s.tables[task]? = some t)
      (hm : mmapAnonymous iterations t.toRegionMap addr length prot flags fd offset =
        some (ret, m)) :
      Effect s (.mmap task addr length prot flags fd offset)
        (s.setTable task { t with toRegionMap := m } s.kernel)
  | idle {task : ℕ} {errorCode address frame : BitVec 64} {t : PageTable N}
      (ht : s.tables[task]? = some t) (huser : UserAddress address)
      (habsent : pageOf address ∉ keys t.pages.slots)
      (hregion : mmapSearchRegion t.mmapRegionRoot address.toNat = none) :
      Effect s (.fault task errorCode address frame) s
  | anon {task : ℕ} {errorCode address frame : BitVec 64} {t : PageTable N} {root : Region}
      (ht : s.tables[task]? = some t) (huser : UserAddress address) (hframe : FreshFrame s frame)
      (habsent : pageOf address ∉ keys t.pages.slots)
      (hregion : mmapSearchRegion t.mmapRegionRoot address.toNat = some root) :
      Effect s (.fault task errorCode address frame)
        (s.setTable task (anonMapped frame t s.kernel (pageOf address) root).1
          (anonMapped frame t s.kernel (pageOf address) root).2)
  | takeOver {task : ℕ} {errorCode address frame : BitVec 64} {t : PageTable N} {page : Page N}
      (ht : s.tables[task]? = some t) (hpage : (pageOf address, page) ∈ entries t.pages.slots)
      (hcow : (t.leaves (pageOf address)).getLsbD 9 = true)
      (halone : s.kernel.references page.reference ≤ 1) :
      Effect s (.fault task errorCode address frame)
        (s.setTable task
          (cowTable t (pageOf address) page (originalFrame (t.leaves (pageOf address)))
            s.kernel.nextReference)
          (s.kernel.addReference page.reference (-1)).newReference)
  | copy {task : ℕ} {errorCode address frame : BitVec 64} {t : PageTable N} {page : Page N}
      (ht : s.tables[task]? = some t) (hframe : FreshFrame s frame)
      (hpage : (pageOf address, page) ∈ entries t.pages.slots)
      (hcow : (t.leaves (pageOf address)).getLsbD 9 = true)
      (hshared : ¬ s.kernel.references page.reference ≤ 1) :
      Effect s (.fault task errorCode address frame)
        (s.setTable task (cowTable t (pageOf address) page frame s.kernel.nextReference)
          (((s.kernel.pmmAlloc frame).copyFrame frame
            (originalFrame (t.leaves (pageOf address)))).addReference
              page.reference (-1)).newReference)
  | setRW {task : ℕ} {errorCode address frame : BitVec 64} {t : PageTable N} {page : Page N}
      (ht : s.tables[task]? = some t) (hpage : (pageOf address, page) ∈ entries t.pages.slots)
      (hcow : (t.leaves (pageOf address)).getLsbD 9 = false) :
      Effect s (.fault task errorCode address frame)
        (s.setTable task
          (t.setEntry (pageOf address) (t.leaves (pageOf address) ||| vmmFlagsRW)) s.kernel)
  | fork {task : ℕ} {t parent child : PageTable N} {k : Kernel} (ht : s.tables[task]? = some t)
      (hfork : Forked t s.kernel parent child k) :
      Effect s (.fork task) ⟨s.tables.set task parent ++ [child], k⟩
  | write {task : ℕ} {address : BitVec 64} {value : BitVec 8} {t : PageTable N} {page : Page N}
      (ht : s.tables[task]? = some t) (hpage : (pageOf address, page) ∈ entries t.pages.slots)
      (hwritable : (t.leaves (pageOf address)).getLsbD 1 = true) :
      Effect s (.write task address value)
        { s with kernel := s.kernel.writeByte (t.leaves (pageOf address)) address value }

theorem read_page {s : VmmState N}
    (hinv : TableInv t.leaves t.pages) (ht : s.tables[task]? = some t)
    (hpage : (pageOf a, page) ∈ entries t.pages.slots) :
    s.read task a = some (s.kernel.mem page.paddr (pageOffset a)) := by
  have hbacks := hinv.backs hpage
  rw [VmmState.read, ht, bind_some, hbacks.present, if_pos rfl,
    entryFrame_eq hbacks.frame hbacks.address]

theorem read_absent {s : VmmState N}
    (hinv : TableInv t.leaves t.pages) (huser : UserAddress a) (ht : s.tables[task]? = some t)
    (ha : pageOf a ∉ keys t.pages.slots) : s.read task a = none := by
  rw [VmmState.read, ht, bind_some, hinv.absent huser.pageOf ha]
  rfl

def TablesInv (s : VmmState N) : Prop := ∀ t ∈ s.tables, TableInv t.leaves t.pages

/-- Address spaces without pages: the tables are those of `vmm_default_table`, with any regions. -/
def FreshSpaces (s : VmmState N) : Prop :=
  ∀ t ∈ s.tables, t.leaves = s.kernel.maps.leaf ∧ t.pages = HashTable.empty

variable {s s' : VmmState N} {op : VmmOp}
  {assetRead : AssetRead N}

theorem TablesInv.get (h : TablesInv s)
    (ht : s.tables[task]? = some t) : TableInv t.leaves t.pages :=
  h t (mem_of_getElem? ht)

theorem tablesInv_fresh (h : FreshSpaces s) : TablesInv s := by
  intro t ht
  rw [(h t ht).1, (h t ht).2]
  exact tableInv_empty s.kernel.maps.upper

theorem effect_of_step (h : TablesInv s) (hstep : vmmStep assetRead s op s') : Effect s op s' := by
  cases op with
  | mmap task addr length prot flags fd offset =>
    obtain ⟨t, iterations, ret, m, ht, -, hm, rfl⟩ := hstep
    exact Effect.mmap ht hm
  | fault task errorCode address frame =>
    obtain ⟨t, ht, huser, hframe, hcode, rfl⟩ := hstep
    rcases vmmPfHandler_cases assetRead frame s.kernel (h.get ht) huser.pageOf hcode with
      ⟨habsent, hregion, hr⟩ | ⟨root, habsent, hregion, hr⟩ | ⟨page, hpage, hcow, hr⟩ |
        ⟨page, hpage, hcow, hr⟩
    · rw [hr, s.setTable_self ht]
      exact Effect.idle ht huser habsent hregion
    · rw [hr]
      exact Effect.anon ht huser hframe habsent hregion
    · by_cases halone : s.kernel.references page.reference ≤ 1
      · rw [hr, vmmCowFault_alone frame (pageOf_pageOf address) halone]
        exact Effect.takeOver ht hpage hcow halone
      · rw [hr, vmmCowFault_copy frame (pageOf_pageOf address) halone]
        exact Effect.copy ht hframe hpage hcow halone
    · rw [hr]
      exact Effect.setRW ht hpage hcow
  | fork task =>
    obtain ⟨t, ht, rfl⟩ := hstep
    exact Effect.fork ht (vmmForkPageTable_spec (h.get ht))
  | write task address value =>
    obtain ⟨t, ht, huser, hpresent, hwritable, rfl⟩ := hstep
    obtain ⟨page, hpage⟩ := (h.get ht).exists_page huser.pageOf hpresent
    exact Effect.write ht hpage hwritable

theorem getElem?_setTable {k : Kernel} {j : ℕ} {t₁ : PageTable N}
    (h : (s.setTable task t₁ k).tables[j]? = some t) :
    (j = task ∧ t = t₁) ∨ (j ≠ task ∧ s.tables[j]? = some t) := by
  rw [VmmState.setTable, getElem?_set] at h
  by_cases hj : task = j
  · split_ifs at h with hlt
    exact .inl ⟨hj.symm, (some.inj h).symm⟩
  · rw [if_neg hj] at h
    exact .inr ⟨Ne.symm hj, h⟩

theorem getElem?_setTable_self (ht : s.tables[task]? = some t)
    (t' : PageTable N) (k : Kernel) : (s.setTable task t' k).tables[task]? = some t' := by
  rw [VmmState.setTable, getElem?_set_self (List.getElem?_eq_some_iff.mp ht).1]

theorem getElem?_setTable_of_ne {j : ℕ} {t' : PageTable N} (hj : j ≠ task) (k : Kernel) :
    (s.setTable task t' k).tables[j]? = s.tables[j]? := by
  rw [VmmState.setTable, getElem?_set_ne (Ne.symm hj)]

theorem TablesInv.setTable (h : TablesInv s) {k : Kernel}
    (ht : TableInv t.leaves t.pages) : TablesInv (s.setTable task t k) := by
  intro t' ht'
  rcases mem_or_eq_of_mem_set ht' with hold | rfl
  · exact h t' hold
  · exact ht

theorem cowTable_spec {v newFrame : BitVec 64}
    (h : TableInv t.leaves t.pages) (hpage : (v, page) ∈ entries t.pages.slots)
    (hframe : PhysFrame newFrame) (reference : ℕ) :
    TableInv (cowTable t v page newFrame reference).leaves
        (cowTable t v page newFrame reference).pages ∧
      ∃ others, pageSet t.pages = page ::ₘ others ∧
        pageSet (cowTable t v page newFrame reference).pages =
          page.move newFrame reference ::ₘ others :=
  h.replace hpage (h.keyed hpage).1 ((h.backs hpage).cowFault hframe reference)

theorem setRW_spec {address : BitVec 64}
    (h : TableInv t.leaves t.pages) (hpage : (pageOf address, page) ∈ entries t.pages.slots)
    (hcow : (t.leaves (pageOf address)).getLsbD 9 = false) :
    TableInv (t.setEntry (pageOf address) (t.leaves (pageOf address) ||| vmmFlagsRW)).leaves
      (t.setEntry (pageOf address) (t.leaves (pageOf address) ||| vmmFlagsRW)).pages := by
  rw [PageTable.setEntry, pageOf_pageOf]
  exact h.setEntry hpage ((h.backs hpage).setRW hcow)

theorem tablesInv_effect (h : TablesInv s) (heffect : Effect s op s') : TablesInv s' := by
  cases heffect with
  | mmap ht hm =>
    have hold := h.get ht
    exact h.setTable hold
  | idle => exact h
  | anon ht huser hframe habsent hregion =>
    exact h.setTable ((h.get ht).insert habsent rfl ⟨pageOf_pageOf _, huser.pageOf⟩
      (backs_anon hframe.2 _ _ _)).1
  | takeOver ht hpage =>
    exact h.setTable (cowTable_spec (h.get ht) hpage physFrame_originalFrame _).1
  | copy ht hframe hpage =>
    exact h.setTable (cowTable_spec (h.get ht) hpage hframe.2 _).1
  | setRW ht hpage hcow => exact h.setTable (setRW_spec (h.get ht) hpage hcow)
  | @fork task t parent child k ht hfork =>
    intro t' ht'
    rcases mem_append.mp ht' with hold | hnew
    · exact h.setTable (k := k) hfork.parentInv t' hold
    · rw [mem_singleton.mp hnew]
      exact hfork.childInv
  | write => exact h

end Pastoral
