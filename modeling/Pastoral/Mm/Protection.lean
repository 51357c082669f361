import Pastoral.Mm.AddressSpaces

/-!
# Page protection

The rights of an entry come from four places: a first access takes them from the region the lookup
finds, a fork takes writing away, a copy-on-write fault gives writing and, with the flags it drops,
execution, and any other fault on a present page gives writing.

## Main results

* `protection_follows_region_iff`: when an entry has no more rights than its region
-/

open Probe Transition

namespace Pastoral

variable {N : Type}

/-! ## Entries and protections -/

section Rights

variable {e frame : BitVec 64} {prot : BitVec 32}

/-- The page at `v` lies inside the region. -/
def Region.Covers (r : Region) (v : ℕ) : Prop := r.base ≤ v ∧ v + pageSize ≤ r.base + r.limit

instance (r : Region) (v : ℕ) : Decidable (r.Covers v) := inferInstanceAs (Decidable (_ ∧ _))

structure Within (e : BitVec 64) (prot : BitVec 32) : Prop where
  write : e &&& vmmFlagsRW ≠ 0#64 → prot &&& mmapProtWrite ≠ 0#32
  exec : e &&& vmmFlagsNX = 0#64 → prot &&& mmapProtExec ≠ 0#32

def Grants (prot : BitVec 32) (write exec : Prop) : Prop :=
  (write → prot &&& mmapProtWrite ≠ 0#32) ∧ (exec → prot &&& mmapProtExec ≠ 0#32)

theorem within_iff : Within e prot ↔ Grants prot (e.getLsbD 1 = true) (e.getLsbD 63 = false) := by
  have hrw : e &&& vmmFlagsRW ≠ 0#64 ↔ e.getLsbD 1 = true := by
    rw [Ne, and_twoPow_eq_zero_iff _ (by decide), Bool.not_eq_false]
  have hnx := and_twoPow_eq_zero_iff e (k := 63) (by decide)
  constructor
  · exact fun h => ⟨fun hw => h.write (hrw.mpr hw), fun hx => h.exec (hnx.mpr hx)⟩
  · exact fun h => ⟨fun hw => h.1 (hrw.mp hw), fun hx => h.2 (hnx.mp hx)⟩

theorem within_anon (hframe : PhysFrame frame) (root : BitVec 32) :
    Within (frame ||| anonFlags root) prot ↔
      Grants prot (root &&& mmapProtWrite ≠ 0#32) (root &&& mmapProtExec ≠ 0#32) := by
  obtain ⟨-, -, -, -, hwrite, hexec⟩ := anonFlags_spec root
  rw [within_iff, getLsbD_mapping hframe (by decide), getLsbD_mapping hframe (by decide), hwrite,
    hexec, decide_eq_true_iff, decide_eq_false_iff_not]

theorem within_cowEntry (hframe : PhysFrame frame) :
    Within (cowEntry frame e) prot ↔ Grants prot True True := by
  rw [within_iff, getLsbD_cowEntry hframe (by decide), getLsbD_cowEntry hframe (by decide)]
  simp

theorem within_setRW (h : Within e prot) :
    Within (e ||| vmmFlagsRW) prot ↔ Grants prot True False := by
  rw [within_iff, getLsbD_setRW]
  have hexec := (within_iff.mp h).2
  simp only [Grants, decide_true, Bool.or_true, false_implies, and_true]
  exact and_iff_left (by simpa using hexec)

theorem within_shareCow (h : Within e prot) : Within (shareCow e) prot := by
  rw [within_iff, getLsbD_shareCow (by decide), getLsbD_shareCow (by decide)]
  exact ⟨fun hw => Bool.noConfusion hw, (within_iff.mp h).2⟩

theorem within_forked {page : Page N} (hbacks : Backs e page) (h : Within e prot) :
    Within (page.paddr ||| shareCow page.flags) prot := by
  rw [within_iff, getLsbD_mapping hbacks.frame (by decide),
    getLsbD_mapping hbacks.frame (by decide), getLsbD_shareCow (by decide),
    getLsbD_shareCow (by decide)]
  refine ⟨fun hw => Bool.noConfusion hw, fun hx => (within_iff.mp h).2 ?_⟩
  by_contra hnx
  rw [hbacks.nx (Bool.not_eq_false _ ▸ hnx)] at hx
  exact Bool.noConfusion hx

end Rights

/-! ## Protected tables -/

section Tables

variable {t t' : PageTable N} {v e : BitVec 64}

/-- Of the lower half: the kernel's own maps of the upper half follow no region. -/
def TableProtected (t : PageTable N) : Prop :=
  ∀ v, UserAddress v → ∀ r ∈ t.regions, r.Covers v.toNat → t.leaves v &&& vmmFlagsP ≠ 0#64 →
    Within (t.leaves v) r.prot

theorem tableProtected_update (t' : PageTable N) (h : TableProtected t) (huser : UserAddress v)
    (hregions : t'.regions = t.regions)
    (hleaves : t'.leaves = Function.update t.leaves v e) (he : e &&& vmmFlagsP ≠ 0#64) :
    TableProtected t' ↔ ∀ r ∈ t.regions, r.Covers v.toNat → Within e r.prot := by
  rw [TableProtected, hregions, hleaves]
  constructor
  · intro h' r hr hcovers
    have hwithin := h' v huser r hr hcovers
    rw [Function.update_self] at hwithin
    exact hwithin he
  · intro hnew w hw' r hr hcovers
    by_cases hw : w = v
    · subst hw
      rw [Function.update_self]
      exact fun _ => hnew r hr hcovers
    · rw [Function.update_of_ne hw]
      exact h w hw' r hr hcovers

theorem tableProtected_mono (h : TableProtected t) (hregions : t'.regions = t.regions)
    (hleaves : ∀ v, UserAddress v → t'.leaves v &&& vmmFlagsP ≠ 0#64 →
      t.leaves v &&& vmmFlagsP ≠ 0#64 ∧ ∀ prot, Within (t.leaves v) prot → Within (t'.leaves v) prot) : TableProtected t' := by
  intro v huser r hr hcovers hp
  obtain ⟨hold, hwithin⟩ := hleaves v huser hp
  exact hwithin _ (h v huser r (hregions ▸ hr) hcovers hold)

def MayMap (t : PageTable N) (addr length : ℕ) (prot flags : BitVec 32) : Prop :=
  ∀ iterations base, mmapBase iterations t.toRegionMap addr (alignUp length pageSize) flags =
      some base → MmapValid base (alignUp length pageSize) →
    ∀ v : BitVec 64, UserAddress v → base ≤ v.toNat →
      v.toNat + pageSize ≤ base + alignUp length pageSize → t.leaves v &&& vmmFlagsP ≠ 0#64 →
      Within (t.leaves v) prot

def MayFault (t : PageTable N) (address : BitVec 64) : Prop :=
  ∀ r ∈ t.regions, r.Covers (pageOf address).toNat →
    if t.leaves (pageOf address) &&& vmmFlagsP = 0#64 then
      ∀ root, mmapSearchRegion t.mmapRegionRoot address.toNat = some root →
        Grants r.prot (root.prot &&& mmapProtWrite ≠ 0#32) (root.prot &&& mmapProtExec ≠ 0#32)
    else if t.leaves (pageOf address) &&& vmmCowFlag ≠ 0#64 then Grants r.prot True True
    else Grants r.prot True False

theorem tableProtected_mmap {iterations addr length : ℕ} {m : RegionMap} {prot flags : BitVec 32}
    {fd offset : ℤ} {ret : Option ℕ} (h : TableProtected t)
    (hm : mmapAnonymous iterations t.toRegionMap addr length prot flags fd offset = some (ret, m)) :
    TableProtected { t with toRegionMap := m } ↔ MayMap t addr length prot flags := by
  obtain ⟨base, hbase, ⟨hinvalid, hregions⟩ | ⟨hvalid, hregions⟩⟩ := mmapAnonymous_regions hm
  · -- the call failed: there is no new region
    refine iff_of_true ?_ fun i base' hbase' hvalid => ?_
    · rw [TableProtected, hregions]
      exact h
    · exact absurd (mmapBase_unique hbase' hbase ▸ hvalid) hinvalid
  · constructor
    · intro h' i base' hbase' _ v huser hlo hhi
      obtain rfl := mmapBase_unique hbase' hbase
      exact h' v huser _ ((hregions _).mpr (.inl rfl)) ⟨hlo, hhi⟩
    · intro hmay v huser r hr hcovers
      rcases (hregions r).mp hr with rfl | hr
      · exact hmay iterations base hbase hvalid v huser hcovers.1 hcovers.2
      · exact h v huser r hr hcovers

theorem Backs.present_ne {page : Page N} (h : Backs e page) : e &&& vmmFlagsP ≠ 0#64 := by
  rw [Ne, and_twoPow_eq_zero_iff _ (by decide), h.present]
  exact Bool.noConfusion

theorem mayFault_absent {address : BitVec 64}
    (hp : t.leaves (pageOf address) &&& vmmFlagsP = 0#64) :
    MayFault t address ↔ ∀ r ∈ t.regions, r.Covers (pageOf address).toNat →
      ∀ root, mmapSearchRegion t.mmapRegionRoot address.toNat = some root →
        Grants r.prot (root.prot &&& mmapProtWrite ≠ 0#32) (root.prot &&& mmapProtExec ≠ 0#32) := by
  simp only [MayFault, if_pos hp]

theorem mayFault_cow {address : BitVec 64} (hp : t.leaves (pageOf address) &&& vmmFlagsP ≠ 0#64)
    (hcow : t.leaves (pageOf address) &&& vmmCowFlag ≠ 0#64) :
    MayFault t address ↔ ∀ r ∈ t.regions, r.Covers (pageOf address).toNat →
      Grants r.prot True True := by
  simp only [MayFault, if_neg hp, if_pos hcow]

theorem mayFault_present {address : BitVec 64} (hp : t.leaves (pageOf address) &&& vmmFlagsP ≠ 0#64)
    (hcow : ¬ t.leaves (pageOf address) &&& vmmCowFlag ≠ 0#64) :
    MayFault t address ↔ ∀ r ∈ t.regions, r.Covers (pageOf address).toNat →
      Grants r.prot True False := by
  simp only [MayFault, if_neg hp, if_neg hcow]

end Tables

/-! ## Protection along runs -/

section Runs

variable {s s' : VmmState N} {op : VmmOp} {task : ℕ} {t t' : PageTable N}

/-- **Page protection follows the region**: every present entry for a page inside a region of its
task is within the protection of the region. -/
def Protected (s : VmmState N) : Prop := ∀ t ∈ s.tables, TableProtected t

/-- The condition on a step, by its state before and its label. -/
def KeepsProtection (e : Event (VmmState N) VmmOp) : Prop :=
  match e.act with
  | .mmap task addr length prot flags _ _ =>
    ∀ t, e.pre.tables[task]? = some t → MayMap t addr length prot flags
  | .fault task _ address _ => ∀ t, e.pre.tables[task]? = some t → MayFault t address
  | .fork _ => True
  | .write .. => True

theorem protected_setTable (h : Protected s) (ht : s.tables[task]? = some t) (k : Kernel) :
    Protected (s.setTable task t' k) ↔ TableProtected t' := by
  constructor
  · intro h'
    exact h' t' (List.mem_of_getElem? (getElem?_setTable_self ht t' k))
  · intro h' t₁ ht₁
    rcases List.mem_or_eq_of_mem_set ht₁ with hold | rfl
    · exact h t₁ hold
    · exact h'

theorem forall_table_iff {P : PageTable N → Prop} (ht : s.tables[task]? = some t) :
    (∀ t', s.tables[task]? = some t' → P t') ↔ P t := by
  constructor
  · exact fun h => h t ht
  · intro h t' ht'
    rwa [← Option.some.inj (ht.symm.trans ht')]

theorem keepsProtection_mmap (ht : s.tables[task]? = some t) {addr length : ℕ}
    {prot flags : BitVec 32} {fd offset : ℤ} :
    KeepsProtection ⟨s, .mmap task addr length prot flags fd offset, s'⟩ ↔
      MayMap t addr length prot flags :=
  forall_table_iff (P := fun t => MayMap t addr length prot flags) ht

theorem keepsProtection_fault (ht : s.tables[task]? = some t)
    {errorCode address frame : BitVec 64} :
    KeepsProtection ⟨s, .fault task errorCode address frame, s'⟩ ↔ MayFault t address :=
  forall_table_iff (P := fun t => MayFault t address) ht

theorem protected_cow {address newFrame : BitVec 64} {page : Page N} (h : Protected s)
    (hinv : TablesInv s) (ht : s.tables[task]? = some t)
    (hpage : (pageOf address, page) ∈ entries t.pages.slots)
    (hcow : (t.leaves (pageOf address)).getLsbD 9 = true) (hframe : PhysFrame newFrame)
    (reference : ℕ) (k : Kernel) :
    Protected (s.setTable task (cowTable t (pageOf address) page newFrame reference) k) ↔
      MayFault t address := by
  have hbacks := (hinv.get ht).backs hpage
  have hp := hbacks.present_ne
  have hflag : t.leaves (pageOf address) &&& vmmCowFlag ≠ 0#64 := by
    rw [Ne, and_twoPow_eq_zero_iff _ (by decide), hcow]
    exact Bool.noConfusion
  have hnew := (hbacks.cowFault hframe reference).present_ne
  rw [protected_setTable h ht, mayFault_cow hp hflag,
    tableProtected_update (cowTable t (pageOf address) page newFrame reference)
      (h t (List.mem_of_getElem? ht)) ((hinv.get ht).keyed hpage).2.2 rfl rfl hnew]
  simp only [within_cowEntry hframe]

theorem protected_fork {parent child : PageTable N} {k k' : Kernel} (h : TableProtected t)
    (hinv : TableInv t.leaves t.pages) (hfork : Forked t k parent child k') :
    TableProtected parent ∧ TableProtected child := by
  have hpresent {e : BitVec 64} : e &&& vmmFlagsP ≠ 0#64 ↔ e.getLsbD 0 = true := by
    rw [Ne, and_twoPow_eq_zero_iff _ (by decide), Bool.not_eq_false]
  constructor
  · refine tableProtected_mono h (congrArg SearchTree.inorder hfork.parentRegions) fun v huser hv => ?_
    obtain ⟨page, hpage⟩ := hfork.page huser (.inl (hpresent.mp hv))
    rw [hfork.parentEntry hpage]
    exact ⟨(hinv.backs hpage).present_ne, fun _ => within_shareCow⟩
  · refine tableProtected_mono h (congrArg SearchTree.inorder hfork.childRegions) fun v huser hv => ?_
    obtain ⟨page, hpage⟩ := hfork.page huser (.inr (hpresent.mp hv))
    rw [hfork.childEntry hpage]
    exact ⟨(hinv.backs hpage).present_ne, fun _ => within_forked (hinv.backs hpage)⟩

theorem protected_effect_iff (h : Protected s) (hinv : TablesInv s) (heffect : Effect s op s') :
    Protected s' ↔ KeepsProtection ⟨s, op, s'⟩ := by
  cases heffect with
  | @mmap task addr length iterations prot flags fd offset t ret m ht hm =>
    rw [protected_setTable h ht, keepsProtection_mmap ht]
    exact tableProtected_mmap (h t (List.mem_of_getElem? ht)) hm
  | @idle task errorCode address frame t ht huser habsent hregion =>
    have hp : t.leaves (pageOf address) &&& vmmFlagsP = 0#64 := by
      rw [(hinv.get ht).absent huser.pageOf habsent, BitVec.zero_and]
    rw [keepsProtection_fault ht, mayFault_absent hp, hregion]
    exact iff_of_true h fun _ _ _ root hroot => absurd hroot (by simp)
  | @anon task errorCode address frame t root ht huser hframe habsent hregion =>
    have hp : t.leaves (pageOf address) &&& vmmFlagsP = 0#64 := by
      rw [(hinv.get ht).absent huser.pageOf habsent, BitVec.zero_and]
    have hbacks : Backs _ (anonPage root.prot (pageOf address) frame 0 : Page N) :=
      backs_anon hframe.2 root.prot (pageOf address) 0
    rw [protected_setTable h ht, keepsProtection_fault ht, mayFault_absent hp, hregion,
      tableProtected_update (anonMapped frame t s.kernel (pageOf address) root).1
        (h t (List.mem_of_getElem? ht)) huser.pageOf rfl rfl hbacks.present_ne]
    simp only [within_anon hframe.2, Option.some.injEq, forall_eq']
  | @takeOver task errorCode address frame t page ht hpage hcow halone =>
    rw [protected_cow h hinv ht hpage hcow physFrame_originalFrame, keepsProtection_fault ht]
  | @copy task errorCode address frame t page ht hframe hpage hcow hshared =>
    rw [protected_cow h hinv ht hpage hcow hframe.2, keepsProtection_fault ht]
  | @setRW task errorCode address frame t page ht hpage hcow =>
    have hbacks := (hinv.get ht).backs hpage
    have htable := h t (List.mem_of_getElem? ht)
    have huser := ((hinv.get ht).keyed hpage).2.2
    have hflag : ¬ t.leaves (pageOf address) &&& vmmCowFlag ≠ 0#64 := by
      rw [not_not]
      exact (and_twoPow_eq_zero_iff _ (by decide)).mpr hcow
    have hleaves : (t.setEntry (pageOf address) (t.leaves (pageOf address) ||| vmmFlagsRW)).leaves =
        Function.update t.leaves (pageOf address) (t.leaves (pageOf address) ||| vmmFlagsRW) := by
      rw [PageTable.setEntry, pageOf_pageOf]
    rw [protected_setTable h ht, keepsProtection_fault ht, mayFault_present hbacks.present_ne hflag,
      tableProtected_update (t.setEntry _ _) htable huser rfl hleaves (hbacks.setRW hcow).present_ne]
    -- the other rights of the entry were within the region before
    exact forall₃_congr fun r hr hcovers =>
      within_setRW (htable (pageOf address) huser r hr hcovers hbacks.present_ne)
  | @fork task t parent child k ht hfork =>
    refine iff_of_true (fun t₁ ht₁ => ?_) trivial
    obtain ⟨hparent, hchild⟩ := protected_fork (h t (List.mem_of_getElem? ht)) (hinv.get ht) hfork
    rcases List.mem_append.mp ht₁ with ht₁ | ht₁
    · exact (protected_setTable h ht k).mpr hparent t₁ ht₁
    · rw [List.mem_singleton.mp ht₁]
      exact hchild
  | write => exact iff_of_true h trivial

theorem protected_fresh (h : FreshSpaces s) : Protected s := by
  intro t ht v huser r _ _ hp
  rw [(h t ht).1, s.kernel.maps.upper v huser] at hp
  exact absurd BitVec.zero_and hp

/-- **When page protection follows the region**: along a run of anonymous `mmap` calls, page faults
of any kind, forks and user writes, every state has its entries within the protection of the
regions exactly if every `mmap` and every fault gives no right that a region around the page
withholds. -/
theorem protection_follows_region_iff {s₀ : VmmState N} {tr : List (Event (VmmState N) VmmOp)}
    {assetRead : AssetRead N} (h₀ : FreshSpaces s₀)
    (run : Run (vmmStep assetRead) s₀ tr s) :
    (∀ e ∈ tr, Protected e.post) ↔ ∀ e ∈ tr, KeepsProtection e := by
  refine run.every_iff (I := fun s => TablesInv s ∧ Protected s)
    ⟨tablesInv_fresh h₀, protected_fresh h₀⟩ ?_ ?_
  · rintro s op s' ⟨hinv, h⟩ hstep hkeep
    have heffect := effect_of_step hinv hstep
    exact ⟨tablesInv_effect hinv heffect, (protected_effect_iff h hinv heffect).mpr hkeep⟩
  · rintro s op s' ⟨hinv, h⟩ hstep
    exact protected_effect_iff h hinv (effect_of_step hinv hstep)

def emptyTask : VmmState Unit :=
  ⟨[vmmDefaultTable smallBoot.maps], ⟨fun _ _ => 0#8, [], fun _ => 0, 0, smallBoot.maps⟩⟩

theorem freshSpaces_emptyTask : FreshSpaces emptyTask := by
  intro t ht
  rw [emptyTask, List.mem_singleton] at ht
  exact ht ▸ ⟨rfl, rfl⟩

theorem protection_follows_region_first_access :
    ∃ (tr : List (Event (VmmState Unit) VmmOp)) (s : VmmState Unit),
      Run (vmmStep fun _ _ _ => none) emptyTask tr s ∧ tr.length = 2 ∧
        ∀ e ∈ tr, KeepsProtection e := by
  have hsteps : ∃ s₁ s₂ : VmmState Unit,
      vmmStep (fun _ _ _ => none) emptyTask (.mmap 0 0 0x4000 0xf#32 0x9#32 (-1) 0) s₁ ∧
      vmmStep (fun _ _ _ => none) s₁ (.fault 0 0x4#64 0x10000#64 0x2000#64) s₂ ∧
      ∀ s ∈ [s₁, s₂], ∀ t ∈ s.tables, t.regions = [⟨0x10000, 0x4000, 0xf#32, 0x9#32, -1, 0⟩] := by
    refine ⟨_, _, ⟨_, 1, _, _, rfl, ?_, rfl, rfl⟩, ⟨_, rfl, ?_, ⟨?_, ?_⟩, ?_, rfl⟩, ?_⟩ <;>
      decide +kernel
  obtain ⟨s₁, s₂, h₁, h₂, hregions⟩ := hsteps
  -- the only region grants everything
  have hprotected : ∀ s ∈ [s₁, s₂], Protected s := by
    intro s hs t ht v _ r hr _ _
    rw [hregions s hs t ht, List.mem_singleton] at hr
    rw [hr]
    exact ⟨fun _ => by decide, fun _ => by decide⟩
  have run := (Run.nil.snoc h₁).snoc h₂
  refine ⟨_, _, run, rfl, (protection_follows_region_iff freshSpaces_emptyTask run).mp ?_⟩
  simpa using hprotected

theorem write_fault_ignores_region :
    ∃ s₁ s₂ s₃ : VmmState Unit, Run (vmmStep fun _ _ _ => none) emptyTask
      [⟨emptyTask, .mmap 0 0 0x4000 0x9#32 0x9#32 (-1) 0, s₁⟩,
        ⟨s₁, .fault 0 0x4#64 0x10000#64 0x2000#64, s₂⟩,
        ⟨s₂, .fault 0 0x7#64 0x10000#64 0x3000#64, s₃⟩] s₃ ∧ ¬ Protected s₃ := by
  have hsteps : ∃ s₁ s₂ s₃ : VmmState Unit,
      vmmStep (fun _ _ _ => none) emptyTask (.mmap 0 0 0x4000 0x9#32 0x9#32 (-1) 0) s₁ ∧
      vmmStep (fun _ _ _ => none) s₁ (.fault 0 0x4#64 0x10000#64 0x2000#64) s₂ ∧
      vmmStep (fun _ _ _ => none) s₂ (.fault 0 0x7#64 0x10000#64 0x3000#64) s₃ ∧
      ∃ t ∈ s₃.tables, ∃ r ∈ t.regions, r.Covers 0x10000 ∧
        t.leaves 0x10000#64 &&& vmmFlagsP ≠ 0#64 ∧ t.leaves 0x10000#64 &&& vmmFlagsRW ≠ 0#64 ∧
        r.prot &&& mmapProtWrite = 0#32 := by
    refine ⟨_, _, _, ⟨_, 1, _, _, rfl, ?_, rfl, rfl⟩, ⟨_, rfl, ?_, ⟨?_, ?_⟩, ?_, rfl⟩,
      ⟨_, rfl, ?_, ⟨?_, ?_⟩, ?_, rfl⟩, ?_⟩ <;> decide +kernel
  obtain ⟨s₁, s₂, s₃, h₁, h₂, h₃, t, ht, r, hr, hcovers, hp, hrw, hprot⟩ := hsteps
  refine ⟨s₁, s₂, s₃, ((Run.nil.snoc h₁).snoc h₂).snoc h₃, fun h => ?_⟩
  exact (h t ht 0x10000#64 (by decide) r hr hcovers hp).write hrw hprot

end Runs

end Pastoral
