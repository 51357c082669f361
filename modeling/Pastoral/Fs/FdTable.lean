import Mathlib.Data.Multiset.Bind
import Mathlib.Data.Multiset.Filter
import Pastoral.Sched.Fork
import Pastoral.Theory.RefCount

/-!
# Descriptor tables over whole runs

The calls of `fd.c` and `fork`, in any order and by any tasks.

## Main definitions

* `fdStep`: a call, on the tables of all tasks

## Main results

* `tables_agree_of_fits`: the bitmaps agree with the tables, for numbers below 512
* `files_counted`: a file is freed with its last entry
-/

open Function Multiset Option Probe RefCount Transition

namespace Pastoral

/-! ## The calls -/

def FdState.live (s : FdState) : List ℕ := tablePointers s.sched.taskList

inductive FdOp
  | openat (task : ℕ) (flags : BitVec 32) (opened : Except (BitVec 64) ℕ) (handle file : ℕ)
  | pipe (task : ℕ) (c : PipeCall)
  | dup (task : ℕ) (fd : BitVec 32) (clearCloexec : Bool) (handle : ℕ)
  | dup2 (task : ℕ) (oldfd newfd : BitVec 32) (handle : ℕ)
  | close (task : ℕ) (fd : BitVec 32)
  | fork (c : ForkCall)

def FdOp.task : FdOp → ℕ
  | .openat task _ _ _ _ => task
  | .pipe task _ => task
  | .dup task _ _ _ => task
  | .dup2 task _ _ _ => task
  | .close task _ => task
  | .fork c => c.current

/-- The caller is live, and what is allocated is fresh. -/
def FdOp.Valid (s : FdState) (op : FdOp) : Prop :=
  op.task ∈ s.live ∧
    match op with
    | .openat _ _ _ handle file => s.handles handle = none ∧ s.files file = none
    | .pipe _ c => s.handles c.readHandle = none ∧ s.handles c.writeHandle = none ∧
        c.readHandle ≠ c.writeHandle ∧ s.files c.readFile = none ∧ s.files c.writeFile = none ∧
        c.readFile ≠ c.writeFile
    | .dup _ _ _ handle => s.handles handle = none
    | .dup2 _ _ _ handle => s.handles handle = none
    | .close _ _ => True
    | .fork c => c.task ∉ s.live ∧ c.pid ∉ keys s.sched.taskList.slots ∧
        c.handles.length = (tablePointers (s.sched.tasks c.current).fdList).length ∧
        c.handles.Nodup ∧ ∀ a ∈ c.handles, s.handles a = none

def fdNext (s : FdState) : FdOp → Option (List (BitVec 32) × FdState)
  | .openat task flags opened handle file =>
    (fdOpenat task flags opened handle file s).map fun r => ([r.1], r.2)
  | .pipe task c => (syscallPipe task c s).map fun r => ([r.1.1, r.1.2], r.2)
  | .dup task fd clearCloexec handle =>
    (fdDup task fd clearCloexec handle s).map fun r => ([r.1], r.2)
  | .dup2 task oldfd newfd handle => (fdDup2 task oldfd newfd handle s).map fun r => ([], r.2)
  | .close task fd => (fdClose task fd s).map fun r => ([], r.2)
  | .fork c => (syscallFork c s).map fun r => ([], r.2)

/-- One call. -/
def fdStep (s : FdState) (op : FdOp) (s' : FdState) : Prop :=
  op.Valid s ∧ (fdNext s op).map Prod.snd = some s'

/-! ## The entries of all tables -/

def tableRefs (p : ℕ) (fdList : HashTable (BitVec 32) ℕ) : Multiset (ℕ × BitVec 32 × ℕ) :=
  ((entries fdList.slots).map fun e => (p, e.1, e.2) : List (ℕ × BitVec 32 × ℕ))

def FdState.refs (s : FdState) : Multiset (ℕ × BitVec 32 × ℕ) :=
  (s.live : Multiset ℕ).bind fun p => tableRefs p (s.sched.tasks p).fdList

def fileOf (handles : ℕ → Option FdHandle) (r : ℕ × BitVec 32 × ℕ) : Option ℕ :=
  (handles r.2.2).map FdHandle.fileHandle

def FdState.held (s : FdState) : Multiset ℕ := s.refs.filterMap (fileOf s.handles)

def refcnts (files : ℕ → Option FileHandle) (f : ℕ) : Option ℤ := (files f).map FileHandle.refcnt

section Refs

variable {s s' : FdState} {p a : ℕ} {fd : BitVec 32}

theorem mem_tableRefs {q : ℕ} {fdList : HashTable (BitVec 32) ℕ} :
    (q, fd, a) ∈ tableRefs p fdList ↔ q = p ∧ (fd, a) ∈ entries fdList.slots := by
  simp only [tableRefs, mem_coe, List.mem_map, Prod.exists, Prod.mk.injEq]
  constructor
  · rintro ⟨fd, a, hmem, rfl, rfl, rfl⟩
    exact ⟨rfl, hmem⟩
  · rintro ⟨rfl, hmem⟩
    exact ⟨fd, a, hmem, rfl, rfl, rfl⟩

theorem mem_refs :
    (p, fd, a) ∈ s.refs ↔ p ∈ s.live ∧ (fd, a) ∈ entries (s.sched.tasks p).fdList.slots := by
  simp only [FdState.refs, mem_bind, mem_tableRefs]
  constructor
  · rintro ⟨q, hq, rfl, hmem⟩
    exact ⟨hq, hmem⟩
  · rintro ⟨hp, hmem⟩
    exact ⟨p, hp, rfl, hmem⟩

theorem refs_split (hp : p ∈ s.live) (hnodup : s.live.Nodup) : ∃ rest,
    s.refs = tableRefs p (s.sched.tasks p).fdList + rest ∧
    ∀ s' : FdState, s'.live = s.live →
      (∀ q ≠ p, (s'.sched.tasks q).fdList = (s.sched.tasks q).fdList) →
      s'.refs = tableRefs p (s'.sched.tasks p).fdList + rest := by
  have hsplit : (s.live : Multiset ℕ) = p ::ₘ (s.live.erase p : List ℕ) := by
    rw [cons_coe, coe_eq_coe]
    exact List.perm_cons_erase hp
  have hnot : p ∉ s.live.erase p := hnodup.not_mem_erase
  refine ⟨(s.live.erase p : Multiset ℕ).bind fun q => tableRefs q (s.sched.tasks q).fdList, ?_, ?_⟩
  · rw [FdState.refs, hsplit, cons_bind]
  · intro s' hlive hother
    rw [FdState.refs, hlive, hsplit, cons_bind]
    congr 1
    refine bind_congr fun q hq => ?_
    rw [hother q (by rintro rfl; exact hnot (mem_coe.mp hq))]

end Refs

/-! ## The invariant -/

structure TableOk (t : SchedTask) : Prop where
  small : t.fdBitmap.Small
  good : t.fdList.Good fdHash
  low : ∀ fd a, (fd, a) ∈ entries t.fdList.slots → fd.toNat < 512
  bits : ∀ n, t.fdBitmap.test n = true ↔ ∃ fd a, (fd, a) ∈ entries t.fdList.slots ∧ fd.toNat = n

structure FdInv (extra : Multiset ℕ) (s : FdState) : Prop where
  good : s.sched.taskList.Good addressHash
  nodup : s.live.Nodup
  tables : ∀ p ∈ s.live, TableOk (s.sched.tasks p)
  keyed : ∀ r ∈ s.refs, ∃ h, s.handles r.2.2 = some h ∧ h.fdNumber = r.2.1
  owned : (s.refs.map fun r => r.2.2).Nodup
  counted : Live (extra + s.held) (refcnts s.files)

theorem filterMap_congr {α β : Type} {f g : α → Option β} {m : Multiset α}
    (h : ∀ r ∈ m, f r = g r) : m.filterMap f = m.filterMap g := by
  rw [filterMap_eq_bind, filterMap_eq_bind]
  exact bind_congr fun r hr => by rw [h r hr]

/-! ## References to files -/

section Files

variable {held : Multiset ℕ} {files : ℕ → Option FileHandle} {f : ℕ}

theorem refcnts_update (files : ℕ → Option FileHandle) (f : ℕ) (o : Option FileHandle) :
    refcnts (update files f o) = update (refcnts files) f (o.map FileHandle.refcnt) := by
  ext g : 1
  by_cases hg : g = f
  · subst hg
    simp [refcnts]
  · simp [refcnts, hg]

theorem fileGet_spec (h : Live held (refcnts files)) (hf : f ∈ held) :
    ∃ files', fileGet files f = some files' ∧ Live (f ::ₘ held) (refcnts files') := by
  obtain ⟨file, hfile, hcount⟩ := map_eq_some_iff.mp (h.eq_some hf)
  refine ⟨_, by rw [fileGet, hfile]; rfl, ?_⟩
  rw [refcnts_update]
  refine h.join ?_
  rw [refcnts, hfile]
  rfl

theorem filePut_spec (h : Live (f ::ₘ held) (refcnts files)) :
    ∃ files', filePut files f = some files' ∧ Live held (refcnts files') := by
  have hcount := h.eq_some (mem_cons_self f held)
  obtain ⟨file, hfile, -⟩ := map_eq_some_iff.mp hcount
  have hrefcnt : refcnts files f = some file.refcnt := by
    rw [refcnts, hfile]
    rfl
  have hdrop := h.drop hrefcnt
  refine ⟨_, by rw [filePut, hfile]; rfl, ?_⟩
  dsimp only
  split_ifs with hlast
  · rw [if_pos hlast] at hdrop
    rwa [refcnts_update]
  · rw [if_neg hlast] at hdrop
    rwa [refcnts_update]

end Files

/-! ## One handle more, one handle less -/

section Entries

variable {extra : Multiset ℕ} {s : FdState} {p a f : ℕ} {fd : BitVec 32} {h : FdHandle}

theorem FdInv.get (hinv : FdInv extra s) (hf : f ∈ s.held) :
    ∃ files, fileGet s.files f = some files ∧ FdInv (f ::ₘ extra) { s with files := files } := by
  obtain ⟨files, hget, hlive⟩ := fileGet_spec hinv.counted (mem_add.mpr (.inr hf))
  rw [← cons_add] at hlive
  exact ⟨files, hget, hinv.good, hinv.nodup, hinv.tables, hinv.keyed, hinv.owned, hlive⟩

theorem FdInv.create (hinv : FdInv extra s) (file : FileHandle) (hf : s.files f = none)
    (hone : file.refcnt = 1) :
    FdInv (f ::ₘ extra) { s with files := update s.files f (some file) } := by
  refine ⟨hinv.good, hinv.nodup, hinv.tables, hinv.keyed, hinv.owned, ?_⟩
  rw [refcnts_update, map_some, hone, cons_add]
  refine hinv.counted.create ?_
  rw [refcnts, hf]
  rfl

theorem FdInv.handle_ne (hinv : FdInv extra s) (ha : s.handles a = none)
    {r : ℕ × BitVec 32 × ℕ} (hr : r ∈ s.refs) : r.2.2 ≠ a := by
  rintro rfl
  obtain ⟨h, hh, -⟩ := hinv.keyed r hr
  rw [hh] at ha
  simp at ha

theorem tableRefs_push {fdList : HashTable (BitVec 32) ℕ} (hgood : fdList.Good fdHash)
    (hfd : fd ∉ keys fdList.slots) :
    tableRefs p (hashTablePush fdHash fdList fd a) = (p, fd, a) ::ₘ tableRefs p fdList := by
  have hperm := (hashTablePush_fresh (d := a) hgood hfd).2
  rw [tableRefs, tableRefs, cons_coe, coe_eq_coe]
  exact hperm.map fun e => (p, e.1, e.2)

variable {t : SchedTask}

theorem TableOk.notMem_keys (ht : TableOk t)
    (hclear : t.fdBitmap.test fd.toNat = false) : fd ∉ keys t.fdList.slots := by
  intro hkey
  obtain ⟨a, hmem⟩ := mem_keys_iff.mp hkey
  rw [(ht.bits fd.toNat).mpr ⟨fd, a, hmem, rfl⟩] at hclear
  simp at hclear

theorem TableOk.place {b : Bitmap} (ht : TableOk t) (hlow : fd.toNat < 512)
    (hclear : t.fdBitmap.test fd.toNat = false) (hsmall : b.Small)
    (hbits : ∀ m, b.test m = (decide (m = fd.toNat) || t.fdBitmap.test m)) :
    TableOk { t with fdBitmap := b, fdList := hashTablePush fdHash t.fdList fd a } := by
  obtain ⟨hgood, hperm⟩ := hashTablePush_fresh (d := a) ht.good (ht.notMem_keys hclear)
  have hmem : ∀ fd' a', (fd', a') ∈ entries (hashTablePush fdHash t.fdList fd a).slots ↔
      (fd' = fd ∧ a' = a) ∨ (fd', a') ∈ entries t.fdList.slots := by
    intro fd' a'
    rw [hperm.mem_iff, List.mem_cons, Prod.mk.injEq]
  refine ⟨hsmall, hgood, fun fd' a' h => ?_, fun n => ?_⟩
  · rcases (hmem fd' a').mp h with ⟨rfl, -⟩ | hold
    · exact hlow
    · exact ht.low fd' a' hold
  · rw [hbits, Bool.or_eq_true, decide_eq_true_iff, ht.bits]
    simp only [hmem]
    constructor
    · rintro (rfl | ⟨fd', a', hold, rfl⟩)
      · exact ⟨fd, a, .inl ⟨rfl, rfl⟩, rfl⟩
      · exact ⟨fd', a', .inr hold, rfl⟩
    · rintro ⟨fd', a', ⟨rfl, -⟩ | hold, rfl⟩
      · exact .inl rfl
      · exact .inr ⟨fd', a', hold, rfl⟩

theorem FdInv.place (hinv : FdInv (h.fileHandle ::ₘ extra) s) (hp : p ∈ s.live)
    (ha : s.handles a = none) (hlow : h.fdNumber.toNat < 512) {b : Bitmap}
    (hclear : (s.sched.tasks p).fdBitmap.test h.fdNumber.toNat = false) (hsmall : b.Small)
    (hbits : ∀ m, b.test m = (decide (m = h.fdNumber.toNat) || (s.sched.tasks p).fdBitmap.test m)) :
    FdInv extra ((s.setBitmap p b).install p a h) := by
  have ht := hinv.tables p hp
  have hself := install_setBitmap_self s p a b h
  have hother : ∀ q ≠ p, ((s.setBitmap p b).install p a h).sched.tasks q = s.sched.tasks q :=
    fun q hq => by
      simp only [FdState.install, FdState.setBitmap]
      rw [setTask_of_ne _ _ hq, setTask_of_ne _ _ hq]
  -- The entries: those there were, and the new one.
  have hrefs : ((s.setBitmap p b).install p a h).refs = (p, h.fdNumber, a) ::ₘ s.refs := by
    obtain ⟨rest, hold, hnew⟩ := refs_split hp hinv.nodup
    rw [hnew ((s.setBitmap p b).install p a h) rfl fun q hq => by rw [hother q hq], hself, hold,
      ← cons_add]
    congr 1
    exact tableRefs_push ht.good (ht.notMem_keys hclear)
  have hkept : ∀ r ∈ s.refs, ((s.setBitmap p b).install p a h).handles r.2.2 = s.handles r.2.2 :=
    fun r hr => update_of_ne (hinv.handle_ne ha hr) ..
  have hnew : ((s.setBitmap p b).install p a h).handles a = some h := update_self ..
  refine ⟨hinv.good, hinv.nodup, fun q hq => ?_, fun r hr => ?_, ?_, ?_⟩
  · by_cases hqp : q = p
    · subst hqp
      rw [hself]
      exact ht.place hlow hclear hsmall hbits
    · rw [hother q hqp]
      exact hinv.tables q hq
  · rw [hrefs] at hr
    rcases mem_cons.mp hr with rfl | hold
    · exact ⟨h, hnew, rfl⟩
    · rw [hkept r hold]
      exact hinv.keyed r hold
  · rw [hrefs, map_cons, nodup_cons]
    refine ⟨fun hmem => ?_, hinv.owned⟩
    obtain ⟨r, hr, heq⟩ := mem_map.mp hmem
    exact hinv.handle_ne ha hr heq
  · have hheld : ((s.setBitmap p b).install p a h).held = h.fileHandle ::ₘ s.held := by
      unfold FdState.held
      rw [hrefs, filterMap_cons_some _ _ _ (by rw [fileOf, hnew]; rfl)]
      congr 1
      exact filterMap_congr fun r hr => by rw [fileOf, fileOf, hkept r hr]
    rw [hheld, add_cons, ← cons_add]
    exact hinv.counted

theorem TableOk.close (ht : TableOk t)
    (hmem : (h.fdNumber, a) ∈ entries t.fdList.slots) : TableOk (t.fdClose h) := by
  obtain ⟨hgood, hentries⟩ := hashTableDelete_good (k := h.fdNumber) ht.good
  have hlow := ht.low h.fdNumber a hmem
  refine ⟨ht.small.free _, hgood, fun fd' a' hold => ?_, fun n => ?_⟩
  · exact ht.low fd' a' ((hentries fd' a').mp hold).2
  · dsimp only [SchedTask.fdClose]
    rw [ht.small.test_free hlow, Bool.and_eq_true, ht.bits, Bool.not_eq_true',
      decide_eq_false_iff_not]
    simp only [hentries]
    constructor
    · rintro ⟨hne, fd', a', hold, rfl⟩
      exact ⟨fd', a', ⟨fun heq => hne (by rw [heq]), hold⟩, rfl⟩
    · rintro ⟨fd', a', ⟨hne, hold⟩, rfl⟩
      exact ⟨fun heq => hne (BitVec.toNat_inj.mp heq), fd', a', hold, rfl⟩

theorem FdInv.close (hinv : FdInv extra s) (hp : p ∈ s.live)
    (hmem : (fd, a) ∈ entries (s.sched.tasks p).fdList.slots) :
    ∃ h files, s.handles a = some h ∧ h.fdNumber = fd ∧
      fdCloseUnlocked p a s = some (s.remove p a h files) ∧ FdInv extra (s.remove p a h files) ∧
      s.held = h.fileHandle ::ₘ (s.remove p a h files).held := by
  have ht := hinv.tables p hp
  obtain ⟨h, hh, rfl⟩ := hinv.keyed _ (mem_refs.mpr ⟨hp, hmem⟩)
  have hself : ∀ files, (s.remove p a h files).sched.tasks p = (s.sched.tasks p).fdClose h :=
    fun _ => setTask_self ..
  have hother : ∀ files, ∀ q ≠ p, (s.remove p a h files).sched.tasks q = s.sched.tasks q :=
    fun _ _ hq => setTask_of_ne _ _ hq
  -- With any files, the entries after the close are those there were but one.
  obtain ⟨rest, hold, hnew⟩ := refs_split hp hinv.nodup
  have hrefs : ∀ files, s.refs = (p, h.fdNumber, a) ::ₘ (s.remove p a h files).refs := by
    intro files
    rw [hold, hnew (s.remove p a h files) rfl fun q hq => by rw [hother files q hq],
      ← cons_add, hself]
    congr 1
    rw [tableRefs, tableRefs, cons_coe, coe_eq_coe]
    exact (hashTableDelete_perm ht.good hmem).map fun e => (p, e.1, e.2)
  have howned := hinv.owned
  rw [hrefs s.files, map_cons, nodup_cons] at howned
  obtain ⟨hnot, howned⟩ := howned
  have hkept : ∀ files, ∀ r ∈ (s.remove p a h files).refs,
      (s.remove p a h files).handles r.2.2 = s.handles r.2.2 := fun files r hr =>
    update_of_ne (fun heq => hnot (mem_map.mpr ⟨r, hr, heq⟩)) ..
  have hheld : ∀ files, s.held = h.fileHandle ::ₘ (s.remove p a h files).held := by
    intro files
    unfold FdState.held
    rw [hrefs files, filterMap_cons_some _ _ _ (by rw [fileOf, hh]; rfl)]
    congr 1
    exact filterMap_congr fun r hr => by rw [fileOf, fileOf, hkept files r hr]
  have hcounted := hinv.counted
  rw [hheld s.files, add_cons] at hcounted
  obtain ⟨files, hput, hlive⟩ := filePut_spec hcounted
  have hclosed : fdCloseUnlocked p a s = some (s.remove p a h files) := by
    unfold fdCloseUnlocked
    rw [hh, bind_eq_bind, bind_some, hput]
    rfl
  refine ⟨h, files, hh, rfl, hclosed, ?_, hheld files⟩
  refine ⟨hinv.good, hinv.nodup, fun q hq => ?_, fun r hr => ?_, howned, hlive⟩
  · by_cases hqp : q = p
    · subst hqp
      rw [hself]
      exact ht.close hmem
    · rw [hother files q hqp]
      exact hinv.tables q hq
  · rw [hkept files r hr]
    refine hinv.keyed r ?_
    rw [hrefs files]
    exact mem_cons_of_mem hr

end Entries

/-! ## Each call -/

section Calls

variable {extra : Multiset ℕ} {s : FdState} {p a f : ℕ} {fd : BitVec 32} {t : SchedTask}

def HasRoom (b : Bitmap) : Prop := ∃ n < 512, b.test n = false

variable {n : ℕ}

theorem toNat_ofNat_low (hn : n < 512) : (BitVec.ofNat 32 n).toNat = n := by
  exact Nat.mod_eq_of_lt (by omega)

theorem TableOk.search_of_clear (ht : TableOk t) (hclear : t.fdBitmap.test fd.toNat = false) :
    hashTableSearch fdHash t.fdList fd = none :=
  (hashTableSearch_eq_none_iff ht.good).mpr (ht.notMem_keys hclear)

theorem TableOk.search_minus_one (ht : TableOk t) :
    hashTableSearch fdHash t.fdList (-1#32) = none := by
  refine (hashTableSearch_eq_none_iff ht.good).mpr fun hkey => ?_
  obtain ⟨a, hmem⟩ := mem_keys_iff.mp hkey
  exact absurd (ht.low _ a hmem) (by decide)

theorem FdInv.fail (hinv : FdInv extra s) (code : BitVec 64) : FdInv extra (s.fail code).2 :=
  ⟨hinv.good, hinv.nodup, hinv.tables, hinv.keyed, hinv.owned, hinv.counted⟩

theorem FdInv.allocate (hinv : FdInv (f ::ₘ extra) s) (hp : p ∈ s.live) (ha : s.handles a = none)
    (hroom : HasRoom (s.sched.tasks p).fdBitmap) :
    ∃ n b, (s.sched.tasks p).fdBitmap.alloc = some (n, b) ∧ n < 512 ∧
      (s.sched.tasks p).fdBitmap.test n = false ∧
      (∀ m, b.test m = (decide (m = n) || (s.sched.tasks p).fdBitmap.test m)) ∧
      ∀ flags, FdInv extra ((s.setBitmap p b).install p a ⟨f, BitVec.ofNat 32 n, flags⟩) := by
  obtain ⟨m, hm, hclear⟩ := hroom
  obtain ⟨n, b, halloc, hle, hsmall⟩ := (hinv.tables p hp).small.alloc hm hclear
  obtain ⟨hfree, -, -, hbits⟩ := Bitmap.alloc_spec halloc
  have hn : n < 512 := by omega
  have hnum := toNat_ofNat_low hn
  refine ⟨n, b, halloc, hn, hfree, hbits, fun flags => ?_⟩
  refine hinv.place (h := ⟨f, BitVec.ofNat 32 n, flags⟩) hp ha ?_ ?_ hsmall ?_
  · rwa [hnum]
  · rwa [hnum]
  · rwa [hnum]

theorem FdInv.translate_of_clear (hinv : FdInv extra s) (hp : p ∈ s.live) (hn : n < 512)
    (hclear : (s.sched.tasks p).fdBitmap.test n = false) :
    s.translate p (BitVec.ofNat 32 n) = none :=
  (hinv.tables p hp).search_of_clear (by rwa [toNat_ofNat_low hn])

theorem FdInv.openat {opened : Except (BitVec 64) ℕ} (hinv : FdInv 0 s) (flags : BitVec 32)
    (hp : p ∈ s.live) (ha : s.handles a = none) (hf : s.files f = none)
    (hroom : ∀ asset, opened = .ok asset → HasRoom (s.sched.tasks p).fdBitmap) :
    ∃ n s', fdOpenat p flags opened a f s = some (n, s') ∧ FdInv 0 s' ∧ s.translate p n = none := by
  unfold fdOpenat
  cases opened with
  | error code =>
    exact ⟨_, _, rfl, hinv.fail code, (hinv.tables p hp).search_minus_one⟩
  | ok asset =>
    generalize (if flags &&& oAccmode = 0#32 then flags ||| oRdonly else flags) = flags'
    have hcreated := hinv.create (FileHandle.init asset (flags' &&& ~~~oCloexec) none) hf rfl
    obtain ⟨n, b, halloc, hn, hclear, -, hplaced⟩ := hcreated.allocate (p := p) (a := a) hp ha
      (hroom asset rfl)
    refine ⟨BitVec.ofNat 32 n, _, ?_,
      hplaced (if flags' &&& oCloexec ≠ 0#32 then fdCloexec else 0#32),
      hinv.translate_of_clear hp hn hclear⟩
    rw [halloc]
    rfl

theorem FdInv.translated (hinv : FdInv extra s) (hp : p ∈ s.live)
    (htranslate : s.translate p fd = some a) :
    (fd, a) ∈ entries (s.sched.tasks p).fdList.slots ∧
      ∃ h, s.handles a = some h ∧ h.fdNumber = fd ∧ h.fileHandle ∈ s.held := by
  have hmem := (hashTableSearch_eq_some_iff (hinv.tables p hp).good).mp htranslate
  have hentry := mem_refs.mpr ⟨hp, hmem⟩
  obtain ⟨h, hh, hnum⟩ := hinv.keyed _ hentry
  refine ⟨hmem, h, hh, hnum, mem_filterMap _ _ |>.mpr ⟨_, hentry, ?_⟩⟩
  rw [fileOf, hh]
  rfl

theorem FdInv.dup (hinv : FdInv 0 s) (clearCloexec : Bool) (hp : p ∈ s.live)
    (ha : s.handles a = none)
    (hroom : s.translate p fd ≠ none → HasRoom (s.sched.tasks p).fdBitmap) :
    ∃ n s', fdDup p fd clearCloexec a s = some (n, s') ∧ FdInv 0 s' ∧ s.translate p n = none := by
  unfold fdDup
  cases htranslate : s.translate p fd with
  | none =>
    exact ⟨_, _, rfl, hinv.fail errnoEBADF, (hinv.tables p hp).search_minus_one⟩
  | some old =>
    obtain ⟨-, h, hh, -, hheld⟩ := hinv.translated hp htranslate
    obtain ⟨files, hget, hinv'⟩ := hinv.get hheld
    obtain ⟨n, b, halloc, hn, hclear, -, hplaced⟩ := hinv'.allocate (p := p) (a := a) hp ha
      (hroom (by rw [htranslate]; simp))
    refine ⟨BitVec.ofNat 32 n, _, ?_,
      hplaced (if clearCloexec then h.flags &&& ~~~fdCloexec else h.flags ||| fdCloexec),
      hinv.translate_of_clear hp hn hclear⟩
    dsimp only at halloc ⊢
    rw [hh, bind_eq_bind, bind_some, halloc, bind_eq_bind]
    rw [hget]
    rfl

theorem setBitmap_install (s : FdState) (p a : ℕ) (b b' : Bitmap) (h : FdHandle) :
    ((s.setBitmap p b).install p a h).setBitmap p b' = (s.setBitmap p b').install p a h := by
  simp [FdState.setBitmap, FdState.install, SchedState.setTask]

theorem FdInv.allocateTwo {g a' : ℕ} (hinv : FdInv (f ::ₘ g ::ₘ extra) s) (hp : p ∈ s.live)
    (ha : s.handles a = none) (ha' : s.handles a' = none) (hne : a ≠ a') {m : ℕ} (hm : m < 512)
    (hn : n < 512) (hmn : m ≠ n) (hmclear : (s.sched.tasks p).fdBitmap.test m = false)
    (hnclear : (s.sched.tasks p).fdBitmap.test n = false) :
    ∃ r b w b', (s.sched.tasks p).fdBitmap.alloc = some (r, b) ∧ b.alloc = some (w, b') ∧
      r < 512 ∧ w < 512 ∧ (s.sched.tasks p).fdBitmap.test r = false ∧
      (s.sched.tasks p).fdBitmap.test w = false ∧
      FdInv extra (((s.setBitmap p b').install p a ⟨f, BitVec.ofNat 32 r, 0#32⟩).install p a'
        ⟨g, BitVec.ofNat 32 w, 0#32⟩) := by
  obtain ⟨r, b, halloc, hr, hrclear, hbits, hplaced⟩ := hinv.allocate hp ha ⟨m, hm, hmclear⟩
  have hread := hplaced 0#32
  have hbitmap : (((s.setBitmap p b).install p a ⟨f, BitVec.ofNat 32 r, 0#32⟩).sched.tasks
      p).fdBitmap = b := by
    simp [FdState.install, FdState.setBitmap]
  -- One of the two clear bits is still clear.
  have hroom : HasRoom b := by
    by_cases hmr : m = r
    · refine ⟨n, hn, ?_⟩
      rw [hbits, hnclear, Bool.or_false, decide_eq_false_iff_not]
      omega
    · refine ⟨m, hm, ?_⟩
      rw [hbits, hmclear, Bool.or_false, decide_eq_false_iff_not]
      exact hmr
  obtain ⟨w, b', halloc', hw, hwclear, -, hplaced'⟩ := hread.allocate (p := p) (a := a') hp
    ((update_of_ne hne.symm ..).trans ha') (by rwa [hbitmap])
  rw [hbitmap] at halloc' hwclear
  rw [hbits, Bool.or_eq_false_iff] at hwclear
  refine ⟨r, b, w, b', halloc, halloc', hr, hw, hrclear, hwclear.2, ?_⟩
  have hwrite := hplaced' 0#32
  rwa [setBitmap_install] at hwrite

theorem FdInv.pipe {c : PipeCall} (hinv : FdInv 0 s) (hvalid : FdOp.Valid s (.pipe p c)) {m : ℕ}
    (hm : m < 512) (hn : n < 512) (hmn : m ≠ n)
    (hmclear : (s.sched.tasks p).fdBitmap.test m = false)
    (hnclear : (s.sched.tasks p).fdBitmap.test n = false) :
    ∃ r w s', syscallPipe p c s = some ((r, w), s') ∧ FdInv 0 s' ∧
      s.translate p r = none ∧ s.translate p w = none := by
  obtain ⟨hp, hrh, hwh, hhne, hrf, hwf, hfne⟩ := hvalid
  have hcreated := (hinv.create (FileHandle.init c.readAsset oRdonly (some c.pipe)) hrf rfl).create
    (FileHandle.init c.writeAsset oWronly (some c.pipe)) (f := c.writeFile) (by
      dsimp only
      rw [update_of_ne hfne.symm]
      exact hwf) rfl
  rw [cons_swap] at hcreated
  obtain ⟨r, b, w, b', halloc, halloc', hr, hw, hrclear, hwclear, hplaced⟩ :=
    hcreated.allocateTwo (p := p) hp hrh hwh hhne hm hn hmn hmclear hnclear
  refine ⟨BitVec.ofNat 32 r, BitVec.ofNat 32 w, _, ?_, hplaced,
    hinv.translate_of_clear hp hr hrclear, hinv.translate_of_clear hp hw hwclear⟩
  rw [syscallPipe, halloc, bind_eq_bind, bind_some]
  dsimp only
  rw [halloc']
  rfl

theorem TableOk.clear_of_search (ht : TableOk t)
    (hsearch : hashTableSearch fdHash t.fdList fd = none) :
    t.fdBitmap.test fd.toNat = false := by
  by_contra hset
  obtain ⟨fd', a, hmem, hnum⟩ := (ht.bits _).mp (Bool.of_not_eq_false hset)
  obtain rfl := BitVec.toNat_inj.mp hnum
  rw [(hashTableSearch_eq_some_iff ht.good).mpr hmem] at hsearch
  simp at hsearch

theorem FdInv.closeCall (hinv : FdInv 0 s) (fd : BitVec 32) (hp : p ∈ s.live) :
    ∃ n s', fdClose p fd s = some (n, s') ∧ FdInv 0 s' ∧ s'.live = s.live ∧
      s'.translate p fd = none := by
  unfold fdClose
  cases htranslate : s.translate p fd with
  | none => exact ⟨_, _, rfl, hinv.fail errnoEBADF, rfl, htranslate⟩
  | some a =>
    obtain ⟨hmem, -⟩ := hinv.translated hp htranslate
    obtain ⟨h, files, -, hnum, hclose, hinv', -⟩ := hinv.close hp hmem
    dsimp only
    rw [hclose]
    refine ⟨_, _, rfl, hinv', rfl, ?_⟩
    -- The key has been deleted.
    have hgood := (hinv.tables p hp).good
    obtain ⟨hgood', hentries⟩ := hashTableDelete_good (k := h.fdNumber) hgood
    unfold FdState.translate FdState.remove
    rw [setTask_self]
    refine (hashTableSearch_eq_none_iff hgood').mpr fun hkey => ?_
    obtain ⟨a', hmem'⟩ := mem_keys_iff.mp hkey
    exact ((hentries fd a').mp hmem').1 hnum.symm

theorem FdInv.replace {h : FdHandle} (hinv : FdInv (h.fileHandle ::ₘ extra) s) (hp : p ∈ s.live)
    (ha : s.handles a = none) (hlow : h.fdNumber.toNat < 512)
    (hused : (s.sched.tasks p).fdBitmap ≠ Bitmap.empty) :
    ∃ s', fdReplace p h a s = some s' ∧ FdInv extra s' := by
  have ht := hinv.tables p hp
  have hlen := (ht.small.resolve_left hused).2
  -- From a state in which the number is clear, the bit is set and the handle placed.
  have hplace : ∀ s₁ : FdState, FdInv (h.fileHandle ::ₘ extra) s₁ → s₁.live = s.live →
      s₁.handles a = none → (s₁.sched.tasks p).fdBitmap.test h.fdNumber.toNat = false →
      64 ≤ (s₁.sched.tasks p).fdBitmap.data.length →
      FdInv extra ((s₁.setBit p h.fdNumber.toNat).install p a h) := by
    intro s₁ hinv₁ hlive ha₁ hclear hlen₁
    have ht₁ := hinv₁.tables p (by rwa [hlive])
    refine hinv₁.place (by rwa [hlive]) ha₁ hlow hclear ?_ fun m => BitArray.test_set (by omega)
    rcases ht₁.small with hempty | ⟨hsize, -⟩
    · rw [hempty] at hlen₁
      exact absurd hlen₁ (by decide)
    · exact .inr ⟨hsize, by simpa using hlen₁⟩
  unfold fdReplace
  rw [if_pos (by omega)]
  cases hbit : (s.sched.tasks p).fdBitmap.test h.fdNumber.toNat with
  | false => exact ⟨_, rfl, hplace s hinv rfl ha hbit hlen⟩
  | true =>
    obtain ⟨fd, old, hmem, hnum⟩ := (ht.bits _).mp hbit
    obtain rfl := BitVec.toNat_inj.mp hnum
    obtain ⟨h', files, hh', hnum', hclose, hinv', -⟩ := hinv.close hp hmem
    have htranslate : s.translate p h.fdNumber = some old :=
      (hashTableSearch_eq_some_iff ht.good).mpr hmem
    refine ⟨_, ?_, hplace (s.remove p old h' files) hinv' rfl ?_ ?_ ?_⟩
    · rw [htranslate, bind_some, hclose]
      rfl
    · by_cases hold : a = old
      · exact hold ▸ update_self ..
      · exact (update_of_ne hold ..).trans ha
    · unfold FdState.remove
      rw [setTask_self, SchedTask.fdClose, ht.small.test_free (by rwa [hnum']), hnum']
      simp
    · unfold FdState.remove
      simpa [SchedTask.fdClose] using hlen

theorem FdInv.dup2 {newfd : BitVec 32} (hinv : FdInv 0 s) (oldfd : BitVec 32) (hp : p ∈ s.live)
    (ha : s.handles a = none) (hlow : newfd.toNat < 512) :
    ∃ n s', fdDup2 p oldfd newfd a s = some (n, s') ∧ FdInv 0 s' := by
  unfold fdDup2
  cases htranslate : s.translate p oldfd with
  | none => exact ⟨_, _, rfl, hinv.fail errnoEBADF⟩
  | some old =>
    dsimp only
    split_ifs with heq
    · exact ⟨_, _, rfl, hinv⟩
    · obtain ⟨hmem, h, hh, -, hheld⟩ := hinv.translated hp htranslate
      obtain ⟨files, hget, hinv'⟩ := hinv.get hheld
      -- The old number is open, so the bitmap has bytes.
      have hused : (s.sched.tasks p).fdBitmap ≠ Bitmap.empty := by
        intro hempty
        have hset := ((hinv.tables p hp).bits oldfd.toNat).mpr ⟨oldfd, old, hmem, rfl⟩
        rw [hempty] at hset
        simp at hset
      obtain ⟨s', hreplace, hinv''⟩ := FdInv.replace (p := p) (a := a)
        (h := { h with fdNumber := newfd, flags := h.flags &&& ~~~fdCloexec }) hinv' hp ha hlow
        hused
      refine ⟨newfd, s', ?_, hinv''⟩
      rw [hh, bind_eq_bind, bind_some, hget, bind_eq_bind, bind_some]
      rw [hreplace]
      rfl

end Calls

/-! ## fork -/

section Fork

variable {s : FdState} {x : ForkFds} {p : ℕ}

abbrev FdCopy := (BitVec 32 × ℕ) × ℕ

structure Copies (s : FdState) (items : List FdCopy) : Prop where
  numbers : (items.map fun e => e.1.1).Nodup
  addresses : (items.map Prod.snd).Nodup
  free : ∀ e ∈ items, s.handles e.2 = none
  opened : ∀ e ∈ items, ∃ h, s.handles e.1.2 = some h ∧ h.fdNumber = e.1.1 ∧ h.fileHandle ∈ s.held

structure CopyInv (s : FdState) (seen : List FdCopy) (x : ForkFds) : Prop where
  good : x.fdList.Good fdHash
  copied : (entries x.fdList.slots).Perm (seen.map fun e => (e.1.1, e.2))
  handles : ∀ e ∈ seen, x.handles e.2 = s.handles e.1.2
  kept : ∀ a, a ∉ seen.map Prod.snd → x.handles a = s.handles a
  counted : Live (s.held + (seen : Multiset FdCopy).filterMap
    fun e => (s.handles e.1.2).map FdHandle.fileHandle) (refcnts x.files)

theorem CopyInv.pass {seen rest : List FdCopy} {e : FdCopy} (hcopies : Copies s (seen ++ e :: rest))
    (hinv : CopyInv s seen x) :
    ∃ x', forkHandle x (e.1.2, e.2) = some x' ∧ CopyInv s (seen ++ [e]) x' := by
  obtain ⟨⟨fd, old⟩, new⟩ := e
  have hmem : ((fd, old), new) ∈ seen ++ ((fd, old), new) :: rest := by simp
  obtain ⟨h, hh, hnum, hheld⟩ := hcopies.opened _ hmem
  -- The handle of the parent is not one of the copies: their addresses were free.
  have hold : x.handles old = some h := by
    rw [hinv.kept old, hh]
    intro hcopy
    obtain ⟨e, he, heq⟩ := List.mem_map.mp hcopy
    have hfree := hcopies.free e (by simp [he])
    rw [heq, hh] at hfree
    simp at hfree
  obtain ⟨files, hget, hlive⟩ := fileGet_spec hinv.counted
    (mem_add.mpr (.inl hheld) : h.fileHandle ∈ _)
  have hfresh : fd ∉ keys x.fdList.slots := by
    intro hkey
    obtain ⟨a, ha⟩ := mem_keys_iff.mp hkey
    obtain ⟨e, he, heq⟩ := List.mem_map.mp (hinv.copied.mem_iff.mp ha)
    have hnodup := hcopies.numbers
    rw [List.map_append, List.nodup_append] at hnodup
    exact hnodup.2.2 e.1.1 (List.mem_map_of_mem he) fd (by simp) (Prod.mk.inj heq).1
  have hnew : new ∉ seen.map Prod.snd := by
    intro hcopy
    have hnodup := hcopies.addresses
    rw [List.map_append, List.nodup_append] at hnodup
    exact hnodup.2.2 new hcopy new (by simp) rfl
  obtain ⟨hgood, hperm⟩ := hashTablePush_fresh (d := new) hinv.good hfresh
  subst hnum
  refine ⟨⟨update x.handles new (some h), files,
    hashTablePush fdHash x.fdList h.fdNumber new⟩, ?_, hgood, ?_, ?_, ?_, ?_⟩
  · unfold forkHandle
    dsimp only
    rw [hold, bind_eq_bind, bind_some, hget]
    rfl
  · rw [List.map_append]
    exact (hperm.trans (hinv.copied.cons _)).trans (List.perm_append_singleton _ _).symm
  · intro e he
    rcases List.mem_append.mp he with he | he
    · have hne : e.2 ≠ new := fun heq => hnew (heq ▸ List.mem_map_of_mem he)
      exact (update_of_ne hne ..).trans (hinv.handles e he)
    · obtain rfl := mem_singleton.mp he
      exact (update_self ..).trans hh.symm
  · intro a ha
    rw [List.map_append, List.mem_append, not_or] at ha
    have hne : a ≠ new := by simpa using ha.2
    exact (update_of_ne hne ..).trans (hinv.kept a ha.1)
  · -- One reference more, to the file of the handle.
    have hseen : ((seen ++ [((h.fdNumber, old), new)] : List FdCopy) : Multiset FdCopy) =
        ((h.fdNumber, old), new) ::ₘ (seen : Multiset FdCopy) := by
      rw [cons_coe, coe_eq_coe]
      exact List.perm_append_singleton _ _
    rw [hseen, filterMap_cons_some _ _ _ (by rw [hh]; rfl), add_cons]
    exact hlive

theorem CopyInv.loop : ∀ {rest seen : List FdCopy} {x : ForkFds}, Copies s (seen ++ rest) →
    CopyInv s seen x →
    ∃ x', (rest.map fun e => (e.1.2, e.2)).foldlM forkHandle x = some x' ∧
      CopyInv s (seen ++ rest) x'
  | [], seen, x, _, hinv => ⟨x, rfl, by rwa [List.append_nil]⟩
  | e :: rest, seen, x, hcopies, hinv => by
    obtain ⟨x₁, hpass, hinv₁⟩ := hinv.pass hcopies
    have hassoc : seen ++ e :: rest = seen ++ [e] ++ rest := by simp
    rw [hassoc] at hcopies
    obtain ⟨x₂, hloop, hinv₂⟩ := CopyInv.loop hcopies hinv₁
    rw [hassoc]
    refine ⟨x₂, ?_, hinv₂⟩
    rw [List.map_cons, List.foldlM_cons, hpass]
    exact hloop

def copiedEntries (s : FdState) (c : ForkCall) : List FdCopy :=
  (entries (s.sched.tasks c.current).fdList.slots).zip c.handles

variable {c : ForkCall}

theorem copiedEntries_fst
    (hlen : c.handles.length = (tablePointers (s.sched.tasks c.current).fdList).length) :
    (copiedEntries s c).map Prod.fst = entries (s.sched.tasks c.current).fdList.slots :=
  List.map_fst_zip (by rw [hlen, tablePointers, List.length_map])

theorem copiedEntries_snd
    (hlen : c.handles.length = (tablePointers (s.sched.tasks c.current).fdList).length) :
    (copiedEntries s c).map Prod.snd = c.handles :=
  List.map_snd_zip (by rw [hlen, tablePointers, List.length_map])

theorem FdInv.copies (hinv : FdInv 0 s) (hvalid : FdOp.Valid s (.fork c)) :
    Copies s (copiedEntries s c) := by
  obtain ⟨hp, -, -, hlen, hnodup, hfree⟩ := hvalid
  have ht := hinv.tables c.current hp
  refine ⟨?_, ?_, fun e he => ?_, fun e he => ?_⟩
  · have hkeys := ht.good.keys_nodup
    rwa [Probe.keys, ← copiedEntries_fst hlen, List.map_map] at hkeys
  · rwa [copiedEntries_snd hlen]
  · exact hfree e.2 (copiedEntries_snd hlen ▸ List.mem_map_of_mem he)
  · have hmem := copiedEntries_fst hlen ▸ List.mem_map_of_mem he
    exact (hinv.translated hp ((hashTableSearch_eq_some_iff ht.good).mpr hmem)).2

theorem CopyInv.tableOk {t : SchedTask} (ht : TableOk t)
    (hinv : CopyInv s (copiedEntries s c) x)
    (hentries : (copiedEntries s c).map Prod.fst = entries t.fdList.slots) :
    TableOk (forkTask c t x.fdList) := by
  have hmem : ∀ fd, (∃ a, (fd, a) ∈ entries x.fdList.slots) ↔
      ∃ a, (fd, a) ∈ entries t.fdList.slots := by
    intro fd
    simp only [hinv.copied.mem_iff, ← hentries, List.mem_map, Prod.exists, Prod.mk.injEq]
    constructor
    · rintro ⟨new, fd', old, new', he, rfl, rfl⟩
      exact ⟨old, fd', old, new', he, rfl, rfl⟩
    · rintro ⟨old, fd', old', new, he, rfl, rfl⟩
      exact ⟨new, fd', old', new, he, rfl, rfl⟩
  have hset : ∀ m, t.fdBitmap.test m = true → m < 512 := by
    intro m hm
    obtain ⟨fd, a, hentry, rfl⟩ := (ht.bits m).mp hm
    exact ht.low fd a hentry
  refine ⟨ht.small.dup, hinv.good, fun fd a hentry => ?_, fun n => ?_⟩
  · obtain ⟨old, hold⟩ := (hmem fd).mp ⟨a, hentry⟩
    exact ht.low fd old hold
  · dsimp only [forkTask]
    rw [ht.small.test_dup hset, ht.bits]
    constructor
    · rintro ⟨fd, a, hentry, hn⟩
      obtain ⟨new, hnew⟩ := (hmem fd).mpr ⟨a, hentry⟩
      exact ⟨fd, new, hnew, hn⟩
    · rintro ⟨fd, a, hentry, hn⟩
      obtain ⟨old, hold⟩ := (hmem fd).mp ⟨a, hentry⟩
      exact ⟨fd, old, hold, hn⟩

def FdState.forked (s : FdState) (c : ForkCall) (x : ForkFds) : FdState :=
  ⟨forkSched c x.fdList s.sched, x.handles, x.files⟩

theorem forked_fdList {q : ℕ} (hq : q ≠ c.task) :
    ((s.forked c x).sched.tasks q).fdList = (s.sched.tasks q).fdList ∧
      ((s.forked c x).sched.tasks q).fdBitmap = (s.sched.tasks q).fdBitmap := by
  unfold FdState.forked forkSched
  dsimp only
  by_cases hcurrent : q = c.current
  · subst hcurrent
    rw [update_self]
    exact ⟨rfl, rfl⟩
  · rw [update_of_ne hcurrent, update_of_ne hq]
    exact ⟨rfl, rfl⟩

theorem forked_child (hne : c.task ≠ c.current) :
    (s.forked c x).sched.tasks c.task = forkTask c (s.sched.tasks c.current) x.fdList := by
  unfold FdState.forked forkSched
  dsimp only
  rw [update_of_ne hne, update_self]

theorem TableOk.congr {t t' : SchedTask} (ht : TableOk t) (hlist : t'.fdList = t.fdList)
    (hbitmap : t'.fdBitmap = t.fdBitmap) : TableOk t' := by
  obtain ⟨hsmall, hgood, hlow, hbits⟩ := ht
  exact ⟨hbitmap ▸ hsmall, hlist ▸ hgood, hlist ▸ hlow, hlist ▸ hbitmap ▸ hbits⟩

theorem FdInv.fork (hinv : FdInv 0 s) (hvalid : FdOp.Valid s (.fork c)) :
    ∃ s', syscallFork c s = some (c.pid, s') ∧ FdInv 0 s' := by
  have hcopies := hinv.copies hvalid
  obtain ⟨hp, hchild, hpid, hlen, hnodup, hfree⟩ := hvalid
  have hstart : CopyInv s [] ⟨s.handles, s.files, HashTable.empty⟩ :=
    ⟨good_empty, by simp [HashTable.empty, entries], nofun, fun _ _ => rfl, by
      simpa using hinv.counted⟩
  obtain ⟨x, hloop, hcopied⟩ : ∃ x, ((copiedEntries s c).map fun e => (e.1.2, e.2)).foldlM
      forkHandle ⟨s.handles, s.files, HashTable.empty⟩ = some x ∧ CopyInv s (copiedEntries s c) x :=
    CopyInv.loop hcopies hstart
  have hfork : syscallFork c s = some (c.pid, s.forked c x) := by
    unfold syscallFork forkHandles
    rw [tablePointers, List.zip_map_left]
    exact congrArg (Option.map _) hloop
  refine ⟨_, hfork, ?_⟩
  -- The tasks: those there were, and the child.
  obtain ⟨hgood, hperm⟩ := hashTablePush_fresh (d := c.task) hinv.good hpid
  have hlive : (s.forked c x).live.Perm (c.task :: s.live) := hperm.map Prod.snd
  have hne : ∀ q ∈ s.live, q ≠ c.task := fun q hq heq => hchild (heq ▸ hq)
  have hself := forked_child (s := s) (x := x) (hne c.current hp).symm
  -- The entries: those there were, and the copies.
  have hrefs : (s.forked c x).refs =
      (((copiedEntries s c).map fun e => (c.task, e.1.1, e.2) : List _) : Multiset _) + s.refs := by
    unfold FdState.refs
    rw [coe_eq_coe.mpr hlive, ← cons_coe, cons_bind, hself]
    congr 1
    · rw [tableRefs, coe_eq_coe]
      refine (hcopied.copied.map _).trans (List.Perm.of_eq ?_)
      rw [List.map_map]
      rfl
    · exact bind_congr fun q hq => by rw [(forked_fdList (hne q hq)).1]
  have hkept : ∀ r ∈ s.refs, x.handles r.2.2 = s.handles r.2.2 := by
    intro r hr
    refine hcopied.kept _ fun hmem => ?_
    rw [copiedEntries_snd hlen] at hmem
    exact hinv.handle_ne (hfree _ hmem) hr rfl
  refine ⟨hgood, ?_, fun q hq => ?_, fun r hr => ?_, ?_, ?_⟩
  · exact hlive.nodup_iff.mpr (List.nodup_cons.mpr ⟨hchild, hinv.nodup⟩)
  · rcases List.mem_cons.mp (hlive.mem_iff.mp hq) with rfl | hq
    · rw [hself]
      exact hcopied.tableOk (hinv.tables c.current hp) (copiedEntries_fst hlen)
    · obtain ⟨hlist, hbitmap⟩ := forked_fdList (s := s) (x := x) (hne q hq)
      exact (hinv.tables q hq).congr hlist hbitmap
  · rw [hrefs] at hr
    rcases mem_add.mp hr with hr | hr
    · obtain ⟨e, he, rfl⟩ := List.mem_map.mp (mem_coe.mp hr)
      obtain ⟨h, hh, hnum, -⟩ := hcopies.opened e he
      exact ⟨h, (hcopied.handles e he).trans hh, hnum⟩
    · obtain ⟨h, hh, hnum⟩ := hinv.keyed r hr
      exact ⟨h, (hkept r hr).trans hh, hnum⟩
  · rw [hrefs, map_add, Multiset.map_coe, List.map_map]
    have hnews : (copiedEntries s c).map ((fun r : ℕ × BitVec 32 × ℕ => r.2.2) ∘
        fun e => (c.task, e.1.1, e.2)) = c.handles := copiedEntries_snd hlen
    rw [hnews, nodup_add]
    refine ⟨hnodup, hinv.owned, disjoint_left.mpr fun {a} ha hold => ?_⟩
    obtain ⟨r, hr, rfl⟩ := mem_map.mp hold
    exact hinv.handle_ne (hfree _ ha) hr rfl
  · have hheld : (s.forked c x).held = s.held + (copiedEntries s c : Multiset FdCopy).filterMap
          fun e => (s.handles e.1.2).map FdHandle.fileHandle := by
      unfold FdState.held
      rw [hrefs, filterMap_add, add_comm]
      congr 1
      · exact filterMap_congr fun r hr => congrArg _ (hkept r hr)
      · rw [← Multiset.map_coe, filterMap_map]
        exact filterMap_congr fun e he => congrArg _ (hcopied.handles e he)
    rw [hheld, zero_add]
    exact hcopied.counted

end Fork

/-! ## Every call -/

/-- **The call finds its numbers below 512**: there is a clear bit for every number it hands out,
and the target of `dup2` is below 512. -/
def Fits (s : FdState) : FdOp → Prop
  | .openat task _ opened _ _ => ∀ asset, opened = .ok asset → HasRoom (s.sched.tasks task).fdBitmap
  | .pipe task _ => ∃ m < 512, ∃ n < 512, m ≠ n ∧ (s.sched.tasks task).fdBitmap.test m = false ∧
      (s.sched.tasks task).fdBitmap.test n = false
  | .dup task fd _ _ => s.translate task fd ≠ none → HasRoom (s.sched.tasks task).fdBitmap
  | .dup2 _ _ newfd _ => newfd.toNat < 512
  | .close _ _ => True
  | .fork _ => True

variable {s : FdState} {op : FdOp}

theorem FdInv.call (hinv : FdInv 0 s) (hvalid : op.Valid s)
    (hfits : Fits s op) :
    ∃ ns s', fdNext s op = some (ns, s') ∧ FdInv 0 s' ∧ (∀ n ∈ ns, s.translate op.task n = none) ∧
      ∀ task fd, op = .close task fd → task ∈ s'.live ∧ s'.translate task fd = none := by
  cases op with
  | openat task flags opened handle file =>
    obtain ⟨hp, ha, hf⟩ := hvalid
    obtain ⟨n, s', hcall, hinv', hn⟩ := hinv.openat flags hp ha hf hfits
    exact ⟨[n], s', congrArg (Option.map _) hcall, hinv', by simpa using hn, nofun⟩
  | pipe task c =>
    obtain ⟨m, hm, n, hn, hmn, hmclear, hnclear⟩ := hfits
    obtain ⟨r, w, s', hcall, hinv', hr, hw⟩ := hinv.pipe hvalid hm hn hmn hmclear hnclear
    exact ⟨[r, w], s', congrArg (Option.map _) hcall, hinv', by simpa using ⟨hr, hw⟩, nofun⟩
  | dup task fd clearCloexec handle =>
    obtain ⟨hp, ha⟩ := hvalid
    obtain ⟨n, s', hcall, hinv', hn⟩ := hinv.dup clearCloexec hp ha hfits
    exact ⟨[n], s', congrArg (Option.map _) hcall, hinv', by simpa using hn, nofun⟩
  | dup2 task oldfd newfd handle =>
    obtain ⟨hp, ha⟩ := hvalid
    obtain ⟨n, s', hcall, hinv'⟩ := hinv.dup2 oldfd hp ha hfits
    exact ⟨[], s', congrArg (Option.map _) hcall, hinv', nofun, nofun⟩
  | close task fd =>
    obtain ⟨n, s', hcall, hinv', hlive, hclosed⟩ := hinv.closeCall fd hvalid.1
    refine ⟨[], s', congrArg (Option.map _) hcall, hinv', nofun, ?_⟩
    rintro _ _ ⟨rfl, rfl⟩
    exact ⟨hlive ▸ hvalid.1, hclosed⟩
  | fork c =>
    obtain ⟨s', hcall, hinv'⟩ := hinv.fork hvalid
    exact ⟨[], s', congrArg (Option.map _) hcall, hinv', nofun, nofun⟩

theorem FdInv.step {s' : FdState} (hinv : FdInv 0 s) (hstep : fdStep s op s')
    (hfits : Fits s op) : FdInv 0 s' := by
  obtain ⟨ns, s₁, hnext, hinv', -⟩ := hinv.call hstep.1 hfits
  have hpost := hstep.2
  rw [hnext] at hpost
  exact some.inj hpost ▸ hinv'

/-- At the start there are tasks with empty tables, and no file is open. -/
structure FdInit (s : FdState) : Prop where
  good : s.sched.taskList.Good addressHash
  nodup : s.live.Nodup
  tables : ∀ p ∈ s.live,
    (s.sched.tasks p).fdList = HashTable.empty ∧ (s.sched.tasks p).fdBitmap = Bitmap.empty
  files : ∀ f, s.files f = none

theorem FdInit.inv (h : FdInit s) : FdInv 0 s := by
  have hentries : entries (HashTable.empty : HashTable (BitVec 32) ℕ).slots = [] := rfl
  have hrefs : s.refs = 0 := by
    refine eq_zero_of_forall_notMem fun ⟨p, fd, a⟩ hmem => ?_
    obtain ⟨hp, hentry⟩ := mem_refs.mp hmem
    rw [(h.tables p hp).1] at hentry
    exact absurd hentry (List.not_mem_nil)
  refine ⟨h.good, h.nodup, fun p hp => ?_, ?_, ?_, ?_⟩
  · obtain ⟨hlist, hbitmap⟩ := h.tables p hp
    refine ⟨hbitmap ▸ Bitmap.small_empty, hlist ▸ good_empty, ?_, fun n => ?_⟩
    · rw [hlist]
      exact nofun
    · rw [hbitmap, hlist, hentries]
      simp
  · rw [hrefs]
    exact nofun
  · rw [hrefs]
    exact nodup_zero
  · have hheld : s.held = 0 := by
      rw [FdState.held, hrefs, filterMap_zero]
    intro f
    rw [hheld, refcnts, h.files f]
    simp

/-! ## Bitmaps and tables -/

/-- **The bitmaps and the tables agree**: bit `n` of a task is set exactly if its table has a
handle with the number `n`. -/
def TablesAgree (s : FdState) : Prop :=
  ∀ p ∈ s.live, ∀ n, (s.sched.tasks p).fdBitmap.test n = true ↔
    ∃ a ∈ tablePointers (s.sched.tasks p).fdList, ∃ h, s.handles a = some h ∧ h.fdNumber.toNat = n

theorem FdInv.agree {extra : Multiset ℕ} (hinv : FdInv extra s) : TablesAgree s := by
  intro p hp n
  rw [(hinv.tables p hp).bits]
  constructor
  · rintro ⟨fd, a, hmem, rfl⟩
    obtain ⟨h, hh, hnum⟩ := hinv.keyed _ (mem_refs.mpr ⟨hp, hmem⟩)
    exact ⟨a, mem_tablePointers_iff.mpr ⟨fd, hmem⟩, h, hh, by rw [hnum]⟩
  · rintro ⟨a, ha, h, hh, rfl⟩
    obtain ⟨fd, hmem⟩ := mem_tablePointers_iff.mp ha
    obtain ⟨h', hh', hnum⟩ := hinv.keyed _ (mem_refs.mpr ⟨hp, hmem⟩)
    obtain rfl := some.inj (hh.symm.trans hh')
    exact ⟨fd, a, hmem, congrArg BitVec.toNat hnum.symm⟩

/-- What the numbers of a call are: those it hands out were not open, and the one that is closed
is not open afterwards and has a clear bit, so that it can be handed out again. -/
def NumbersRight (e : Event FdState FdOp) : Prop :=
  (∀ ns s', fdNext e.pre e.act = some (ns, s') →
    ∀ n ∈ ns, e.pre.translate e.act.task n = none) ∧
  ∀ task fd, e.act = .close task fd →
    e.post.translate task fd = none ∧ (e.post.sched.tasks task).fdBitmap.test fd.toNat = false

theorem FdInv.numbersRight {s' : FdState} (hinv : FdInv 0 s) (hstep : fdStep s op s')
    (hfits : Fits s op) : NumbersRight ⟨s, op, s'⟩ := by
  obtain ⟨ns, s₁, hnext, hinv', hfree, hclosed⟩ := hinv.call hstep.1 hfits
  have hpost := hstep.2
  rw [hnext] at hpost
  cases hpost
  refine ⟨fun ns' s₂ hnext' => ?_, fun task fd hop => ?_⟩
  · rw [hnext] at hnext'
    obtain rfl := (Prod.mk.inj (some.inj hnext')).1
    exact hfree
  · obtain ⟨hp, hnone⟩ := hclosed task fd hop
    exact ⟨hnone, (hinv'.tables task hp).clear_of_search hnone⟩

/-- **Bitmaps and tables agree** in every state of a run whose calls find their numbers below 512.
-/
theorem tables_agree_of_fits {s₀ s : FdState} {tr : List (Event FdState FdOp)} (hinit : FdInit s₀)
    (run : Run fdStep s₀ tr s) (hfits : ∀ e ∈ tr, Fits e.pre e.act) :
    TablesAgree s ∧ ∀ e ∈ tr, TablesAgree e.pre ∧ TablesAgree e.post ∧ NumbersRight e := by
  have hkeep : ∀ s op s', FdInv 0 s → fdStep s op s' ∧ Fits s op → FdInv 0 s' :=
    fun s op s' hinv h => hinv.step h.1 h.2
  have hguarded := run.restrict (Q := fun e => Fits e.pre e.act) hfits
  refine ⟨(hguarded.invariant (I := fun _ s => FdInv 0 s) hinit.inv fun _ => hkeep).agree, ?_⟩
  refine hguarded.forall_event (I := FdInv 0)
    (P := fun e => TablesAgree e.pre ∧ TablesAgree e.post ∧ NumbersRight e) hinit.inv hkeep ?_
  exact fun s op s' hinv h => ⟨hinv.agree, (hkeep s op s' hinv h).agree, hinv.numbersRight h.1 h.2⟩

/-! ### Runs from the boot on -/

instance (s : FdState) : (op : FdOp) → Decidable (op.Valid s)
  | .openat .. => inferInstanceAs (Decidable (_ ∧ _ ∧ _))
  | .pipe .. => inferInstanceAs (Decidable (_ ∧ _ ∧ _ ∧ _ ∧ _ ∧ _ ∧ _))
  | .dup .. => inferInstanceAs (Decidable (_ ∧ _))
  | .dup2 .. => inferInstanceAs (Decidable (_ ∧ _))
  | .close .. => inferInstanceAs (Decidable (_ ∧ True))
  | .fork _ => inferInstanceAs (Decidable (_ ∧ _ ∧ _ ∧ _ ∧ _ ∧ _))

def bootFds : FdState := ⟨bootSched, fun _ => none, fun _ => none⟩

theorem fdInit_boot : FdInit bootFds := by
  have hone : (hashTablePush addressHash HashTable.empty 0#64 1).Good addressHash :=
    (hashTablePush_fresh good_empty (by decide)).1
  have hlive : bootFds.live = [2, 1] := by decide +kernel
  exact ⟨(hashTablePush_fresh hone (by decide +kernel)).1, by rw [hlive]; decide,
    fun _ _ => ⟨rfl, rfl⟩, fun _ => rfl⟩

def fdCall (s : FdState) (op : FdOp) : Option FdState :=
  if op.Valid s then (fdNext s op).map Prod.snd else none

theorem fdStep_of_fdCall {s' : FdState} (h : fdCall s op = some s') : fdStep s op s' :=
  ite_none_right_eq_some.mp h

def plainlyFits (s : FdState) (op : FdOp) : Bool :=
  !(s.sched.tasks op.task).fdBitmap.test 100 && !(s.sched.tasks op.task).fdBitmap.test 101 &&
    match op with
    | .dup2 _ _ newfd _ => decide (newfd.toNat < 512)
    | _ => true

theorem fits_of_plainlyFits (h : plainlyFits s op = true) :
    Fits s op := by
  simp only [plainlyFits, Bool.and_eq_true, Bool.not_eq_true'] at h
  obtain ⟨⟨h100, h101⟩, hop⟩ := h
  cases op with
  | openat task flags opened handle file => exact fun _ _ => ⟨100, by decide, h100⟩
  | pipe task c => exact ⟨100, by decide, 101, by decide, by decide, h100, h101⟩
  | dup task fd clearCloexec handle => exact fun _ => ⟨100, by decide, h100⟩
  | dup2 task oldfd newfd handle => simpa [Fits] using hop
  | close task fd => trivial
  | fork c => trivial

def sharedFile : List FdOp :=
  [.openat 2 0#32 (.ok 30) 10 20, .dup2 2 0#32 5#32 11,
    .fork { bootFork with handles := [12, 13] }, .close 2 5#32, .close 3 5#32]

theorem tables_agree_of_fits_shared : ∃ tr s, tr.map Event.act = sharedFile ∧
    Run fdStep bootFds tr s ∧ TablesAgree s := by
  obtain ⟨tr, s, run, hacts, hfits⟩ := Run.computed (f := fdCall)
    (P := fun tr _ => ∀ e ∈ tr, plainlyFits e.pre e.act) bootFds sharedFile (by decide +kernel)
  have run' := run.mono fun _ _ _ => fdStep_of_fdCall
  exact ⟨tr, s, hacts, run',
    (tables_agree_of_fits fdInit_boot run' fun e he => fits_of_plainlyFits (hfits e he)).1⟩

/-- **A closed number above 512 is never available again**: `bitmap_free` ignores it, as it is more
than the 512 bytes that `size` counts, and the bit stays set. -/
theorem closed_number_stays_set : ∃ tr s, tr.map Event.act =
      [.openat 2 0#32 (.ok 30) 10 20, .dup2 2 0#32 600#32 11, .close 2 600#32] ∧
    Run fdStep bootFds tr s ∧ s.translate 2 600#32 = none ∧
    (s.sched.tasks 2).fdBitmap.test 600 = true ∧ ¬ TablesAgree s := by
  obtain ⟨tr, s, run, hacts, hlive, hnone, hset, hhandles⟩ := Run.computed (f := fdCall)
    (P := fun _ s => s.live = [2, 1] ∧ s.translate 2 600#32 = none ∧
      (s.sched.tasks 2).fdBitmap.test 600 = true ∧
      (tablePointers (s.sched.tasks 2).fdList).map s.handles = [some ⟨20, 0#32, 0#32⟩]) bootFds
    [.openat 2 0#32 (.ok 30) 10 20, .dup2 2 0#32 600#32 11, .close 2 600#32] (by decide +kernel)
  refine ⟨tr, s, hacts, run.mono fun _ _ _ => fdStep_of_fdCall, hnone, hset, fun hagree => ?_⟩
  obtain ⟨a, ha, h, hh, hnum⟩ := (hagree 2 (by simp [hlive]) 600).mp hset
  have hmem := List.mem_map_of_mem (f := s.handles) ha
  rw [hhandles, hh] at hmem
  obtain rfl := Option.some.inj (mem_singleton.mp hmem)
  exact absurd hnum (by decide)

/-! ## Files -/

def FdState.entriesTo (s : FdState) (f : ℕ) : ℕ :=
  s.refs.countP fun r => fileOf s.handles r = some f

theorem count_held (s : FdState) (f : ℕ) : s.held.count f = s.entriesTo f := by
  unfold FdState.held FdState.entriesTo
  induction s.refs using Multiset.induction with
  | empty => simp
  | cons r m ih =>
    rw [countP_cons, ← ih]
    cases hfile : fileOf s.handles r with
    | none => rw [filterMap_cons_none _ _ hfile]; simp
    | some g =>
      rw [filterMap_cons_some _ _ _ hfile, count_cons]
      simp [eq_comm]

/-- **The files are counted**: a file is allocated exactly if some entry points to it, and its
count is the number of these entries. -/
def FilesCounted (s : FdState) : Prop :=
  ∀ f, refcnts s.files f = if s.entriesTo f = 0 then none else some (s.entriesTo f : ℤ)

theorem FdInv.filesCounted (hinv : FdInv 0 s) : FilesCounted s := by
  intro f
  have hcount := hinv.counted f
  rw [zero_add] at hcount
  rw [hcount, ← count_held]
  by_cases hf : f ∈ s.held
  · rw [if_pos hf, if_neg (count_ne_zero.mpr hf)]
  · rw [if_neg hf, if_pos (count_eq_zero.mpr hf)]

/-- All numbers of the call are below 512: the target of `dup2`, and the numbers handed out. -/
def NumbersLow (s : FdState) (op : FdOp) : Prop :=
  (∀ task oldfd newfd handle, op = .dup2 task oldfd newfd handle → newfd.toNat < 512) ∧
  ∀ ns s', fdNext s op = some (ns, s') → ∀ n ∈ ns, n ≠ -1#32 → n.toNat < 512

section Low

variable {s : FdState} {p : ℕ} {b b' : Bitmap} {n : ℕ}

theorem alloc_le {m : ℕ} (halloc : b.alloc = some (n, b')) (hclear : b.test m = false) : n ≤ m := by
  obtain ⟨-, hbelow, -⟩ := Bitmap.alloc_spec halloc
  by_contra hlt
  rw [hbelow m (by omega)] at hclear
  simp at hclear

theorem TableOk.clear_above {t : SchedTask} (ht : TableOk t) {m : ℕ} (hm : 512 ≤ m) :
    t.fdBitmap.test m = false := by
  by_contra hset
  obtain ⟨fd, a, hmem, rfl⟩ := (ht.bits m).mp (Bool.of_not_eq_false hset)
  exact absurd (ht.low fd a hmem) (by omega)

theorem low_of_descriptor (hn : n ≤ 600)
    (hlow : BitVec.ofNat 32 n ≠ -1#32 → (BitVec.ofNat 32 n).toNat < 512) : n < 512 := by
  have hnum : (BitVec.ofNat 32 n).toNat = n := by
    exact Nat.mod_eq_of_lt (by omega)
  rw [hnum] at hlow
  refine hlow fun hminus => ?_
  rw [hminus] at hnum
  have hone : (-1#32).toNat = 4294967295 := by decide
  omega

theorem FdInv.fits_of_low {op : FdOp} {s' : FdState} (hinv : FdInv 0 s) (hstep : fdStep s op s')
    (hlow : NumbersLow s op) : Fits s op := by
  obtain ⟨hvalid, hpost⟩ := hstep
  obtain ⟨⟨ns, s₁⟩, hnext, -⟩ := map_eq_some_iff.mp hpost
  obtain ⟨htarget, hnumbers⟩ := hlow
  have hnumbers := hnumbers ns s₁ hnext
  have ht := hinv.tables op.task hvalid.1
  cases op with
  | openat task flags opened handle file =>
    rintro asset rfl
    obtain ⟨⟨n, s₂⟩, hcall, hr⟩ := map_eq_some_iff.mp hnext
    obtain ⟨⟨k, b⟩, halloc, hcall⟩ := bind_eq_some_iff.mp hcall
    cases hcall
    cases hr
    have hk := alloc_le halloc (ht.clear_above (le_refl 512))
    have hk' := low_of_descriptor (by omega) (hnumbers _ (mem_singleton.mpr rfl))
    exact ⟨k, hk', (Bitmap.alloc_spec halloc).1⟩
  | pipe task c =>
    obtain ⟨⟨⟨n, m⟩, s₂⟩, hcall, hr⟩ := map_eq_some_iff.mp hnext
    obtain ⟨⟨k, b⟩, halloc, hcall⟩ := bind_eq_some_iff.mp hcall
    obtain ⟨⟨l, b'⟩, halloc', hcall⟩ := bind_eq_some_iff.mp hcall
    obtain ⟨hpair, -⟩ := Prod.mk.inj (some.inj hcall)
    cases hpair
    cases hr
    obtain ⟨hkclear, -, -, hbits⟩ := Bitmap.alloc_spec halloc
    have hk := alloc_le halloc (ht.clear_above (le_refl 512))
    have hk' := low_of_descriptor (by omega) (hnumbers (BitVec.ofNat 32 k) (by simp))
    -- The second number is clear in the bitmap with the first one set.
    have hclear := ht.clear_above (by omega : 512 ≤ 513)
    have hl := alloc_le (m := 513) halloc' (by
      rw [hbits]
      simpa using ⟨by omega, hclear⟩)
    have hl' := low_of_descriptor (by omega) (hnumbers (BitVec.ofNat 32 l) (by simp))
    have hlclear := (Bitmap.alloc_spec halloc').1
    rw [hbits, Bool.or_eq_false_iff, decide_eq_false_iff_not] at hlclear
    exact ⟨k, hk', l, hl', fun heq => hlclear.1 heq.symm, hkclear, hlclear.2⟩
  | dup task fd clearCloexec handle =>
    intro hopen
    obtain ⟨⟨n, s₂⟩, hcall, hr⟩ := map_eq_some_iff.mp hnext
    obtain ⟨old, htranslate⟩ := ne_none_iff_exists'.mp hopen
    rw [fdDup, htranslate] at hcall
    obtain ⟨h, -, hcall⟩ := bind_eq_some_iff.mp hcall
    obtain ⟨⟨k, b⟩, halloc, hcall⟩ := bind_eq_some_iff.mp hcall
    obtain ⟨files, -, hcall⟩ := bind_eq_some_iff.mp hcall
    cases hcall
    cases hr
    have hk := alloc_le halloc (ht.clear_above (le_refl 512))
    have hk' := low_of_descriptor (by omega) (hnumbers _ (mem_singleton.mpr rfl))
    exact ⟨k, hk', (Bitmap.alloc_spec halloc).1⟩
  | dup2 task oldfd newfd handle => exact htarget _ _ _ _ rfl
  | close task fd => trivial
  | fork c => trivial

end Low

/-- **Files are counted and freed with their last entry**, along every run whose numbers lie between
0 and 511. -/
theorem files_counted {s₀ s : FdState} {tr : List (Event FdState FdOp)} (hinit : FdInit s₀)
    (run : Run fdStep s₀ tr s) (hlow : ∀ e ∈ tr, NumbersLow e.pre e.act) :
    FilesCounted s ∧
    (∀ e ∈ tr, ∀ f, e.pre.files f ≠ none → (e.post.files f = none ↔ e.post.entriesTo f = 0)) ∧
    ∀ op, op.Valid s → Fits s op → ∃ r, fdNext s op = some r := by
  have hkeep : ∀ s op s', FdInv 0 s → fdStep s op s' ∧ NumbersLow s op → FdInv 0 s' :=
    fun s op s' hinv h => hinv.step h.1 (hinv.fits_of_low h.1 h.2)
  have hguarded := run.restrict (Q := fun e => NumbersLow e.pre e.act) hlow
  have hinv := hguarded.invariant (I := fun _ s => FdInv 0 s) hinit.inv fun _ => hkeep
  refine ⟨hinv.filesCounted, ?_, fun op hvalid hfits => ?_⟩
  · refine hguarded.forall_event (I := FdInv 0) (P := fun e => ∀ f, e.pre.files f ≠ none →
      (e.post.files f = none ↔ e.post.entriesTo f = 0)) hinit.inv hkeep ?_
    intro s op s' hinv hstep f _
    have hcount := (hkeep s op s' hinv hstep).filesCounted f
    rw [refcnts] at hcount
    constructor
    · intro hnone
      rw [hnone] at hcount
      by_contra hentries
      rw [if_neg hentries] at hcount
      simp at hcount
    · intro hentries
      rw [if_pos hentries] at hcount
      exact map_eq_none_iff.mp hcount
  · obtain ⟨ns, s', hnext, -⟩ := hinv.call hvalid hfits
    exact ⟨_, hnext⟩

def plainlyLow (s : FdState) (op : FdOp) : Bool :=
  (match op with
    | .dup2 _ _ newfd _ => decide (newfd.toNat < 512)
    | _ => true) &&
  match fdNext s op with
  | some (ns, _) => ns.all fun n => n == -1#32 || decide (n.toNat < 512)
  | none => true

theorem numbersLow_of_plainlyLow (h : plainlyLow s op = true) :
    NumbersLow s op := by
  simp only [plainlyLow, Bool.and_eq_true] at h
  refine ⟨?_, fun ns s' hnext n hn hne => ?_⟩
  · rintro task oldfd newfd handle rfl
    simpa using h.1
  · rw [hnext] at h
    have hall := List.all_eq_true.mp h.2 n hn
    rw [Bool.or_eq_true, beq_iff_eq, decide_eq_true_iff] at hall
    exact hall.resolve_left hne

theorem files_counted_shared : ∃ tr s, tr.map Event.act = sharedFile ∧ Run fdStep bootFds tr s ∧
    s.entriesTo 20 = 2 ∧ FilesCounted s := by
  obtain ⟨tr, s, run, hacts, htwo, hlow⟩ := Run.computed (f := fdCall)
    (P := fun tr s => s.entriesTo 20 = 2 ∧ ∀ e ∈ tr, plainlyLow e.pre e.act) bootFds sharedFile
    (by decide +kernel)
  have run' := run.mono fun _ _ _ => fdStep_of_fdCall
  exact ⟨tr, s, hacts, run', htwo,
    (files_counted fdInit_boot run' fun e he => numbersLow_of_plainlyLow (hlow e he)).1⟩

end Pastoral
