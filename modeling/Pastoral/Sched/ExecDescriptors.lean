import Pastoral.Sched.Execve
import Pastoral.Sched.Fork

/-!
# Descriptors across execve

Which descriptors a task keeps when it calls execve.

## Main results

* `inherited_iff_plainFlags`: when these are the right ones
-/

open BitVec Function List Option Probe Transition

namespace Pastoral

/-! ## Tables -/

inductive TableOp
  | openat (flags : BitVec 32) (opened : Except (BitVec 64) ℕ) (handle file : ℕ)
  | dup (fd : BitVec 32) (clearCloexec : Bool) (handle : ℕ)
  | dup2 (oldfd newfd : BitVec 32) (handle : ℕ)
  | setfd (fd flags : BitVec 32)

def TableOp.Fresh (s : FdState) : TableOp → Prop
  | .openat _ _ handle _ => s.handles handle = none
  | .dup _ _ handle => s.handles handle = none
  | .dup2 _ _ handle => s.handles handle = none
  | .setfd _ _ => True

def tableNext (p : ℕ) (s : FdState) : TableOp → Option FdState
  | .openat flags opened handle file => (fdOpenat p flags opened handle file s).map Prod.snd
  | .dup fd clearCloexec handle => (fdDup p fd clearCloexec handle s).map Prod.snd
  | .dup2 oldfd newfd handle => (fdDup2 p oldfd newfd handle s).map Prod.snd
  | .setfd fd flags => (fcntlSetfd p fd flags s).map Prod.snd

/-- One call. -/
def tableStep (p : ℕ) (s : FdState) (op : TableOp) (s' : FdState) : Prop :=
  op.Fresh s ∧ tableNext p s op = some s' ∧ (s'.sched.tasks p).fdBitmap.size < 16384

/-- A table as a task has it at first: without descriptors. -/
structure FreshTable (t : SchedTask) : Prop where
  good : t.fdList.Good fdHash
  none : entries t.fdList.slots = []
  clear : ∀ n, t.fdBitmap.test n = false
  length : t.fdBitmap.data.length = t.fdBitmap.size
  aligned : 512 ∣ t.fdBitmap.size
  small : t.fdBitmap.size < 16384

structure TableKept (p : ℕ) (s : FdState) : Prop where
  good : (s.sched.tasks p).fdList.Good fdHash
  keyed : ∀ fd a, (fd, a) ∈ entries (s.sched.tasks p).fdList.slots →
    ∃ h, s.handles a = some h ∧ h.fdNumber = fd
  owned : (tablePointers (s.sched.tasks p).fdList).Nodup
  length : (s.sched.tasks p).fdBitmap.data.length = (s.sched.tasks p).fdBitmap.size
  aligned : 512 ∣ (s.sched.tasks p).fdBitmap.size

structure TableBuilt (p : ℕ) (s : FdState) : Prop extends TableKept p s where
  bits : ∀ n, (s.sched.tasks p).fdBitmap.test n = true ↔
    ∃ fd a, (fd, a) ∈ entries (s.sched.tasks p).fdList.slots ∧ fd.toNat = n
  small : (s.sched.tasks p).fdBitmap.size < 16384

theorem FreshTable.built {p : ℕ} {s : FdState} (h : FreshTable (s.sched.tasks p)) :
    TableBuilt p s where
  good := h.good
  keyed fd a hmem := by
    rw [h.none] at hmem
    exact absurd hmem not_mem_nil
  owned := by simp [tablePointers, h.none]
  length := h.length
  aligned := h.aligned
  bits n := by simp [h.none, h.clear]
  small := h.small

section Build

variable {p a : ℕ} {s s' : FdState} {fd : BitVec 32} {h : FdHandle} {b : Bitmap}

theorem TableKept.ne (hk : TableKept p s) (ha : s.handles a = none) {a' : ℕ}
    (hmem : (fd, a') ∈ entries (s.sched.tasks p).fdList.slots) : a' ≠ a := by
  rintro rfl
  obtain ⟨h, hh, -⟩ := hk.keyed fd a' hmem
  rw [hh] at ha
  simp at ha

theorem TableKept.place (hk : TableKept p s) (ha : s.handles a = none)
    (hfresh : h.fdNumber ∉ keys (s.sched.tasks p).fdList.slots)
    (hlen : b.data.length = b.size) (haligned : 512 ∣ b.size) (hsmall : b.size < 16384)
    (hbits : ∀ n, b.test n = true ↔ n = h.fdNumber.toNat ∨
      ∃ fd a, (fd, a) ∈ entries (s.sched.tasks p).fdList.slots ∧ fd.toNat = n) :
    TableBuilt p ((s.setBitmap p b).install p a h) := by
  obtain ⟨hgood, hperm⟩ := hashTablePush_fresh (d := a) hk.good hfresh
  have hself := install_setBitmap_self s p a b h
  have hnew : ((s.setBitmap p b).install p a h).handles a = some h := update_self ..
  refine ⟨⟨?_, ?_, ?_, ?_, ?_⟩, ?_, ?_⟩
  · rw [hself]
    exact hgood
  · intro fd a' hmem
    rw [hself] at hmem
    rcases mem_cons.mp (hperm.mem_iff.mp hmem) with heq | hold
    · cases heq
      exact ⟨h, hnew, rfl⟩
    · obtain ⟨h', hh', hnum⟩ := hk.keyed fd a' hold
      exact ⟨h', (update_of_ne (hk.ne ha hold) ..).trans hh', hnum⟩
  · rw [hself]
    refine (hperm.map Prod.snd).nodup_iff.mpr (nodup_cons.mpr ⟨fun hmem => ?_, hk.owned⟩)
    obtain ⟨⟨fd, a'⟩, hold, rfl⟩ := mem_map.mp hmem
    exact hk.ne ha hold rfl
  · rw [hself]
    exact hlen
  · rw [hself]
    exact haligned
  · intro n
    rw [hself]
    rw [hbits]
    simp only [hperm.mem_iff, mem_cons, Prod.mk.injEq]
    constructor
    · rintro (rfl | ⟨fd, a', hold, rfl⟩)
      · exact ⟨h.fdNumber, a, .inl ⟨rfl, rfl⟩, rfl⟩
      · exact ⟨fd, a', .inr hold, rfl⟩
    · rintro ⟨fd, a', ⟨rfl, -⟩ | hold, rfl⟩
      · exact .inl rfl
      · exact .inr ⟨fd, a', hold, rfl⟩
  · rw [hself]
    exact hsmall

theorem TableBuilt.remove {old : ℕ} (hk : TableBuilt p s) (files : ℕ → Option FileHandle)
    (hmem : (h.fdNumber, old) ∈ entries (s.sched.tasks p).fdList.slots) :
    TableKept p (s.remove p old h files) ∧
      h.fdNumber ∉ keys ((s.remove p old h files).sched.tasks p).fdList.slots ∧
      ((s.remove p old h files).sched.tasks p).fdBitmap.size = (s.sched.tasks p).fdBitmap.size ∧
      ∀ n ≠ h.fdNumber.toNat, ((s.remove p old h files).sched.tasks p).fdBitmap.test n = true ↔
        ∃ fd a, (fd, a) ∈ entries ((s.remove p old h files).sched.tasks p).fdList.slots ∧
          fd.toNat = n := by
  obtain ⟨hgood, hentries⟩ := hashTableDelete_good (k := h.fdNumber) hk.good
  have hperm := hashTableDelete_perm hk.good hmem
  have howned := (hperm.map Prod.snd).nodup_iff.mp hk.owned
  rw [map_cons, nodup_cons] at howned
  have hself : (s.remove p old h files).sched.tasks p = (s.sched.tasks p).fdClose h :=
    setTask_self ..
  have hsize : ((s.sched.tasks p).fdBitmap.free h.fdNumber.toNat).size =
      (s.sched.tasks p).fdBitmap.size := by
    unfold Bitmap.free
    split_ifs <;> rfl
  have hset := (hk.bits h.fdNumber.toNat).mpr ⟨_, _, hmem, rfl⟩
  refine ⟨⟨?_, ?_, ?_, ?_, ?_⟩, ?_, ?_, fun n hn => ?_⟩
  · rw [hself]
    exact hgood
  · intro fd a' hmem'
    rw [hself] at hmem'
    obtain ⟨h', hh', hnum⟩ := hk.keyed fd a' ((hentries fd a').mp hmem').2
    have hne : a' ≠ old := fun heq => howned.1 (mem_map.mpr ⟨(fd, a'), hmem', heq⟩)
    exact ⟨h', (update_of_ne hne ..).trans hh', hnum⟩
  · rw [hself]
    exact howned.2
  · rw [hself]
    exact (Bitmap.length_free _ _).trans (hk.length.trans hsize.symm)
  · rw [hself]
    exact hsize ▸ hk.aligned
  · rw [hself]
    intro hkey
    obtain ⟨a', hmem'⟩ := mem_keys_iff.mp hkey
    exact ((hentries _ a').mp hmem').1 rfl
  · rw [hself]
    exact hsize
  · -- Whether or not `bitmap_free` clears the bit, it is the only one.
    have htest : ((s.sched.tasks p).fdBitmap.free h.fdNumber.toNat).test n =
        (s.sched.tasks p).fdBitmap.test n := by
      unfold Bitmap.free
      split_ifs
      · rfl
      · refine (BitArray.test_clear (BitArray.lt_of_test hset)).trans ?_
        rw [decide_eq_false hn]
        rfl
    rw [hself]
    dsimp only [SchedTask.fdClose]
    rw [htest, hk.bits]
    simp only [hentries]
    constructor
    · rintro ⟨fd, a', hold, rfl⟩
      exact ⟨fd, a', ⟨fun heq => hn (by rw [heq]), hold⟩, rfl⟩
    · rintro ⟨fd, a', ⟨-, hold⟩, rfl⟩
      exact ⟨fd, a', hold, rfl⟩

theorem TableBuilt.allocate {n : ℕ} {f : ℕ} {flags : BitVec 32} (hk : TableBuilt p s)
    (ha : s.handles a = none) (halloc : (s.sched.tasks p).fdBitmap.alloc = some (n, b))
    (hsmall : b.size < 16384) :
    TableBuilt p ((s.setBitmap p b).install p a ⟨f, BitVec.ofNat 32 n, flags⟩) := by
  obtain ⟨hclear, -, hlt, hbits⟩ := Bitmap.alloc_spec halloc
  obtain ⟨hlen, haligned⟩ := Bitmap.alloc_size halloc hk.length
  have hnum : (BitVec.ofNat 32 n).toNat = n := by
    exact Nat.mod_eq_of_lt (by omega)
  refine hk.place ha ?_ hlen (haligned hk.aligned) hsmall fun m => ?_
  · intro hkey
    obtain ⟨a', hmem⟩ := mem_keys_iff.mp hkey
    have hset := (hk.bits n).mpr ⟨_, a', hmem, hnum⟩
    rw [hclear] at hset
    simp at hset
  · rw [hbits, Bool.or_eq_true, decide_eq_true_iff, hk.bits]
    rw [hnum]

theorem TableKept.placeBit (hk : TableKept p s) (ha : s.handles a = none)
    (hfresh : h.fdNumber ∉ keys (s.sched.tasks p).fdList.slots)
    (hlt : h.fdNumber.toNat < 8 * (s.sched.tasks p).fdBitmap.data.length)
    (hsmall : (s.sched.tasks p).fdBitmap.size < 16384)
    (hbits : ∀ n ≠ h.fdNumber.toNat, (s.sched.tasks p).fdBitmap.test n = true ↔
      ∃ fd a, (fd, a) ∈ entries (s.sched.tasks p).fdList.slots ∧ fd.toNat = n) :
    TableBuilt p ((s.setBit p h.fdNumber.toNat).install p a h) := by
  refine hk.place ha hfresh ?_ hk.aligned hsmall fun n => ?_
  · rw [BitArray.length_set]
    exact hk.length
  · have htest : BitArray.test (BitArray.set (s.sched.tasks p).fdBitmap.data h.fdNumber.toNat) n =
        (decide (n = h.fdNumber.toNat) || (s.sched.tasks p).fdBitmap.test n) :=
      BitArray.test_set hlt
    rw [Bitmap.test, htest, Bool.or_eq_true, decide_eq_true_iff]
    by_cases hn : n = h.fdNumber.toNat
    · exact ⟨fun _ => .inl hn, fun _ => .inl hn⟩
    · rw [hbits n hn]

theorem TableBuilt.replace (hk : TableBuilt p s) (ha : s.handles a = none)
    (hcall : fdReplace p h a s = some s') : TableBuilt p s' := by
  unfold fdReplace at hcall
  split_ifs at hcall with hlt hbit
  · -- The number is open, and its handle is closed.
    obtain ⟨s₁, hclose, hs'⟩ := bind_eq_some_iff.mp hcall
    obtain ⟨old, hold, hclose⟩ := bind_eq_some_iff.mp hclose
    have hmem := (hashTableSearch_eq_some_iff hk.good).mp hold
    obtain ⟨h', hh', hnum⟩ := hk.keyed _ _ hmem
    unfold fdCloseUnlocked at hclose
    rw [hh', bind_eq_bind, bind_some] at hclose
    obtain ⟨files, -, hs₁⟩ := bind_eq_some_iff.mp hclose
    cases hs₁
    cases hs'
    rw [← hnum] at hmem
    obtain ⟨hkept, hfresh, hsize, hbits⟩ := hk.remove files hmem
    rw [hnum] at hfresh hbits
    refine hkept.placeBit ?_ hfresh ?_ (hsize ▸ hk.small) hbits
    · by_cases heq : a = old
      · exact heq ▸ update_self ..
      · exact (update_of_ne heq ..).trans ha
    · rw [hkept.length, hsize, ← hk.length]
      exact hlt
  · cases hcall
    refine hk.placeBit ha ?_ hlt hk.small fun n _ => hk.bits n
    intro hkey
    obtain ⟨a', hmem⟩ := mem_keys_iff.mp hkey
    exact hbit ((hk.bits _).mpr ⟨_, a', hmem, rfl⟩)

theorem TableBuilt.step {op : TableOp} (hk : TableBuilt p s) (hstep : tableStep p s op s') :
    TableBuilt p s' := by
  obtain ⟨hfresh, hnext, hsmall⟩ := hstep
  -- A call that fails changes `errno` only.
  have hfail : ∀ code, TableBuilt p (s.fail code).2 :=
    fun _ => ⟨⟨hk.good, hk.keyed, hk.owned, hk.length, hk.aligned⟩, hk.bits, hk.small⟩
  have hfiles : ∀ files, TableBuilt p { s with files := files } :=
    fun _ => ⟨⟨hk.good, hk.keyed, hk.owned, hk.length, hk.aligned⟩, hk.bits, hk.small⟩
  have hsize : ∀ (s₁ : FdState) {b : Bitmap} {a : ℕ} {h : FdHandle},
      ((((s₁.setBitmap p b).install p a h).sched.tasks p).fdBitmap.size < 16384) →
        b.size < 16384 := by
    simp [FdState.install, FdState.setBitmap]
  cases op with
  | openat flags opened handle file =>
    obtain ⟨⟨n, s₁⟩, hcall, rfl⟩ := map_eq_some_iff.mp hnext
    cases opened with
    | error code =>
      cases hcall
      exact hfail code
    | ok asset =>
      obtain ⟨⟨k, b⟩, halloc, hcall⟩ := bind_eq_some_iff.mp hcall
      cases hcall
      generalize (if flags &&& oAccmode = 0#32 then flags ||| oRdonly else flags) = flags'
        at hsmall ⊢
      generalize (update s.files file
        (some (FileHandle.init asset (flags' &&& ~~~oCloexec) none))) = files at hsmall ⊢
      refine (hfiles files).allocate hfresh halloc ?_
      exact hsize { s with files := files } hsmall
  | dup fd clearCloexec handle =>
    obtain ⟨⟨n, s₁⟩, hcall, rfl⟩ := map_eq_some_iff.mp hnext
    unfold fdDup at hcall
    cases htranslate : s.translate p fd with
    | none =>
      rw [htranslate] at hcall
      cases hcall
      exact hfail errnoEBADF
    | some old =>
      rw [htranslate] at hcall
      obtain ⟨h, -, hcall⟩ := bind_eq_some_iff.mp hcall
      obtain ⟨⟨k, b⟩, halloc, hcall⟩ := bind_eq_some_iff.mp hcall
      obtain ⟨files, -, hcall⟩ := bind_eq_some_iff.mp hcall
      cases hcall
      refine (hfiles files).allocate hfresh halloc ?_
      exact hsize { s with files := files } hsmall
  | dup2 oldfd newfd handle =>
    obtain ⟨⟨n, s₁⟩, hcall, rfl⟩ := map_eq_some_iff.mp hnext
    unfold fdDup2 at hcall
    cases htranslate : s.translate p oldfd with
    | none =>
      rw [htranslate] at hcall
      cases hcall
      exact hfail errnoEBADF
    | some old =>
      rw [htranslate] at hcall
      split_ifs at hcall with heq
      · cases hcall
        exact hk
      · obtain ⟨h, -, hcall⟩ := bind_eq_some_iff.mp hcall
        obtain ⟨files, -, hcall⟩ := bind_eq_some_iff.mp hcall
        obtain ⟨s₂, hreplace, hcall⟩ := bind_eq_some_iff.mp hcall
        cases hcall
        exact (hfiles files).replace hfresh hreplace
  | setfd fd flags =>
    obtain ⟨⟨n, s₁⟩, hcall, rfl⟩ := map_eq_some_iff.mp hnext
    unfold fcntlSetfd at hcall
    cases htranslate : s.translate p fd with
    | none =>
      rw [htranslate] at hcall
      cases hcall
      exact hfail errnoEBADF
    | some a =>
      rw [htranslate] at hcall
      obtain ⟨h, hh, hcall⟩ := map_eq_some_iff.mp hcall
      cases hcall
      refine ⟨⟨hk.good, fun fd' a' hmem => ?_, hk.owned, hk.length, hk.aligned⟩, hk.bits, hk.small⟩
      -- The flags change, and the number does not.
      obtain ⟨h', hh', hnum⟩ := hk.keyed fd' a' hmem
      by_cases ha : a' = a
      · subst ha
        obtain rfl := some.inj (hh.symm.trans hh')
        exact ⟨{ h with flags := flags }, update_self .., hnum⟩
      · exact ⟨h', (update_of_ne ha ..).trans hh', hnum⟩

end Build

/-! ## execve -/

section Inherit

variable {c : ExecCall} {s : FdState} {x : ExecState}

/-- **The descriptors of the new task are right**: it has the handles of the caller without
`FD_CLOEXEC`, under their numbers, and its bitmap has these numbers. -/
def Inherited (c : ExecCall) (caller new : SchedTask) : Prop :=
  (∀ fd handle, hashTableSearch fdHash new.fdList fd = some handle ↔
    hashTableSearch fdHash caller.fdList fd = some handle ∧
      (c.handles handle).flags &&& fdCloexec = 0#32) ∧
  ∀ n, new.fdBitmap.test n = true ↔
    ∃ fd handle, hashTableSearch fdHash new.fdList fd = some handle ∧ fd.toNat = n

/-- No handle with a number below `fd_bitmap.size` has `FD_CLOEXEC` or the bit of `O_CLOEXEC`, and
those from there on all have `FD_CLOEXEC`. -/
def PlainFlags (c : ExecCall) (caller : SchedTask) : Prop :=
  ∀ fd handle, hashTableSearch fdHash caller.fdList fd = some handle →
    if fd.toNat < caller.fdBitmap.size then
      (c.handles handle).flags &&& fdCloexec = 0#32 ∧ (c.handles handle).flags &&& oCloexec = 0#32
    else (c.handles handle).flags &&& fdCloexec ≠ 0#32

theorem TableBuilt.test_dup {p : ℕ} (hk : TableBuilt p s) (n : ℕ) :
    (s.sched.tasks p).fdBitmap.dup.test n = true ↔ n < (s.sched.tasks p).fdBitmap.size ∧
      ∃ fd handle, hashTableSearch fdHash (s.sched.tasks p).fdList fd = some handle ∧
        fd.toNat = n := by
  have hsmall := hk.small
  have haligned := hk.aligned
  have hiff : (∃ fd handle, hashTableSearch fdHash (s.sched.tasks p).fdList fd = some handle ∧
      fd.toNat = n) ↔ (s.sched.tasks p).fdBitmap.test n = true := by
    rw [hk.bits]
    simp only [hashTableSearch_eq_some_iff hk.good]
  rw [hiff]
  by_cases hn : n < (s.sched.tasks p).fdBitmap.size
  · rw [Bitmap.test_dup (by omega) hn]
    exact (and_iff_right hn).symm
  · refine iff_of_false (fun hset => hn ?_) fun h => hn h.1
    have hlt := BitArray.lt_of_test hset
    have hround : divRoundup (s.sched.tasks p).fdBitmap.size 8 =
        ((s.sched.tasks p).fdBitmap.size + 7) / 8 := divRoundup_of_lt (by omega)
    rw [Bitmap.dup, length_take] at hlt
    omega

theorem TableBuilt.sound (hk : TableBuilt c.caller s)
    (hhandles : ∀ a h, s.handles a = some h → c.handles a = h) :
    FdsSound c (s.sched.tasks c.caller) where
  good := hk.good
  keyed fd handle hmem := by
    obtain ⟨h, hh, hnum⟩ := hk.keyed fd handle hmem
    rw [hhandles handle h hh, hnum]
  bit fd handle hmem := (hk.bits _).mpr ⟨fd, handle, hmem, rfl⟩
  small := by
    have hsmall := hk.small
    omega

/-- **The descriptors after execve**: for every table that `open`, `dup`, `dup2` and `fcntl` build,
whatever timer interrupts come, the new task has the right descriptors exactly if no handle that
the loop sees has one of the two flags, and no other handle is to be kept. -/
theorem inherited_iff_plainFlags {s₀ s : FdState} {ops : List (Event FdState TableOp)}
    {tr : List (Event ExecState ExecOp)} (hfresh : FreshTable (s₀.sched.tasks c.caller))
    (build : Run (tableStep c.caller) s₀ ops s)
    (hhandles : ∀ a h, s.handles a = some h → c.handles a = h)
    (hready : ExecReady c ⟨s.sched, .taskExec, true⟩)
    (exec : Run (execStep c) ⟨s.sched, .taskExec, true⟩ tr x) (hdone : x.point = .done) :
    Inherited c (s.sched.tasks c.caller) (x.sched.tasks c.task) ↔
      PlainFlags c (s.sched.tasks c.caller) := by
  have hk : TableBuilt c.caller s :=
    build.invariant (I := fun _ s => TableBuilt c.caller s) hfresh.built
      fun _ _ _ _ hk hstep => hk.step hstep
  obtain ⟨hbitmap, hpassed⟩ := hready.descriptors (hk.sound hhandles) exec hdone
  unfold FdsPassed at hpassed
  constructor
  · rintro ⟨hlist, hbits⟩ fd handle hmem
    split_ifs with hlt
    · -- The bit is copied, so the number is to be in the new table, which has the same handle.
      have hset := (hk.test_dup fd.toNat).mpr ⟨hlt, fd, handle, hmem, rfl⟩
      rw [← hbitmap] at hset
      obtain ⟨fd', handle', hnew, hnum⟩ := (hbits _).mp hset
      obtain rfl := toNat_inj.mp hnum
      obtain ⟨-, hold, hinherits⟩ := (hpassed fd' handle').mp hnew
      obtain rfl := Option.some.inj (hmem.symm.trans hold)
      exact ⟨((hlist fd' handle).mp hnew).2, hinherits⟩
    · intro hplain
      exact hlt ((hpassed fd handle).mp ((hlist fd handle).mpr ⟨hmem, hplain⟩)).1
  · intro hplain
    have hlist : ∀ fd handle,
        hashTableSearch fdHash (x.sched.tasks c.task).fdList fd = some handle ↔
          hashTableSearch fdHash (s.sched.tasks c.caller).fdList fd = some handle ∧
            (c.handles handle).flags &&& fdCloexec = 0#32 := by
      intro fd handle
      rw [hpassed fd handle]
      constructor
      · rintro ⟨hlt, hmem, -⟩
        have hflags := hplain fd handle hmem
        rw [if_pos hlt] at hflags
        exact ⟨hmem, hflags.1⟩
      · rintro ⟨hmem, hclear⟩
        have hflags := hplain fd handle hmem
        split_ifs at hflags with hlt
        · exact ⟨hlt, hmem, hflags.2⟩
        · exact absurd hclear hflags
    refine ⟨hlist, fun n => ?_⟩
    rw [hbitmap, hk.test_dup]
    simp only [hpassed]
    constructor
    · rintro ⟨hlt, fd, handle, hmem, rfl⟩
      have hflags := hplain fd handle hmem
      rw [if_pos hlt] at hflags
      exact ⟨fd, handle, ⟨hlt, hmem, hflags.2⟩, rfl⟩
    · rintro ⟨fd, handle, ⟨hlt, hmem, -⟩, rfl⟩
      exact ⟨hlt, fd, handle, hmem, rfl⟩

end Inherit

/-! ### The init process -/

def firstBits (bits : BitVec 8) : Bitmap := ⟨bits :: List.replicate 511 0#8, 512⟩

def FdState.opened (s : FdState) (bitmap : Bitmap) (handle : ℕ) (h : FdHandle) : FdState :=
  { s.setBitmap 2 bitmap with
    files := update s.files h.fileHandle (some (FileHandle.init 30 oRdonly none)) }.install 2 handle h

/-- Two files are open, the first with `flags`. -/
def initOpened (flags : BitVec 32) : FdState :=
  (FdState.opened ⟨bootSched, fun _ => none, fun _ => none⟩ (firstBits 1#8) 10
    ⟨20, 0#32, flags⟩).opened (firstBits 3#8) 11 ⟨21, 1#32, 0#32⟩

theorem tableStep_opened {s : FdState} {n handle file : ℕ} {bits : BitVec 8} (cloexec : Bool)
    (halloc : (s.sched.tasks 2).fdBitmap.alloc = some (n, firstBits bits))
    (hfresh : s.handles handle = none) :
    tableStep 2 s (.openat (if cloexec then oCloexec else 0#32) (.ok 30) handle file)
      (s.opened (firstBits bits) handle
        ⟨file, BitVec.ofNat 32 n, if cloexec then fdCloexec else 0#32⟩) := by
  refine ⟨hfresh, ?_, ?_⟩
  · unfold tableNext fdOpenat
    rw [halloc]
    cases cloexec <;> rfl
  · simp only [FdState.opened, FdState.install, FdState.setBitmap, setTask_self]
    exact (by decide : 512 < 16384)

theorem run_initOpened (cloexec : Bool) :
    ∃ ops, ops.map Event.act = [TableOp.openat (if cloexec then oCloexec else 0#32) (.ok 30) 10 20,
        .openat 0#32 (.ok 30) 11 21] ∧
      Run (tableStep 2) ⟨bootSched, fun _ => none, fun _ => none⟩ ops
        (initOpened (if cloexec then fdCloexec else 0#32)) := by
  have hfirst : (bootSched.tasks 2).fdBitmap.alloc = some (0, firstBits 1#8) := by decide +kernel
  have hstep := @tableStep_opened ⟨bootSched, fun _ => none, fun _ => none⟩ 0 10 20 _ cloexec
    hfirst rfl
  have hsecond : (firstBits 1#8).alloc = some (1, firstBits 3#8) := by decide +kernel
  refine ⟨_, rfl, (Run.nil.snoc hstep).snoc (tableStep_opened false (n := 1) ?_ rfl)⟩
  simpa only [FdState.opened, FdState.install, FdState.setBitmap, setTask_self] using hsecond

theorem freshTable_init : FreshTable (bootSched.tasks 2) :=
  ⟨good_empty, rfl, Bitmap.test_empty, rfl, ⟨0, rfl⟩, by decide⟩

def initExec (flags : BitVec 32) : ExecCall :=
  { suidCall with
    caller := 2
    callerThread := 2
    task := 3
    thread := 3
    pid := 2#64
    handles := fun a => if a = 10 then ⟨20, 0#32, flags⟩ else ⟨21, 1#32, 0#32⟩ }

theorem execReady_init (flags : BitVec 32) :
    ExecReady (initExec flags) ⟨(initOpened flags).sched, .taskExec, true⟩ := by
  have hlist : entries bootSched.taskList.slots = [(1#64, 2), (0#64, 1)] := by decide +kernel
  have hone : (hashTablePush addressHash HashTable.empty 0#64 1).Good addressHash :=
    (hashTablePush_fresh good_empty (by decide)).1
  have htasks : (initOpened flags).sched.taskList = bootSched.taskList := rfl
  have hpid : ((initOpened flags).sched.tasks 2).pid = 1#64 := by
    rfl
  have hthreads : ∀ p, tablePointers ((initOpened flags).sched.tasks p).threadList = [p] := by
    intro p
    by_cases hp : p = 2
    · subst hp
      rfl
    · simp only [initOpened, FdState.opened, FdState.install, FdState.setBitmap]
      rw [setTask_of_ne _ _ hp, setTask_of_ne _ _ hp, setTask_of_ne _ _ hp, setTask_of_ne _ _ hp]
      rfl
  refine ⟨rfl, rfl, hpid.symm, (hashTablePush_fresh hone (by decide +kernel)).1, ?_, ?_, ?_, ?_,
    ?_⟩
  · dsimp only [initExec]
    rw [hpid, htasks, hlist]
    simp
  · dsimp only [initExec]
    rw [htasks]
    decide
  · dsimp only [initExec]
    rw [htasks]
    decide
  · intro p hp hmem
    rw [hthreads, mem_singleton] at hmem
    exact hp hmem.symm
  · dsimp only [initExec]
    decide

theorem handles_init {flags : BitVec 32} {a : ℕ} {h : FdHandle}
    (hh : (initOpened flags).handles a = some h) : (initExec flags).handles a = h := by
  have hhandles : (initOpened flags).handles =
      update (update (fun _ => none) 10 (some ⟨20, 0#32, flags⟩)) 11 (some ⟨21, 1#32, 0#32⟩) := rfl
  rw [hhandles] at hh
  by_cases hsecond : a = 11
  · subst hsecond
    exact some.inj hh
  · rw [update_of_ne hsecond] at hh
    by_cases hfirst : a = 10
    · subst hfirst
      exact some.inj hh
    · rw [update_of_ne hfirst] at hh
      cases hh

def execWhole : List ExecOp := List.replicate 539 .statement

theorem execWhole_done (cloexec : Bool) : ∃ tr x,
    Run (execStep (initExec (if cloexec then fdCloexec else 0#32)))
        ⟨(initOpened (if cloexec then fdCloexec else 0#32)).sched, .taskExec, true⟩ tr x ∧
      tr.map Event.act = execWhole ∧ x.point = .done ∧
      hashTableSearch fdHash (x.sched.tasks 3).fdList 0#32 = some 10 :=
  Run.computed _ execWhole (by cases cloexec <;> decide +kernel)

theorem plainFlags_init : PlainFlags (initExec 0#32) ((initOpened 0#32).sched.tasks 2) := by
  have htable : ((initOpened 0#32).sched.tasks 2).fdList =
      hashTablePush fdHash (hashTablePush fdHash HashTable.empty 0#32 10) 1#32 11 := rfl
  have hgood : (hashTablePush fdHash HashTable.empty 0#32 10).Good fdHash :=
    (hashTablePush_fresh good_empty (by decide)).1
  have hentries : entries (hashTablePush fdHash (hashTablePush fdHash HashTable.empty 0#32 10)
      1#32 11).slots = [(1#32, 11), (0#32, 10)] := by decide +kernel
  intro fd handle hmem
  rw [htable, hashTableSearch_eq_some_iff (hashTablePush_fresh hgood (by decide +kernel)).1,
    hentries, mem_pair] at hmem
  rcases hmem with heq | heq
  · cases heq
    decide
  · cases heq
    decide

theorem inherited_iff_plainFlags_init : ∃ tr x,
    Run (execStep (initExec 0#32)) ⟨(initOpened 0#32).sched, .taskExec, true⟩ tr x ∧
      x.point = .done ∧
      Inherited (initExec 0#32) ((initOpened 0#32).sched.tasks 2) (x.sched.tasks 3) := by
  obtain ⟨ops, -, build⟩ := run_initOpened false
  obtain ⟨tr, x, exec, -, hdone, -⟩ := execWhole_done false
  exact ⟨tr, x, exec, hdone, (inherited_iff_plainFlags (c := initExec 0#32) freshTable_init build
    (fun _ _ => handles_init) (execReady_init 0#32) exec hdone).mpr plainFlags_init⟩

/-- **A descriptor survives execve in spite of `O_CLOEXEC`**: it is marked with `FD_CLOEXEC`, and
execve tests another bit. -/
theorem cloexec_descriptor_inherited : ∃ ops tr x,
    ops.map Event.act = [TableOp.openat oCloexec (.ok 30) 10 20, .openat 0#32 (.ok 30) 11 21] ∧
    Run (tableStep 2) ⟨bootSched, fun _ => none, fun _ => none⟩ ops (initOpened fdCloexec) ∧
    Run (execStep (initExec fdCloexec)) ⟨(initOpened fdCloexec).sched, .taskExec, true⟩ tr x ∧
    x.point = .done ∧
    hashTableSearch fdHash (x.sched.tasks 3).fdList 0#32 = some 10 ∧
    ((initExec fdCloexec).handles 10).flags &&& fdCloexec ≠ 0#32 ∧
    ¬ Inherited (initExec fdCloexec) ((initOpened fdCloexec).sched.tasks 2) (x.sched.tasks 3) := by
  obtain ⟨ops, hacts, build⟩ := run_initOpened true
  obtain ⟨tr, x, exec, -, hdone, hsearch⟩ := execWhole_done true
  have hmarked : ((initExec fdCloexec).handles 10).flags &&& fdCloexec ≠ 0#32 := by decide
  refine ⟨ops, tr, x, hacts, build, exec, hdone, hsearch, hmarked, fun hright => ?_⟩
  exact hmarked ((hright.1 0#32 10).mp hsearch).2

end Pastoral
