import Pastoral.Fs.AccessMode
import Pastoral.Fs.Pipe

/-!
# The locks of the file calls

What `fd.c` and `ramfs.c` take and release on every path of a call: the lock of the descriptor table
(`fd_lock` of the task), of a handle, of a file and of an asset, and `ramfs_lock`.

## Main results

* `locks_released_iff`: every path but one releases what it took
-/

open Function

namespace Pastoral

/-! ## Locks -/

inductive Lock
  | table (task : ℕ)
  | handle (handle : ℕ)
  | file (file : ℕ)
  | asset (asset : ℕ)
  | ramfs
  deriving DecidableEq

inductive LockOp
  | spinlock (l : Lock)
  | spinrelease (l : Lock)

def LockOp.run (held : Lock → Bool) : LockOp → Option (Lock → Bool)
  | .spinlock l => if held l then none else some (update held l true)
  | .spinrelease l => some (update held l false)

def runLocks (ops : List LockOp) (held : Lock → Bool) : Option (Lock → Bool) :=
  ops.foldlM LockOp.run held

def Lock.around (l : Lock) (ops : List LockOp) : List LockOp :=
  .spinlock l :: ops ++ [.spinrelease l]

/-! ## Calls -/

inductive AssetKind
  | pipe
  | ramfs
  | device

structure LockedAsset where
  stMode : BitVec 32
  stSize : BitVec 64
  read : Option AssetKind
  write : Option AssetKind
  inNodeList : Bool

structure LockState where
  fdList : ℕ → HashTable (BitVec 32) ℕ
  fileHandle : ℕ → ℕ
  file : ℕ → FileHandle
  asset : ℕ → LockedAsset

def pipeReadLocks (asset : ℕ) : List LockOp := (Lock.asset asset).around []

def pipeWriteLocks (asset : ℕ) (offset : BitVec 64) : List LockOp :=
  .spinlock (.asset asset) ::
    if ¬offset.slt (BitVec.ofInt 64 pipeBufferSize) then [] else [.spinrelease (.asset asset)]

def ramfsLocks (s : LockState) (asset : ℕ) (found : List LockOp) : List LockOp :=
  .spinlock (.asset asset) :: Lock.ramfs.around [] ++
    if (s.asset asset).inNodeList then found else [.spinrelease (.asset asset)]

def ramfsReadLocks (s : LockState) (asset : ℕ) (offset : BitVec 64) : List LockOp :=
  ramfsLocks s asset
    (if (s.asset asset).stSize.slt offset then [.spinrelease (.asset asset)]
    else [.spinrelease (.asset asset)])

def ramfsWriteLocks (s : LockState) (asset : ℕ) : List LockOp :=
  ramfsLocks s asset [.spinrelease (.asset asset)]

def ramfsResizeLocks (s : LockState) (asset : ℕ) : List LockOp :=
  ramfsLocks s asset [.spinrelease (.asset asset)]

def AssetKind.readLocks (s : LockState) (asset : ℕ) (offset : BitVec 64) :
    AssetKind → List LockOp
  | .pipe => pipeReadLocks asset
  | .ramfs => ramfsReadLocks s asset offset
  | .device => []

def AssetKind.writeLocks (s : LockState) (asset : ℕ) (offset : BitVec 64) :
    AssetKind → List LockOp
  | .pipe => pipeWriteLocks asset offset
  | .ramfs => ramfsWriteLocks s asset
  | .device => []

def LockState.translate (s : LockState) (task : ℕ) (fd : BitVec 32) : Option ℕ :=
  hashTableSearch fdHash (s.fdList task) fd

def LockState.translated (s : LockState) (task : ℕ) (fd : BitVec 32)
    (found : ℕ → List LockOp) : List LockOp :=
  (Lock.table task).around [] ++ (s.translate task fd).elim [] found

def fdSeekLocks (s : LockState) (task : ℕ) (fd whence : BitVec 32) : List LockOp :=
  s.translated task fd fun handle =>
    let f := s.fileHandle handle
    let mode := (s.asset (s.file f).asset).stMode &&& sIfmt
    if mode = sIfifo ∨ mode = sIfsock then []
    else
      .spinlock (.file f) ::
        if whence = 3#32 ∨ whence = 1#32 ∨ whence = 2#32 then [.spinrelease (.file f)]
        else [.spinrelease (.file f)]

def writeOffset (file : FileHandle) (asset : LockedAsset) : BitVec 64 :=
  if asset.stMode &&& sIfmt = sIfifo ∧ file.pipe.isSome then file.position
  else if file.flags &&& oAppend ≠ 0 then asset.stSize
  else file.position

def fdWriteLocks (s : LockState) (task : ℕ) (fd : BitVec 32) : List LockOp :=
  s.translated task fd fun handle =>
    let f := s.fileHandle handle
    let file := s.file f
    .spinlock (.file f) ::
      match (s.asset file.asset).write with
      | none => [.spinrelease (.file f)]
      | some kind =>
        if file.flags &&& oAccmode ≠ oWronly ∧ file.flags &&& oAccmode ≠ oRdwr then
          [.spinrelease (.file f)]
        else
          kind.writeLocks s file.asset (writeOffset file (s.asset file.asset)) ++
            [.spinrelease (.file f)]

def fdReadLocks (s : LockState) (task : ℕ) (fd : BitVec 32) : List LockOp :=
  s.translated task fd fun handle =>
    let f := s.fileHandle handle
    let file := s.file f
    .spinlock (.file f) ::
      if sIsdir (s.asset file.asset).stMode then [.spinrelease (.file f)]
      else
        match (s.asset file.asset).read with
        | none => [.spinrelease (.file f)]
        | some kind =>
          if file.flags &&& oAccmode ≠ oRdonly ∧ file.flags &&& oAccmode ≠ oRdwr then
            [.spinrelease (.file f)]
          else kind.readLocks s file.asset file.position ++ [.spinrelease (.file f)]

def tableLocks (s : LockState) (task : ℕ) (fd : BitVec 32) (found : List LockOp) : List LockOp :=
  .spinlock (.table task) ::
    if s.translate task fd = none then [.spinrelease (.table task)] else found

def fdCloseLocks (s : LockState) (task : ℕ) (fd : BitVec 32) : List LockOp :=
  tableLocks s task fd [.spinrelease (.table task)]

def fdDupLocks (s : LockState) (task : ℕ) (fd : BitVec 32) : List LockOp :=
  tableLocks s task fd [.spinrelease (.table task)]

def fdDup2Locks (s : LockState) (task : ℕ) (oldfd newfd : BitVec 32) : List LockOp :=
  tableLocks s task oldfd
    (if oldfd = newfd then [.spinrelease (.table task)] else [.spinrelease (.table task)])

def fcntlLocks (s : LockState) (task : ℕ) (fd : BitVec 32) (cmd data : BitVec 64) :
    List LockOp :=
  s.translated task fd fun handle =>
    if cmd = 1 ∨ cmd = 2 then fdDupLocks s task fd
    else if cmd = 3 ∨ cmd = 4 then (Lock.handle handle).around []
    else if cmd = 5 then (Lock.file (s.fileHandle handle)).around []
    else if cmd = 6 then
      if data &&& oAccmode.setWidth 64 ≠ 0 then []
      else (Lock.file (s.fileHandle handle)).around []
    else []

inductive LockCall
  | seek (task : ℕ) (fd whence : BitVec 32)
  | read (task : ℕ) (fd : BitVec 32)
  | write (task : ℕ) (fd : BitVec 32)
  | close (task : ℕ) (fd : BitVec 32)
  | dup (task : ℕ) (fd : BitVec 32)
  | dup2 (task : ℕ) (oldfd newfd : BitVec 32)
  | fcntl (task : ℕ) (fd : BitVec 32) (cmd data : BitVec 64)
  | pipeRead (asset : ℕ)
  | pipeWrite (asset : ℕ) (offset : BitVec 64)
  | ramfsRead (asset : ℕ) (offset : BitVec 64)
  | ramfsWrite (asset : ℕ)
  | ramfsResize (asset : ℕ)

def LockCall.locks (s : LockState) : LockCall → List LockOp
  | .seek task fd whence => fdSeekLocks s task fd whence
  | .read task fd => fdReadLocks s task fd
  | .write task fd => fdWriteLocks s task fd
  | .close task fd => fdCloseLocks s task fd
  | .dup task fd => fdDupLocks s task fd
  | .dup2 task oldfd newfd => fdDup2Locks s task oldfd newfd
  | .fcntl task fd cmd data => fcntlLocks s task fd cmd data
  | .pipeRead asset => pipeReadLocks asset
  | .pipeWrite asset offset => pipeWriteLocks asset offset
  | .ramfsRead asset offset => ramfsReadLocks s asset offset
  | .ramfsWrite asset => ramfsWriteLocks s asset
  | .ramfsResize asset => ramfsResizeLocks s asset

/-- The path that keeps a lock: a `pipe_write` with an offset past the buffer. -/
def LockCall.PastPipe (s : LockState) : LockCall → Prop
  | .pipeWrite _ offset => ¬offset.slt (BitVec.ofInt 64 pipeBufferSize)
  | .write task fd => ∃ handle, s.translate task fd = some handle ∧
      let file := s.file (s.fileHandle handle)
      let asset := s.asset file.asset
      asset.write = some .pipe ∧
        (file.flags &&& oAccmode = oWronly ∨ file.flags &&& oAccmode = oRdwr) ∧
        ¬(writeOffset file asset).slt (BitVec.ofInt 64 pipeBufferSize)
  | _ => False

def allFree : Lock → Bool := fun _ => false

/-! ## Paths that release what they take -/

section Paths

variable {held : Lock → Bool} {l : Lock} {ops ops' : List LockOp} {s : LockState} {task asset : ℕ}
  {fd : BitVec 32} {offset : BitVec 64}

def Releases (ops : List LockOp) (held : Lock → Bool) : Prop := runLocks ops held = some held

theorem releases_nil : Releases [] held := rfl

theorem Releases.next (h : Releases ops held) :
    runLocks (ops ++ ops') held = runLocks ops' held := by
  rw [runLocks, List.foldlM_append]
  exact congrArg (· >>= _) h

theorem runLocks_around {held' : Lock → Bool} (hl : held l = false)
    (h : runLocks ops (update held l true) = some held') :
    runLocks (l.around ops) held = some (update held' l false) := by
  rw [runLocks, Lock.around, List.cons_append, List.foldlM_cons, LockOp.run, hl,
    if_neg Bool.false_ne_true, Option.bind_eq_bind, Option.bind_some, List.foldlM_append]
  exact congrArg (· >>= _) h

theorem Releases.around (hl : held l = false) (h : Releases ops (update held l true)) :
    Releases (l.around ops) held := by
  rw [Releases, runLocks_around hl h, update_idem, ← hl, update_eq_self]

theorem releases_around (hl : held l = false) : Releases (l.around []) held :=
  .around hl releases_nil

theorem releases_translated {found : ℕ → List LockOp}
    (h : ∀ handle, s.translate task fd = some handle → Releases (found handle) allFree) :
    Releases (s.translated task fd found) allFree := by
  rw [Releases, LockState.translated, (releases_around rfl).next]
  cases htranslate : s.translate task fd with
  | none => exact releases_nil
  | some handle => exact h handle htranslate

theorem ramfsLocks_release : ramfsLocks s asset [.spinrelease (.asset asset)] =
    (Lock.asset asset).around (Lock.ramfs.around []) := by
  rw [ramfsLocks, ite_self]
  rfl

theorem releases_ramfs (hasset : held (.asset asset) = false) (hramfs : held .ramfs = false) :
    Releases (ramfsLocks s asset [.spinrelease (.asset asset)]) held := by
  rw [ramfsLocks_release]
  exact .around hasset (releases_around hramfs)

theorem releases_ramfsRead (hasset : held (.asset asset) = false) (hramfs : held .ramfs = false) :
    Releases (ramfsReadLocks s asset offset) held := by
  rw [ramfsReadLocks, ite_self]
  exact releases_ramfs hasset hramfs

theorem runLocks_pipeWrite (hasset : held (.asset asset) = false) :
    runLocks (pipeWriteLocks asset offset) held =
      some (if offset.slt (BitVec.ofInt 64 pipeBufferSize) then held
        else update held (.asset asset) true) := by
  by_cases hoffset : offset.slt (BitVec.ofInt 64 pipeBufferSize)
  · rw [pipeWriteLocks, if_neg (not_not.mpr hoffset), if_pos hoffset]
    exact releases_around hasset
  · rw [pipeWriteLocks, if_pos hoffset, if_neg hoffset, runLocks, List.foldlM_cons, LockOp.run,
      hasset]
    rfl

theorem releases_table : Releases (tableLocks s task fd [.spinrelease (.table task)]) allFree := by
  rw [tableLocks, ite_self]
  exact releases_around rfl

theorem releases_seek {whence : BitVec 32} : Releases (fdSeekLocks s task fd whence) allFree := by
  refine releases_translated fun handle _ => ?_
  dsimp only
  rw [ite_self]
  split
  · exact releases_nil
  · exact releases_around rfl

theorem releases_fcntl {cmd data : BitVec 64} :
    Releases (fcntlLocks s task fd cmd data) allFree := by
  refine releases_translated fun handle _ => ?_
  split_ifs
  · exact releases_table
  · exact releases_around rfl
  · exact releases_around rfl
  · exact releases_nil
  · exact releases_around rfl
  · exact releases_nil

theorem releases_read : Releases (fdReadLocks s task fd) allFree := by
  refine releases_translated fun handle _ => ?_
  dsimp only
  split
  · exact releases_around rfl
  · split
    · exact releases_around rfl
    · next kind _ =>
      split
      · exact releases_around rfl
      · refine .around rfl ?_
        cases kind with
        | pipe => exact releases_around rfl
        | ramfs => exact releases_ramfsRead rfl rfl
        | device => exact releases_nil

theorem releases_write (h : ¬LockCall.PastPipe s (.write task fd)) :
    Releases (fdWriteLocks s task fd) allFree := by
  refine releases_translated fun handle htranslate => ?_
  dsimp only
  split
  · exact releases_around rfl
  · next kind hkind =>
    split
    · exact releases_around rfl
    · refine .around rfl ?_
      cases kind with
      | pipe =>
        rw [Releases, AssetKind.writeLocks, runLocks_pipeWrite rfl, if_pos]
        by_contra hoffset
        exact h ⟨handle, htranslate, hkind, by tauto, hoffset⟩
      | ramfs => exact releases_ramfs rfl rfl
      | device => exact releases_nil

theorem runLocks_write (h : LockCall.PastPipe s (.write task fd)) :
    ∃ a held, runLocks (fdWriteLocks s task fd) allFree = some held ∧ held (.asset a) = true := by
  obtain ⟨handle, htranslate, hkind, hmode, hoffset⟩ := h
  have hpath : fdWriteLocks s task fd = (Lock.table task).around [] ++
      (Lock.file (s.fileHandle handle)).around (pipeWriteLocks (s.file (s.fileHandle handle)).asset
        (writeOffset (s.file (s.fileHandle handle))
          (s.asset (s.file (s.fileHandle handle)).asset))) := by
    rw [fdWriteLocks, LockState.translated, htranslate, Option.elim_some]
    dsimp only
    rw [hkind]
    dsimp only
    rw [if_neg (by tauto)]
    rfl
  rw [hpath, (releases_around rfl).next, runLocks_around rfl (runLocks_pipeWrite rfl),
    if_neg hoffset]
  exact ⟨(s.file (s.fileHandle handle)).asset, _, rfl, by simp⟩

/-- **The locks of the file calls**: called with every lock free, a function comes to its end, and
then they are free again, if and only if it has not turned away a write past the buffer of a
pipe. -/
theorem locks_released_iff (s : LockState) (c : LockCall) :
    ∃ held, runLocks (c.locks s) allFree = some held ∧ (held = allFree ↔ ¬c.PastPipe s) := by
  have hfree (h : ¬c.PastPipe s) (hreleases : Releases (c.locks s) allFree) :
      ∃ held, runLocks (c.locks s) allFree = some held ∧ (held = allFree ↔ ¬c.PastPipe s) :=
    ⟨allFree, hreleases, iff_of_true rfl h⟩
  cases c with
  | seek task fd whence => exact hfree not_false releases_seek
  | read task fd => exact hfree not_false releases_read
  | write task fd =>
    by_cases hpast : LockCall.PastPipe s (.write task fd)
    · obtain ⟨a, held, hrun, hheld⟩ := runLocks_write hpast
      refine ⟨held, hrun, iff_of_false ?_ (not_not.mpr hpast)⟩
      rintro rfl
      cases hheld
    · exact hfree hpast (releases_write hpast)
  | close task fd => exact hfree not_false releases_table
  | dup task fd => exact hfree not_false releases_table
  | dup2 task oldfd newfd =>
    refine hfree not_false ?_
    rw [LockCall.locks, fdDup2Locks, ite_self]
    exact releases_table
  | fcntl task fd cmd data => exact hfree not_false releases_fcntl
  | pipeRead asset => exact hfree not_false (releases_around rfl)
  | pipeWrite asset offset =>
    refine ⟨_, runLocks_pipeWrite rfl, ?_⟩
    by_cases hoffset : offset.slt (BitVec.ofInt 64 pipeBufferSize)
    · rw [if_pos hoffset]
      exact iff_of_true rfl (not_not.mpr hoffset)
    · rw [if_neg hoffset]
      refine iff_of_false (fun h => ?_) (not_not.mpr hoffset)
      simpa [allFree] using congrFun h (.asset asset)
  | ramfsRead asset offset => exact hfree not_false (releases_ramfsRead rfl rfl)
  | ramfsWrite asset => exact hfree not_false (releases_ramfs rfl rfl)
  | ramfsResize asset => exact hfree not_false (releases_ramfs rfl rfl)

end Paths

def fullPipe : LockState where
  fdList _ := hashTablePush fdHash HashTable.empty 0#32 10
  fileHandle _ := 20
  file _ := { FileHandle.init 30 oWronly (some 40) with position := 65536#64 }
  asset _ := ⟨sIfifo, 65536#64, none, some .pipe, false⟩

theorem full_pipe_stays_locked :
    (runLocks ((LockCall.write 2 0#32).locks fullPipe) allFree).map (fun held =>
      (held (.table 2), held (.file 20), held (.asset 30))) = some (false, false, true) := by
  decide +kernel

end Pastoral
