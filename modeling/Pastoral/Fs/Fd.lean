import Pastoral.Sched.Reschedule

/-!
# File descriptors

The descriptor table of a task: `fd_list`, a hash table from numbers to handles, and `fd_bitmap`,
the numbers in use.

## Main definitions

* `fdOpenat`, `fdDup2`, `fdClose`: the calls
-/

open Function Probe

namespace Pastoral

/-! ## Records -/

structure FdHandle where
  fileHandle : ℕ
  fdNumber : BitVec 32
  flags : BitVec 32
  deriving DecidableEq, Repr

/-- The `int` `refcnt` does not wrap: each reference that the calls count is an `fd_handle` of 24
bytes, and 2^31 of them would need 48 GiB. -/
structure FileHandle where
  refcnt : ℤ
  asset : ℕ
  flags : BitVec 32
  position : BitVec 64
  pipe : Option ℕ
  deriving DecidableEq, Repr

abbrev fdCloexec : BitVec 32 := 1#32

abbrev oCloexec : BitVec 32 := 0x4000#32

abbrev oAccmode : BitVec 32 := 7#32
abbrev oRdonly : BitVec 32 := 2#32
abbrev oRdwr : BitVec 32 := 3#32
abbrev oWronly : BitVec 32 := 5#32

def fdHash (fd : BitVec 32) : BitVec 64 :=
  fnvHash ((List.range 4).map fun i => (fd >>> (8 * i)).setWidth 8)

structure FdState where
  sched : SchedState
  handles : ℕ → Option FdHandle
  files : ℕ → Option FileHandle

/-! ## Files -/

def FileHandle.init (asset : ℕ) (flags : BitVec 32) (pipe : Option ℕ) : FileHandle :=
  ⟨1, asset, flags, 0#64, pipe⟩

def fileGet (files : ℕ → Option FileHandle) (f : ℕ) : Option (ℕ → Option FileHandle) :=
  (files f).map fun h => update files f (some { h with refcnt := h.refcnt + 1 })

def filePut (files : ℕ → Option FileHandle) (f : ℕ) : Option (ℕ → Option FileHandle) :=
  (files f).map fun h =>
    if h.refcnt - 1 = 0 then update files f none
    else update files f (some { h with refcnt := h.refcnt - 1 })

/-! ## The calls -/

def FdState.translate (s : FdState) (task : ℕ) (fd : BitVec 32) : Option ℕ :=
  hashTableSearch fdHash (s.sched.tasks task).fdList fd

def FdState.fail (s : FdState) (code : BitVec 64) : BitVec 32 × FdState :=
  (-1#32, { s with sched := s.sched.setErrno code })

def FdState.setBitmap (s : FdState) (task : ℕ) (b : Bitmap) : FdState :=
  { s with sched := s.sched.setTask task { s.sched.tasks task with fdBitmap := b } }

def FdState.install (s : FdState) (task handle : ℕ) (h : FdHandle) : FdState :=
  let t := s.sched.tasks task
  { s with
    sched := s.sched.setTask task
      { t with fdList := hashTablePush fdHash t.fdList h.fdNumber handle }
    handles := update s.handles handle (some h) }

theorem install_setBitmap_self (s : FdState) (p a : ℕ) (b : Bitmap) (h : FdHandle) :
    ((s.setBitmap p b).install p a h).sched.tasks p = { s.sched.tasks p with
      fdBitmap := b
      fdList := hashTablePush fdHash (s.sched.tasks p).fdList h.fdNumber a } := by
  simp [FdState.install, FdState.setBitmap]

def SchedTask.fdClose (t : SchedTask) (handle : FdHandle) : SchedTask :=
  { t with
    fdList := hashTableDelete fdHash t.fdList handle.fdNumber
    fdBitmap := t.fdBitmap.free handle.fdNumber.toNat }

def FdState.remove (s : FdState) (task handle : ℕ) (h : FdHandle)
    (files : ℕ → Option FileHandle) : FdState :=
  { sched := s.sched.setTask task ((s.sched.tasks task).fdClose h)
    handles := update s.handles handle none
    files := files }

def fdCloseUnlocked (task handle : ℕ) (s : FdState) : Option FdState := do
  let h ← s.handles handle
  let files ← filePut s.files h.fileHandle
  some (s.remove task handle h files)

def fdClose (task : ℕ) (fd : BitVec 32) (s : FdState) : Option (BitVec 32 × FdState) :=
  match s.translate task fd with
  | none => some (s.fail errnoEBADF)
  | some handle => (fdCloseUnlocked task handle s).map fun s => (0#32, s)

def fdOpenat (task : ℕ) (flags : BitVec 32) (opened : Except (BitVec 64) ℕ) (handle file : ℕ)
    (s : FdState) : Option (BitVec 32 × FdState) :=
  match opened with
  | .error code => some (s.fail code)
  | .ok asset => do
    let flags := if flags &&& oAccmode = 0#32 then flags ||| oRdonly else flags
    let (n, bitmap) ← (s.sched.tasks task).fdBitmap.alloc
    let h : FdHandle :=
      ⟨file, BitVec.ofNat 32 n, if flags &&& oCloexec ≠ 0#32 then fdCloexec else 0#32⟩
    let files := update s.files file
      (some (FileHandle.init asset (flags &&& ~~~oCloexec) none))
    some (h.fdNumber, { s.setBitmap task bitmap with files := files }.install task handle h)

structure PipeCall where
  readHandle : ℕ
  writeHandle : ℕ
  readFile : ℕ
  writeFile : ℕ
  readAsset : ℕ
  writeAsset : ℕ
  pipe : ℕ
  deriving DecidableEq, Repr

def syscallPipe (task : ℕ) (c : PipeCall) (s : FdState) :
    Option ((BitVec 32 × BitVec 32) × FdState) := do
  let (r, bitmap) ← (s.sched.tasks task).fdBitmap.alloc
  let (w, bitmap) ← bitmap.alloc
  let readFd : FdHandle := ⟨c.readFile, BitVec.ofNat 32 r, 0#32⟩
  let writeFd : FdHandle := ⟨c.writeFile, BitVec.ofNat 32 w, 0#32⟩
  let files := update
    (update s.files c.readFile (some (FileHandle.init c.readAsset oRdonly (some c.pipe))))
    c.writeFile (some (FileHandle.init c.writeAsset oWronly (some c.pipe)))
  let s := { s.setBitmap task bitmap with files := files }
  some ((readFd.fdNumber, writeFd.fdNumber),
    (s.install task c.readHandle readFd).install task c.writeHandle writeFd)

def fdDup (task : ℕ) (fd : BitVec 32) (clearCloexec : Bool) (handle : ℕ) (s : FdState) :
    Option (BitVec 32 × FdState) :=
  match s.translate task fd with
  | none => some (s.fail errnoEBADF)
  | some old => do
    let h ← s.handles old
    let (n, bitmap) ← (s.sched.tasks task).fdBitmap.alloc
    let files ← fileGet s.files h.fileHandle
    let h : FdHandle :=
      { h with
        fdNumber := BitVec.ofNat 32 n
        flags := if clearCloexec then h.flags &&& ~~~fdCloexec else h.flags ||| fdCloexec }
    some (h.fdNumber, { s.setBitmap task bitmap with files := files }.install task handle h)

def FdState.setBit (s : FdState) (task n : ℕ) : FdState :=
  let b := (s.sched.tasks task).fdBitmap
  s.setBitmap task { b with data := BitArray.set b.data n }

def fdReplace (task : ℕ) (h : FdHandle) (handle : ℕ) (s : FdState) : Option FdState := do
  -- A number that is negative as an `int` is beyond all bytes as well.
  if h.fdNumber.toNat < 8 * (s.sched.tasks task).fdBitmap.data.length then
    let s ←
      if (s.sched.tasks task).fdBitmap.test h.fdNumber.toNat then
        (s.translate task h.fdNumber).bind fun old => fdCloseUnlocked task old s
      else some s
    some ((s.setBit task h.fdNumber.toNat).install task handle h)
  else none

def fdDup2 (task : ℕ) (oldfd newfd : BitVec 32) (handle : ℕ) (s : FdState) :
    Option (BitVec 32 × FdState) :=
  match s.translate task oldfd with
  | none => some (s.fail errnoEBADF)
  | some old =>
    if oldfd = newfd then some (newfd, s)
    else do
      let h ← s.handles old
      let files ← fileGet s.files h.fileHandle
      let h : FdHandle := { h with fdNumber := newfd, flags := h.flags &&& ~~~fdCloexec }
      let s ← fdReplace task h handle { s with files := files }
      some (newfd, s)

def fcntlSetfd (task : ℕ) (fd flags : BitVec 32) (s : FdState) : Option (BitVec 32 × FdState) :=
  match s.translate task fd with
  | none => some (s.fail errnoEBADF)
  | some handle => (s.handles handle).map fun h =>
      (0#32, { s with handles := update s.handles handle (some { h with flags := flags }) })

end Pastoral
