import Pastoral.Fs.OpenAccess
import Pastoral.Lib.Elf
import Pastoral.Sched.Execve

/-!
# A program that cannot be loaded

`sched_task_exec` registers a new task and switches to its page table and its pid before it opens
the file.

## Main results

* `fails_cleanly_iff`: no call that fails undoes this
-/

open Function List Option Probe

namespace Pastoral

variable {N : Type}

/-! ## The call -/

structure ExecWorld where
  fds : FdState
  activeTable : ℕ
  schedLock : Bool

structure ExecFiles (N : Type) where
  path : Name
  lookup : LookupState
  calls : AssetCalls
  fuel : ℕ
  contents : ℕ → ElfFile
  machine : Machine N
  memory : TaskMemory N
  handle : ℕ
  file : ℕ
  ldHandle : ℕ
  ldFile : ℕ
  stack : List (BitVec 8)
  ldStack : List (BitVec 8)
  object : Elf64Phdr → BitVec 64

def defaultTask (c : ExecCall) (ppid : BitVec 64) : SchedTask :=
  { SchedTask.zeroed with
    pid := c.pid
    ppid := ppid
    status := .yield
    event := c.event
    exitTrigger := c.exitTrigger
    umask := 0o22#32
    pageTable := c.image.pageTable }

def defaultLookup : LookupTask where
  effectiveUid := 0#32
  effectiveGid := 0#32
  realUid := 0#32
  realGid := 0#32
  cwd := none
  fdNode := fun _ => none

namespace ExecWorld

def setSched (w : ExecWorld) (s : SchedState) : ExecWorld :=
  { w with fds := { w.fds with sched := s } }

def setPid (w : ExecWorld) (pid : BitVec 64) : ExecWorld :=
  w.setSched { w.fds.sched with core := { w.fds.sched.core with pid := pid } }

def enter (c : ExecCall) (w : ExecWorld) : ExecWorld :=
  let s := w.fds.sched
  let ppid := match s.currentTask with
    | some current => (s.tasks current).pid
    | none => -1#64
  { fds := { w.fds with sched := { s with
      tasks := update s.tasks c.task (defaultTask c ppid)
      taskList := hashTablePush addressHash s.taskList c.pid c.task } }
    activeTable := c.image.pageTable
    schedLock := true }

def giveUp (current : ℕ) (w : ExecWorld) : ExecWorld :=
  { w.setPid (w.fds.sched.tasks current).pid with schedLock := false }

def finish (c : ExecCall) (current currentThread : ℕ) (w : ExecWorld) : ExecWorld :=
  let s := w.fds.sched
  let task := s.tasks c.task
  { w.setSched { s with
      tasks := update s.tasks c.task { task with
        status := .waiting
        threadList := hashTablePush addressHash task.threadList 0#64 c.thread }
      threads := update s.threads c.thread { schedThreadExec c with status := .waiting }
      events := update (update s.events c.event ⟨c.task, c.thread, 0#32⟩)
        c.exitEvent ⟨current, currentThread, 0#32⟩
      triggers := update s.triggers c.exitTrigger ⟨c.task, some c.exitEvent, .procExit⟩
      core := { s.core with pid := (s.tasks current).pid } } with
    activeTable := (s.tasks current).pageTable
    schedLock := false }

end ExecWorld

def openFile (e : ExecFiles N) (path : Name) (handle file : ℕ) (w : ExecWorld) :
    Option (BitVec 32 × ExecWorld) :=
  w.fds.sched.currentTask.bind fun p =>
    (fdOpenatPath e.calls e.fuel e.lookup defaultLookup 0o22#32 atFdcwd path oRdonly 0#32 p handle
      file w.fds).map fun r => (r.2.1, { w with fds := r.2.2 })

def closeFile (fd : BitVec 32) (w : ExecWorld) : Option ExecWorld :=
  w.fds.sched.currentTask.bind fun p =>
    (fdClose p fd w.fds).map fun r => { w with fds := r.2 }

def openedFile (e : ExecFiles N) (fd : BitVec 32) (w : ExecWorld) : Option ElfFile := do
  let p ← w.fds.sched.currentTask
  let handle ← w.fds.translate p fd
  let h ← w.fds.handles handle
  let f ← w.fds.files h.fileHandle
  some (e.contents f.asset)

def loadEnd : ElfResult × LoadState N → Option (Option (Option (List (BitVec 8)) × TaskMemory N))
  | (.stopped, _) => none
  | (.invalid, _) => some none
  | (.loaded _ ld, s) => some (some (ld, s.memory))

def loadFile (e : ExecFiles N) (path : Name) (handle file : ℕ) (stack : List (BitVec 8))
    (base : BitVec 64) (wantsLd : Bool) (memory : TaskMemory N) (w : ExecWorld) :
    Option (Option (Option (List (BitVec 8)) × TaskMemory N) × ExecWorld) :=
  (openFile e path handle file w).bind fun (fd, w) =>
    if fd = -1#32 then (closeFile fd w).map fun w => (none, w)
    else
      (openedFile e fd w).bind fun f =>
        (loadEnd (elfLoad e.machine stack e.object f base wantsLd memory)).bind fun r =>
          (closeFile fd w).map fun w => (r, w)

def ldPath (ld : List (BitVec 8)) : Name := ld.takeWhile fun b => b ≠ 0#8

def execFiles (c : ExecCall) (e : ExecFiles N) (current currentThread : ℕ) (w : ExecWorld) :
    Option (Option ℕ × ExecWorld) :=
  (loadFile e e.path e.handle e.file e.stack 0#64 true e.memory w).bind fun r =>
    match r with
    | (none, w) => some (none, w.giveUp current)
    | (some (none, _), w) => some (some c.task, w.finish c current currentThread)
    | (some (some ld, memory), w) =>
      (loadFile e (ldPath ld) e.ldHandle e.ldFile e.ldStack 0x40000000#64 false memory w).map
        fun r =>
          match r with
          | (none, w) => (none, w.giveUp current)
          | (some _, w) => (some c.task, w.finish c current currentThread)

def schedTaskExecPath (c : ExecCall) (e : ExecFiles N) (w : ExecWorld) :
    Option (Option ℕ × ExecWorld) :=
  if w.schedLock then none
  else
    let w := w.enter c
    match w.fds.sched.currentTask, w.fds.sched.currentThread with
    | some current, some currentThread =>
      execFiles c e current currentThread (w.setPid c.pid)
    | _, _ => none

inductive ExecveEnd
  | returned (rax : BitVec 64)
  | replaces (task : ℕ)
  deriving DecidableEq, Repr

def execveFrom : Option ℕ × ExecWorld → Option (ExecveEnd × ExecWorld)
  | (none, _) => none
  | (some task, w) => some (.replaces task, w)

def syscallExecvePath (c : ExecCall) (e : ExecFiles N) (w : ExecWorld) :
    Option (ExecveEnd × ExecWorld) :=
  w.fds.sched.currentTask.bind fun current =>
    (vfsSearchAbsolute e.lookup.vfs e.fuel vfsRoot e.path true).bind fun found =>
      match found with
      | none => some (.returned (-1#64), w.setSched (w.fds.sched.setErrno errnoENOENT))
      | some node =>
        let task := w.fds.sched.tasks current
        if e.lookup.hasAccess node task.effectiveUid task.effectiveGid xOk then
          (schedTaskExecPath c e w).bind execveFrom
        else some (.returned (-1#64), w.setSched (w.fds.sched.setErrno errnoEACCES))

/-! ## A call that fails -/

structure Restored (c : ExecCall) (w w' : ExecWorld) : Prop where
  taskList : ∀ pid, schedTranslatePid w'.fds.sched pid = schedTranslatePid w.fds.sched pid
  pid : w'.fds.sched.core.pid = w.fds.sched.core.pid
  activeTable : w'.activeTable = w.activeTable
  schedLock : w'.schedLock = w.schedLock
  fdList : (w'.fds.sched.tasks c.caller).fdList = (w.fds.sched.tasks c.caller).fdList
  fdBitmap : (w'.fds.sched.tasks c.caller).fdBitmap = (w.fds.sched.tasks c.caller).fdBitmap

/-- **A call that fails leaves everything as it was**, and `execve` returns -1. -/
def FailsCleanly (c : ExecCall) (e : ExecFiles N) (w : ExecWorld) : Prop :=
  ∀ w', schedTaskExecPath c e w = some (none, w') →
    Restored c w w' ∧ execveFrom (none, w') = some (.returned (-1#64), w')

def opensAs (e : ExecFiles N) (path : Name) : Option (Except (BitVec 64) ℕ) :=
  (fileOpenat e.fuel e.lookup defaultLookup 0o22#32 atFdcwd path oRdonly 0#32).bind fun checked =>
    match checked with
    | .error code => some (.error code)
    | .ok opened => openAsset e.calls e.lookup.vfs (openFlags oRdonly) opened

inductive Unloadable (e : ExecFiles N) (path : Name) (stack : List (BitVec 8)) : Prop
  | missing {code : BitVec 64} (hopen : opensAs e path = some (.error code))
  | invalid {asset : ℕ} {hdr : ElfHdr} (hopen : opensAs e path = some (.ok asset))
      (hheader : (e.contents asset).header stack = some hdr) (hinvalid : elfValidate hdr = false)

/-- **The files for which a call fails**: the program cannot be loaded, or it is loaded and names an
interpreter that cannot. -/
inductive ExecFails (e : ExecFiles N) : Prop
  | program (h : Unloadable e e.path e.stack)
  | interpreter {asset : ℕ} {aux : Aux} {ld : List (BitVec 8)}
      (hopen : opensAs e e.path = some (.ok asset))
      (hload : (elfLoad e.machine e.stack e.object (e.contents asset) 0#64 true e.memory).1 =
        .loaded aux (some ld))
      (h : Unloadable e (ldPath ld) e.ldStack)

/-- A call of the current task, with a pid and a record that are not in use. -/
structure ExecBegins (c : ExecCall) (w : ExecWorld) : Prop where
  unlocked : w.schedLock = false
  good : w.fds.sched.taskList.Good addressHash
  caller : w.fds.sched.currentTask = some c.caller
  callerThread : w.fds.sched.currentThread = some c.callerThread
  callerPid : (w.fds.sched.tasks c.caller).pid = w.fds.sched.core.pid
  freshPid : c.pid ∉ keys w.fds.sched.taskList.slots
  freshTask : c.task ≠ c.caller

/-! ## What a file changes -/

structure SameBut (p : ℕ) (w w' : ExecWorld) : Prop where
  taskList : w'.fds.sched.taskList = w.fds.sched.taskList
  pid : w'.fds.sched.core.pid = w.fds.sched.core.pid
  activeTable : w'.activeTable = w.activeTable
  schedLock : w'.schedLock = w.schedLock
  others : ∀ q ≠ p, w'.fds.sched.tasks q = w.fds.sched.tasks q

structure NoFds (t : SchedTask) : Prop where
  good : t.fdList.Good fdHash
  none : entries t.fdList.slots = []
  small : t.fdBitmap.Small
  clear : ∀ n, t.fdBitmap.test n = false

structure HoldsFd (p handle file asset : ℕ) (fds : FdState) : Prop where
  good : (fds.sched.tasks p).fdList.Good fdHash
  one : entries (fds.sched.tasks p).fdList.slots = [(0#32, handle)]
  small : (fds.sched.tasks p).fdBitmap.Small
  bit : ∀ n, (fds.sched.tasks p).fdBitmap.test n = decide (n = 0)
  handle : ∃ h, fds.handles handle = some h ∧ h.fdNumber = 0#32 ∧ h.fileHandle = file
  file : ∃ f, fds.files file = some f ∧ f.asset = asset

section Files

variable {e : ExecFiles N} {w w' w'' : ExecWorld} {p handle file asset : ℕ} {path : Name}
  {code : BitVec 64}

theorem SameBut.refl (p : ℕ) (w : ExecWorld) : SameBut p w w := ⟨rfl, rfl, rfl, rfl, fun _ _ => rfl⟩

theorem SameBut.trans (h : SameBut p w w') (h' : SameBut p w' w'') : SameBut p w w'' where
  taskList := h'.taskList.trans h.taskList
  pid := h'.pid.trans h.pid
  activeTable := h'.activeTable.trans h.activeTable
  schedLock := h'.schedLock.trans h.schedLock
  others q hq := (h'.others q hq).trans (h.others q hq)

theorem SameBut.currentTask (h : SameBut p w w') :
    w'.fds.sched.currentTask = w.fds.sched.currentTask := by
  unfold SchedState.currentTask schedTranslatePid
  rw [h.taskList, h.pid]

theorem sameBut_setTask (w : ExecWorld) (p : ℕ) (t : SchedTask) (handles : ℕ → Option FdHandle)
    (files : ℕ → Option FileHandle) :
    SameBut p w { w with fds := ⟨w.fds.sched.setTask p t, handles, files⟩ } :=
  ⟨rfl, rfl, rfl, rfl, fun _ hq => setTask_of_ne _ _ hq⟩

theorem noFds_defaultTask (c : ExecCall) (ppid : BitVec 64) : NoFds (defaultTask c ppid) where
  good := good_empty
  none := rfl
  small := Bitmap.small_empty
  clear n := Bitmap.test_empty n

theorem openFile_eq (hcur : w.fds.sched.currentTask = some p) :
    openFile e path handle file w = (opensAs e path).bind fun opened =>
      (fdOpenat p oRdonly opened handle file w.fds).map fun r => (r.1, { w with fds := r.2 }) := by
  rw [openFile, hcur, bind_some, fdOpenatPath, opensAs]
  cases hchecked : fileOpenat e.fuel e.lookup defaultLookup 0o22#32 atFdcwd path oRdonly 0#32 with
  | none => rfl
  | some checked =>
    cases checked with
    | error code => rfl
    | ok opened =>
      simp only [bind_some]
      cases hasset : openAsset e.calls e.lookup.vfs (openFlags oRdonly) opened with
      | none => rfl
      | some asset =>
        cases asset with
        | error code => rfl
        | ok asset => simp only [bind_some, Option.map_map, comp_def]

theorem openFile_ok (handle file : ℕ) (hcur : w.fds.sched.currentTask = some p)
    (hno : NoFds (w.fds.sched.tasks p)) (hopen : opensAs e path = some (.ok asset)) :
    ∃ w', openFile e path handle file w = some (0#32, w') ∧ SameBut p w w' ∧
      HoldsFd p handle file asset w'.fds := by
  obtain ⟨n, b, halloc, hn, hsmall⟩ := hno.small.alloc (n := 0) (by omega) (hno.clear 0)
  obtain rfl := Nat.le_zero.mp hn
  have hbits := (Bitmap.alloc_spec halloc).2.2.2
  have hfresh : 0#32 ∉ keys (w.fds.sched.tasks p).fdList.slots := by
    rw [Probe.keys, hno.none]
    exact not_mem_nil
  obtain ⟨hgood, hperm⟩ := hashTablePush_fresh (d := handle) hno.good hfresh
  rw [hno.none, perm_singleton] at hperm
  let files := update w.fds.files file (some (FileHandle.init asset oRdonly none))
  let fds := { w.fds.setBitmap p b with files := files }.install p handle ⟨file, 0#32, 0#32⟩
  have htask : fds.sched.tasks p = { w.fds.sched.tasks p with
      fdBitmap := b
      fdList := hashTablePush fdHash (w.fds.sched.tasks p).fdList 0#32 handle } := by
    simp [fds, FdState.install, FdState.setBitmap]
  refine ⟨{ w with fds := fds }, ?_, ?_, ?_⟩
  · rw [openFile_eq hcur, hopen, bind_some, fdOpenat, halloc]
    rfl
  · exact (sameBut_setTask w p _ w.fds.handles files).trans
      (sameBut_setTask { w with fds := { w.fds.setBitmap p b with files := files } } p _ _ _)
  · refine ⟨htask ▸ hgood, htask ▸ hperm, htask ▸ hsmall, fun n => ?_,
      ⟨_, update_self .., rfl, rfl⟩, ⟨_, update_self .., rfl⟩⟩
    rw [htask, hbits n, hno.clear, Bool.or_false]

theorem closeFile_none (hcur : w.fds.sched.currentTask = some p)
    (hno : NoFds (w.fds.sched.tasks p)) (fd : BitVec 32) :
    ∃ w', closeFile fd w = some w' ∧ SameBut p w w' ∧ NoFds (w'.fds.sched.tasks p) := by
  have hnone : w.fds.translate p fd = none := by
    rw [FdState.translate, hashTableSearch_eq_none_iff hno.good, Probe.keys, hno.none]
    exact not_mem_nil
  refine ⟨{ w with fds := (w.fds.fail errnoEBADF).2 }, ?_, ?_, hno⟩
  · rw [closeFile, hcur, bind_some, fdClose, hnone]
    rfl
  · exact ⟨rfl, rfl, rfl, rfl, fun _ _ => rfl⟩

theorem HoldsFd.translate (h : HoldsFd p handle file asset w.fds) :
    w.fds.translate p 0#32 = some handle := by
  rw [FdState.translate, hashTableSearch_eq_some_iff h.good, h.one]
  exact mem_singleton_self _

theorem openedFile_eq (hcur : w.fds.sched.currentTask = some p)
    (h : HoldsFd p handle file asset w.fds) :
    openedFile e 0#32 w = some (e.contents asset) := by
  obtain ⟨fdHandle, hhandle, -, hfileHandle⟩ := h.handle
  obtain ⟨fileHandle, hfile, hasset⟩ := h.file
  simp only [openedFile, hcur, h.translate, hhandle, hfileHandle, hfile, hasset, bind_eq_bind,
    bind_some]

theorem closeFile_some (hcur : w.fds.sched.currentTask = some p)
    (h : HoldsFd p handle file asset w.fds) :
    ∃ w', closeFile 0#32 w = some w' ∧ SameBut p w w' ∧ NoFds (w'.fds.sched.tasks p) := by
  obtain ⟨fdHandle, hhandle, hnumber, hfileHandle⟩ := h.handle
  obtain ⟨fileHandle, hfile, hasset⟩ := h.file
  obtain ⟨files, hput⟩ : ∃ files, filePut w.fds.files file = some files := by
    rw [filePut, hfile]
    exact ⟨_, rfl⟩
  have htask : (w.fds.remove p handle fdHandle files).sched.tasks p =
      (w.fds.sched.tasks p).fdClose fdHandle := setTask_self ..
  obtain ⟨hgood, hentries⟩ := hashTableDelete_good (k := 0#32) h.good
  refine ⟨{ w with fds := w.fds.remove p handle fdHandle files }, ?_, sameBut_setTask .., ?_⟩
  · rw [closeFile, hcur, bind_some, fdClose, h.translate]
    simp only [fdCloseUnlocked, hhandle, hfileHandle, hput, bind_eq_bind, bind_some,
      map_some]
  · rw [htask]
    unfold SchedTask.fdClose
    rw [hnumber]
    refine ⟨hgood, eq_nil_iff_forall_not_mem.mpr ?_, h.small.free 0, fun n => ?_⟩
    · rintro ⟨fd, a⟩ hmem
      obtain ⟨hne, hold⟩ := (hentries fd a).mp hmem
      rw [h.one, mem_singleton] at hold
      exact hne (congrArg Prod.fst hold)
    · refine (h.small.test_free (n := 0) (by omega) n).trans ?_
      rw [h.bit n, Bool.not_and_self]

/-! ## One file -/

def loadResult (e : ExecFiles N) (path : Name) (stack : List (BitVec 8)) (base : BitVec 64)
    (wantsLd : Bool) (memory : TaskMemory N) :
    Option (Option (Option (List (BitVec 8)) × TaskMemory N)) :=
  (opensAs e path).bind fun opened =>
    match opened with
    | .error _ => some none
    | .ok asset => loadEnd (elfLoad e.machine stack e.object (e.contents asset) base wantsLd memory)

variable {stack : List (BitVec 8)} {base : BitVec 64} {wantsLd : Bool} {memory : TaskMemory N}

theorem loadFile_spec (e : ExecFiles N) (path : Name) (handle file : ℕ) (stack : List (BitVec 8))
    (base : BitVec 64) (wantsLd : Bool) (memory : TaskMemory N)
    (hcur : w.fds.sched.currentTask = some p) (hno : NoFds (w.fds.sched.tasks p)) :
    ∃ w', SameBut p w w' ∧ NoFds (w'.fds.sched.tasks p) ∧
      loadFile e path handle file stack base wantsLd memory w =
        (loadResult e path stack base wantsLd memory).map fun r => (r, w') := by
  unfold loadFile loadResult
  cases hopen : opensAs e path with
  | none =>
    refine ⟨w, .refl p w, hno, ?_⟩
    rw [openFile_eq hcur, hopen]
    rfl
  | some opened =>
    cases opened with
    | error code =>
      have herrno : SameBut p w { w with fds := (w.fds.fail code).2 } :=
        ⟨rfl, rfl, rfl, rfl, fun _ _ => rfl⟩
      obtain ⟨w', hclose, hsame, hno'⟩ := closeFile_none (herrno.currentTask.trans hcur) hno (-1#32)
      refine ⟨w', herrno.trans hsame, hno', ?_⟩
      rw [openFile_eq hcur, hopen]
      exact congrArg (Option.map fun w => (none, w)) hclose
    | ok asset =>
      obtain ⟨w₁, hopened, hsame₁, hholds⟩ := openFile_ok handle file hcur hno hopen
      have hcur₁ := hsame₁.currentTask.trans hcur
      obtain ⟨w₂, hclose, hsame₂, hno₂⟩ := closeFile_some hcur₁ hholds
      refine ⟨w₂, hsame₁.trans hsame₂, hno₂, ?_⟩
      have hfd : ¬ 0#32 = -1#32 := by decide
      rw [hopened]
      simp only [bind_some, if_neg hfd, openedFile_eq hcur₁ hholds, hclose,
        map_eq_bind, comp_def]

theorem loadEnd_eq_none_iff {r : ElfResult × LoadState N} :
    loadEnd r = some none ↔ r.1 = .invalid := by
  obtain ⟨result, s⟩ := r
  cases result <;> simp [loadEnd]

theorem loadEnd_eq_some_iff {r : ElfResult × LoadState N}
    {x : Option (List (BitVec 8)) × TaskMemory N} :
    loadEnd r = some (some x) ↔ (∃ aux, r.1 = .loaded aux x.1) ∧ r.2.memory = x.2 := by
  obtain ⟨result, s⟩ := r
  cases result <;> simp [loadEnd, Prod.ext_iff]

theorem elfLoad_invalid_iff {f : ElfFile} :
    (elfLoad e.machine stack e.object f base wantsLd memory).1 = .invalid ↔
      ∃ hdr, f.header stack = some hdr ∧ elfValidate hdr = false := by
  unfold elfLoad
  cases hheader : f.header stack with
  | none => simp
  | some hdr =>
    by_cases hvalid : elfValidate hdr = true
    · cases hphdrs : f.programHeaders hdr with
      | none => simp [hvalid, hphdrs]
      | some phdrs =>
        simp only [hphdrs]
        split_ifs <;> simp [hvalid]
    · simp [hvalid]

theorem loadResult_eq_none_iff :
    loadResult e path stack base wantsLd memory = some none ↔ Unloadable e path stack := by
  constructor
  · intro h
    obtain ⟨opened, hopen, h⟩ := bind_eq_some_iff.mp h
    cases opened with
    | error code => exact .missing hopen
    | ok asset =>
      obtain ⟨hdr, hheader, hvalid⟩ := elfLoad_invalid_iff.mp (loadEnd_eq_none_iff.mp h)
      exact .invalid hopen hheader hvalid
  · intro h
    cases h with
    | missing hopen => rw [loadResult, hopen, bind_some]
    | invalid hopen hheader hvalid =>
      rw [loadResult, hopen]
      exact loadEnd_eq_none_iff.mpr (elfLoad_invalid_iff.mpr ⟨_, hheader, hvalid⟩)

theorem loadResult_eq_some_iff {r : Option (List (BitVec 8)) × TaskMemory N} :
    loadResult e path stack base wantsLd memory = some (some r) ↔
      ∃ asset, opensAs e path = some (.ok asset) ∧
        loadEnd (elfLoad e.machine stack e.object (e.contents asset) base wantsLd memory) =
          some (some r) := by
  constructor
  · intro h
    obtain ⟨opened, hopen, h⟩ := bind_eq_some_iff.mp h
    cases opened with
    | error code => exact absurd h (by simp)
    | ok asset => exact ⟨asset, hopen, h⟩
  · rintro ⟨asset, hopen, h⟩
    rw [loadResult, hopen]
    exact h

/-! ## The call as a whole -/

theorem execFails_iff : ExecFails e ↔ loadResult e e.path e.stack 0#64 true e.memory = some none ∨
      ∃ ld memory, loadResult e e.path e.stack 0#64 true e.memory = some (some (some ld, memory)) ∧
        loadResult e (ldPath ld) e.ldStack 0x40000000#64 false memory = some none := by
  constructor
  · intro h
    cases h with
    | program h => exact .inl (loadResult_eq_none_iff.mpr h)
    | interpreter hopen hload h =>
      exact .inr ⟨_, _, loadResult_eq_some_iff.mpr
          ⟨_, hopen, loadEnd_eq_some_iff.mpr ⟨⟨_, hload⟩, rfl⟩⟩,
        loadResult_eq_none_iff.mpr h⟩
  · rintro (h | ⟨ld, memory, hprogram, h⟩)
    · exact .program (loadResult_eq_none_iff.mp h)
    · obtain ⟨asset, hopen, hend⟩ := loadResult_eq_some_iff.mp hprogram
      obtain ⟨⟨aux, hload⟩, -⟩ := loadEnd_eq_some_iff.mp hend
      exact .interpreter hopen hload (loadResult_eq_none_iff.mp h)

variable {c : ExecCall}

theorem execFiles_spec (e : ExecFiles N) (current currentThread : ℕ)
    (hcur : w.fds.sched.currentTask = some c.task) (hno : NoFds (w.fds.sched.tasks c.task)) :
    (ExecFails e → ∃ w₁, SameBut c.task w w₁ ∧
      execFiles c e current currentThread w = some (none, w₁.giveUp current)) ∧
    ((∃ w', execFiles c e current currentThread w = some (none, w')) → ExecFails e) := by
  obtain ⟨w₁, hsame₁, hno₁, hload₁⟩ := loadFile_spec e e.path e.handle e.file e.stack 0#64 true
    e.memory hcur hno
  rw [execFails_iff, execFiles, hload₁]
  rcases loadResult e e.path e.stack 0#64 true e.memory with _ | _ | ⟨_ | ld, memory⟩
  · simp
  · exact ⟨fun _ => ⟨w₁, hsame₁, rfl⟩, fun _ => .inl rfl⟩
  · simp
  · obtain ⟨w₂, hsame₂, -, hload₂⟩ := loadFile_spec e (ldPath ld) e.ldHandle e.ldFile
      e.ldStack 0x40000000#64 false memory (hsame₁.currentTask.trans hcur) hno₁
    simp only [map_some, bind_some, hload₂]
    rcases hld : loadResult e (ldPath ld) e.ldStack 0x40000000#64 false memory with _ | _ | r
    · simp [hld]
    · exact ⟨fun _ => ⟨w₂, hsame₁.trans hsame₂, rfl⟩, fun _ => .inr ⟨ld, memory, rfl, hld⟩⟩
    · simp [hld]

end Files

/-! ## Before the files -/

section Call

variable {c : ExecCall} {e : ExecFiles N} {w w' : ExecWorld}

theorem core_enter (c : ExecCall) (w : ExecWorld) :
    (w.enter c).fds.sched.core = w.fds.sched.core := rfl

theorem currentTask_setPid (w : ExecWorld) (pid : BitVec 64) :
    (w.setPid pid).fds.sched.currentTask = schedTranslatePid w.fds.sched pid := rfl

theorem noFds_enter (c : ExecCall) (w : ExecWorld) :
    NoFds (((w.enter c).setPid c.pid).fds.sched.tasks c.task) := by
  have htask : ((w.enter c).setPid c.pid).fds.sched.tasks c.task = defaultTask c _ := update_self ..
  rw [htask]
  exact noFds_defaultTask c _

namespace ExecBegins

section

variable (h : ExecBegins c w)

include h

theorem translate_of_ne {pid : BitVec 64} (hpid : pid ≠ c.pid) :
    schedTranslatePid (w.enter c).fds.sched pid = schedTranslatePid w.fds.sched pid := by
  obtain ⟨hgood, hperm⟩ := hashTablePush_fresh (d := c.task) h.good h.freshPid
  refine ext fun p => ?_
  refine (hashTableSearch_eq_some_iff hgood).trans (Iff.trans ?_
    (hashTableSearch_eq_some_iff h.good).symm)
  rw [hperm.mem_iff, mem_cons, Prod.mk.injEq]
  exact or_iff_right fun heq => hpid heq.1

theorem translate_self : schedTranslatePid (w.enter c).fds.sched c.pid = some c.task := by
  obtain ⟨hgood, hperm⟩ := hashTablePush_fresh (d := c.task) h.good h.freshPid
  exact (hashTableSearch_eq_some_iff hgood).mpr (hperm.mem_iff.mpr (mem_cons_self ..))

theorem translate_fresh : schedTranslatePid w.fds.sched c.pid = none :=
  (hashTableSearch_eq_none_iff h.good).mpr h.freshPid

theorem pid_ne : w.fds.sched.core.pid ≠ c.pid := by
  intro heq
  have hcaller := h.caller
  rw [SchedState.currentTask, heq, h.translate_fresh] at hcaller
  simp at hcaller

theorem caller_enter :
    (w.enter c).fds.sched.tasks c.caller = w.fds.sched.tasks c.caller :=
  update_of_ne h.freshTask.symm ..

theorem currentTask_enter : (w.enter c).fds.sched.currentTask = some c.caller :=
  (h.translate_of_ne h.pid_ne).trans h.caller

theorem currentThread_enter : (w.enter c).fds.sched.currentThread = some c.callerThread := by
  have hbefore := h.callerThread
  rw [SchedState.currentThread, schedTranslateTid, ← SchedState.currentTask, h.caller] at hbefore
  rw [SchedState.currentThread, schedTranslateTid, ← SchedState.currentTask, h.currentTask_enter,
    core_enter, bind_some, h.caller_enter]
  exact hbefore

theorem currentTask_files : ((w.enter c).setPid c.pid).fds.sched.currentTask = some c.task :=
  (currentTask_setPid (w.enter c) c.pid).trans h.translate_self

theorem schedTaskExecPath_eq : schedTaskExecPath c e w =
    execFiles c e c.caller c.callerThread ((w.enter c).setPid c.pid) := by
  simp only [schedTaskExecPath, h.unlocked, Bool.false_eq_true, if_false, h.currentTask_enter,
    h.currentThread_enter]

end

end ExecBegins

theorem schedTaskExecPath_null_iff (h : ExecBegins c w) :
    (∃ w', schedTaskExecPath c e w = some (none, w')) ↔ ExecFails e := by
  rw [h.schedTaskExecPath_eq]
  obtain ⟨hfails, hnull⟩ := execFiles_spec e c.caller c.callerThread
    h.currentTask_files (noFds_enter c w)
  refine ⟨hnull, fun he => ?_⟩
  obtain ⟨w₁, -, hcall⟩ := hfails he
  exact ⟨_, hcall⟩

theorem schedTaskExecPath_null (h : ExecBegins c w)
    (hnull : schedTaskExecPath c e w = some (none, w')) :
    w'.fds.sched.core.pid = w.fds.sched.core.pid ∧ w'.schedLock = w.schedLock ∧
      w'.fds.sched.tasks c.caller = w.fds.sched.tasks c.caller ∧
      schedTranslatePid w'.fds.sched c.pid = some c.task ∧
      w'.activeTable = c.image.pageTable := by
  have he := (schedTaskExecPath_null_iff h).mp ⟨w', hnull⟩
  obtain ⟨w₁, hsame, hcall⟩ := (execFiles_spec e c.caller c.callerThread
    h.currentTask_files (noFds_enter c w)).1 he
  rw [h.schedTaskExecPath_eq, hcall, some_inj] at hnull
  obtain ⟨-, rfl⟩ := hnull
  have hcaller := (hsame.others c.caller h.freshTask.symm).trans h.caller_enter
  refine ⟨?_, h.unlocked.symm, hcaller, ?_, hsame.activeTable⟩
  · exact (congrArg SchedTask.pid hcaller).trans h.callerPid
  · refine Eq.trans ?_ h.translate_self
    exact congrArg (fun l => hashTableSearch addressHash l c.pid) hsame.taskList

/-- **No call that fails leaves everything as it was**: this holds for the calls that do not fail. -/
theorem fails_cleanly_iff (h : ExecBegins c w) : FailsCleanly c e w ↔ ¬ ExecFails e := by
  constructor
  · intro hclean he
    obtain ⟨w', hnull⟩ := (schedTaskExecPath_null_iff h).mpr he
    obtain ⟨-, -, -, hleft, -⟩ := schedTaskExecPath_null h hnull
    -- The pid of the new task was not in use.
    have hlist := (hclean w' hnull).1.taskList c.pid
    rw [hleft, h.translate_fresh] at hlist
    simp at hlist
  · intro he w' hnull
    exact absurd ((schedTaskExecPath_null_iff h).mp ⟨w', hnull⟩) he

end Call

/-! ## An empty file -/

def programTree : LookupState where
  vfs :=
    { nodes := fun n =>
        match n with
        | 0 => ⟨[slash], 0, none, none, none, [1], none⟩
        | _ => ⟨[0x66#8], 1, none, some 0, none, [], none⟩
      nodeCnt := 2
      assets := fun a =>
        match a with
        | 0 => vfsDefaultAsset (sIfdir ||| 0o755#32)
        | _ => vfsDefaultAsset (sIfreg ||| 0o755#32)
      assetCnt := 2 }
  owners _ := ⟨0#32, 0#32⟩

def emptyProgram : ExecFiles Unit where
  path := [slash, 0x66#8]
  lookup := programTree
  calls := ⟨fun _ => .error errnoENOENT, fun _ => .ok ()⟩
  fuel := 1
  contents _ := .ofList [] fun _ => none
  machine := plainMachine
  memory := newTask
  handle := 10
  file := 20
  ldHandle := 11
  ldFile := 21
  stack := []
  ldStack := []
  object _ := 0#64

def execWorld : ExecWorld := ⟨⟨execCaller.sched, fun _ => none, fun _ => none⟩, 1, false⟩

theorem execBegins_execWorld : ExecBegins suidCall execWorld where
  unlocked := rfl
  good := (hashTablePush_fresh good_empty (by decide)).1
  caller := by decide +kernel
  callerThread := by decide +kernel
  callerPid := rfl
  freshPid := by decide +kernel
  freshTask := by decide

theorem execFails_emptyProgram : ExecFails emptyProgram := by
  have hopen : opensAs emptyProgram emptyProgram.path = some (.ok 1) := by decide +kernel
  have hheader : ((emptyProgram.contents 1).header []).map elfValidate = some false := by
    decide +kernel
  obtain ⟨hdr, hhdr, hvalid⟩ := map_eq_some_iff.mp hheader
  exact .program (.invalid hopen hhdr hvalid)

def shortProgram : ExecFiles Unit := { emptyProgram with contents := fun _ => shortFile }

theorem not_execFails_shortProgram : ¬ ExecFails shortProgram := by
  have hopen : opensAs shortProgram shortProgram.path = some (.ok 1) := by decide +kernel
  have hheader : (shortFile.header []).all elfValidate := by decide +kernel
  have hload : (elfLoad plainMachine [] (fun _ => 0#64) shortFile 0#64 true newTask).1 =
      .loaded ⟨0x1000#64, 0#64, 56#64, 1#64⟩ none := by decide +kernel
  rintro ((hmissing | ⟨hopen', hhdr, hinvalid⟩) | ⟨-, hload', -⟩)
  · cases hopen.symm.trans hmissing
  · change shortFile.header [] = _ at hhdr
    rw [hhdr, all_some, hinvalid] at hheader
    cases hheader
  · cases hload.symm.trans hload'

/-- **An empty file and a program**: the first call fails and the second does not. -/
theorem fails_cleanly_iff_programs : ExecBegins suidCall execWorld ∧
    ¬ FailsCleanly suidCall emptyProgram execWorld ∧
    FailsCleanly suidCall shortProgram execWorld :=
  ⟨execBegins_execWorld,
    fun hclean => (fails_cleanly_iff execBegins_execWorld).mp hclean execFails_emptyProgram,
    (fails_cleanly_iff execBegins_execWorld).mpr not_execFails_shortProgram⟩

/-- **A task is left behind**: an empty file is executed. -/
theorem empty_program_leaves_task :
    (schedTaskExecPath suidCall emptyProgram execWorld).map (fun r =>
        (r.1, schedTranslatePid r.2.fds.sched 3#64, r.2.activeTable)) = some (none, some 2, 5) ∧
      schedTranslatePid execWorld.fds.sched 3#64 = none ∧ execWorld.activeTable = 1 ∧
      (syscallExecvePath suidCall emptyProgram execWorld).isNone := by
  decide +kernel

end Pastoral
