import Pastoral.Fs.Fd

/-!
# Replacing a task: execve

`syscall_execve` of `sched.c`, from `sched_task_exec` on, with a timer interrupt between any two of
its statements.

## Main results

* `handsOver_of_unexposed`: the new thread has all of its caller, if no interrupt exposes it
-/

open BitVec Function List Option Probe Transition

namespace Pastoral

/-! ## The functions -/

structure ExecImage where
  pageTable : ℕ
  kernelStack : BitVec 64
  userStack : BitVec 64
  regs : Registers

structure ExecCall where
  caller : ℕ
  callerThread : ℕ
  task : ℕ
  thread : ℕ
  event : ℕ
  exitTrigger : ℕ
  exitEvent : ℕ
  pid : BitVec 64
  image : ExecImage
  isSuid : Bool
  isSgid : Bool
  stUid : BitVec 32
  stGid : BitVec 32
  handles : ℕ → FdHandle

def ExecCall.Inherits (c : ExecCall) (handle : ℕ) : Prop :=
  (c.handles handle).flags &&& oCloexec = 0#32
  deriving Decidable

def schedDefaultTask (c : ExecCall) (ppid : BitVec 64) : SchedTask :=
  { SchedTask.zeroed with
    pid := c.pid
    ppid := ppid
    status := .yield
    fdList := ⟨List.replicate 16 none⟩
    fdBitmap := ⟨List.replicate 0x200 0#8, 0x200⟩
    event := c.event
    exitTrigger := c.exitTrigger
    umask := 0o22#32
    pageTable := c.image.pageTable
    threadList := hashTablePush addressHash HashTable.empty 0#64 c.thread }

def schedThreadExec (c : ExecCall) : SchedThread :=
  { SchedThread.zeroed with
    pid := c.pid
    status := .yield
    kernelStack := c.image.kernelStack
    userStack := c.image.userStack
    regs := c.image.regs }

def schedTaskExec (c : ExecCall) (s : SchedState) : Option SchedState :=
  match s.currentTask, s.currentThread with
  | some currentTask, some currentThread =>
    let pid := (s.tasks currentTask).pid
    some { s with
      tasks := update s.tasks c.task (schedDefaultTask c pid)
      threads := update s.threads c.thread (schedThreadExec c)
      events := update (update s.events c.event ⟨c.task, c.thread, 0#32⟩)
        c.exitEvent ⟨currentTask, currentThread, 0#32⟩
      triggers := update s.triggers c.exitTrigger ⟨c.task, some c.exitEvent, .procExit⟩
      taskList := hashTablePush addressHash s.taskList c.pid c.task
      core := { s.core with pid := pid } }
  | _, _ => none

def inheritFd (c : ExecCall) (i : ℕ) (s : SchedState) : Option SchedState :=
  if (s.tasks c.task).fdBitmap.test i then
    s.currentTask.bind fun current =>
      (hashTableSearch fdHash (s.tasks current).fdList (BitVec.ofNat 32 i)).map fun handle =>
        if c.Inherits handle then
          let task := s.tasks c.task
          { s with
            tasks := update s.tasks c.task
              { task with
                fdList := hashTablePush fdHash task.fdList (c.handles handle).fdNumber handle } }
        else
          { s with
            tasks := update s.tasks current
              ((s.tasks current).fdClose (c.handles handle)) }
  else some s

inductive ExecField
  | cwd
  | pid
  | ppid
  | exitTrigger
  | realUid
  | effectiveUid
  | savedUid
  | realGid
  | effectiveGid
  | savedGid
  | pgid
  | group
  | sid
  | session
  | umask
  | hasExecved
  deriving DecidableEq, Repr

def ExecField.write (c : ExecCall) (caller task : SchedTask) : ExecField → SchedTask
  | .cwd => { task with cwd := caller.cwd }
  | .pid => { task with pid := caller.pid }
  | .ppid => { task with ppid := caller.ppid }
  | .exitTrigger => { task with exitTrigger := caller.exitTrigger }
  | .realUid => { task with realUid := caller.realUid }
  | .effectiveUid =>
    { task with effectiveUid := if c.isSuid then c.stUid else caller.effectiveUid }
  | .savedUid => { task with savedUid := task.effectiveUid }
  | .realGid => { task with realGid := caller.realGid }
  | .effectiveGid =>
    { task with effectiveGid := if c.isSgid then c.stGid else caller.effectiveGid }
  | .savedGid => { task with savedGid := task.effectiveGid }
  | .pgid => { task with pgid := caller.pgid }
  | .group => { task with group := caller.group }
  | .sid => { task with sid := caller.sid }
  | .session => { task with session := caller.session }
  | .umask => { task with umask := caller.umask }
  | .hasExecved => { task with hasExecved := true }

inductive ExecPoint
  | taskExec
  | taskStatus
  | threadStatus
  | dupFds
  | fd (i : ℕ)
  | deleteCaller
  | deleteTask
  | field (f : ExecField)
  | threadPid
  | clearPid
  | clearTid
  | push
  | done
  deriving DecidableEq, Repr

def ExecField.next : ExecField → ExecPoint
  | .cwd => .field .pid
  | .pid => .field .ppid
  | .ppid => .field .exitTrigger
  | .exitTrigger => .threadPid
  | .realUid => .field .effectiveUid
  | .effectiveUid => .field .savedUid
  | .savedUid => .field .realGid
  | .realGid => .field .effectiveGid
  | .effectiveGid => .field .savedGid
  | .savedGid => .field .pgid
  | .pgid => .field .group
  | .group => .field .sid
  | .sid => .field .session
  | .session => .field .umask
  | .umask => .field .hasExecved
  | .hasExecved => .clearPid

def execNext (c : ExecCall) (s : SchedState) : ExecPoint → Option (ExecPoint × SchedState)
  | .taskExec => (schedTaskExec c s).map fun s => (.taskStatus, s)
  | .taskStatus =>
    some (.threadStatus, s.setTask c.task { s.tasks c.task with status := .waiting })
  | .threadStatus =>
    some (.dupFds, s.setThread c.thread { s.threads c.thread with status := .waiting })
  | .dupFds =>
    some (.fd 0, s.setTask c.task
      { s.tasks c.task with fdBitmap := (s.tasks c.caller).fdBitmap.dup })
  | .fd i =>
    if i < (s.tasks c.task).fdBitmap.size then (inheritFd c i s).map fun s => (.fd (i + 1), s)
    else some (.deleteCaller, s)
  | .deleteCaller =>
    some (.deleteTask,
      { s with taskList := hashTableDelete addressHash s.taskList (s.tasks c.caller).pid })
  | .deleteTask =>
    some (.field .cwd,
      { s with taskList := hashTableDelete addressHash s.taskList (s.tasks c.task).pid })
  | .field f => some (f.next, s.setTask c.task (f.write c (s.tasks c.caller) (s.tasks c.task)))
  | .threadPid =>
    some (.field .realUid,
      s.setThread c.thread { s.threads c.thread with pid := (s.tasks c.task).pid })
  | .clearPid => some (.clearTid, { s with core := { s.core with pid := -1#64 } })
  | .clearTid => some (.push, { s with core := { s.core with tid := -1#64 } })
  | .push =>
    some (.done,
      { s with taskList := hashTablePush addressHash s.taskList (s.tasks c.task).pid c.task })
  | .done => none

/-! ## Statements and timer interrupts -/

structure ExecState where
  sched : SchedState
  point : ExecPoint
  onCore : Bool

inductive ExecOp
  | statement
  | tick (regs : Registers)

def Resumed.onCore (c : ExecCall) (onCore : Bool) : Resumed → Bool
  | .interrupted => onCore
  | .idle => false
  | .switched task thread => decide (task = c.caller ∧ thread = c.callerThread)

def execStepNext (c : ExecCall) (s : ExecState) : ExecOp → Option ExecState
  | .statement =>
    if s.onCore then
      (execNext c s.sched s.point).map fun r => { s with point := r.1, sched := r.2 }
    else none
  | .tick regs => (reschedule regs s.sched).map fun r =>
      { s with sched := r.2, onCore := r.1.onCore c s.onCore }

/-- One step. -/
def execStep (c : ExecCall) (s : ExecState) (op : ExecOp) (s' : ExecState) : Prop :=
  execStepNext c s op = some s'

structure HandedOver (c : ExecCall) (caller task : SchedTask) : Prop where
  pid : task.pid = caller.pid
  ppid : task.ppid = caller.ppid
  realUid : task.realUid = caller.realUid
  effectiveUid : task.effectiveUid = if c.isSuid then c.stUid else caller.effectiveUid
  realGid : task.realGid = caller.realGid
  effectiveGid : task.effectiveGid = if c.isSgid then c.stGid else caller.effectiveGid
  cwd : task.cwd = caller.cwd
  umask : task.umask = caller.umask
  descriptors : ∀ fd handle, hashTableSearch fdHash task.fdList fd = some handle ↔
    hashTableSearch fdHash caller.fdList fd = some handle ∧ c.Inherits handle

/-- **The claimed atomicity**: if the step switches to the new thread, its task has everything. -/
def HandsOver (c : ExecCall) (caller : SchedTask) (s : ExecState) : ExecOp → Prop
  | .tick regs =>
    match reschedule regs s.sched with
    | some (.switched task thread, s') => thread = c.thread → HandedOver c caller (s'.tasks task)
    | _ => True
  | .statement => True

def ExecPoint.Exposed : ExecPoint → Bool
  | .dupFds => true
  | .fd _ => true
  | .deleteCaller => true
  | .deleteTask => true
  | _ => false

/-- No timer interrupt comes while the new thread is exposed. -/
def Unexposed (s : ExecState) : ExecOp → Prop
  | .tick _ => s.point.Exposed = false
  | .statement => True

instance (s : ExecState) : DecidablePred (Unexposed s)
  | .tick _ => inferInstanceAs (Decidable (s.point.Exposed = false))
  | .statement => .isTrue trivial

/-! ## The descriptors -/

section Descriptors

variable {c : ExecCall} {i : ℕ} {caller : SchedTask} {current new : HashTable (BitVec 32) ℕ}

structure FdsSound (c : ExecCall) (t : SchedTask) : Prop where
  good : t.fdList.Good fdHash
  keyed : ∀ fd handle, (fd, handle) ∈ entries t.fdList.slots →
    (c.handles handle).fdNumber = fd
  bit : ∀ fd handle, (fd, handle) ∈ entries t.fdList.slots →
    t.fdBitmap.test fd.toNat = true
  small : t.fdBitmap.size < 2 ^ 32

structure FdsKept (c : ExecCall) (t : SchedTask) : Prop extends FdsSound c t where
  below : ∀ fd handle, (fd, handle) ∈ entries t.fdList.slots → fd.toNat < t.fdBitmap.size

variable {t : SchedTask} {handle : ℕ}

structure FdsBelow (c : ExecCall) (caller : SchedTask) (i : ℕ)
    (current new : HashTable (BitVec 32) ℕ) : Prop where
  good : new.Good fdHash
  passed : ∀ fd handle, (fd, handle) ∈ entries new.slots ↔
    fd.toNat < i ∧ (fd, handle) ∈ entries caller.fdList.slots ∧ c.Inherits handle
  currentGood : current.Good fdHash
  ahead : ∀ fd handle, i ≤ fd.toNat →
    ((fd, handle) ∈ entries current.slots ↔ (fd, handle) ∈ entries caller.fdList.slots)

theorem FdsBelow.skip (h : FdsBelow c caller i current new) (hkept : FdsSound c caller)
    (hbit : caller.fdBitmap.test i = false) :
    FdsBelow c caller (i + 1) current new := by
  refine ⟨h.good, fun fd handle => ?_, h.currentGood, fun fd handle hfd => ?_⟩
  · rw [h.passed]
    refine and_congr_left fun hmem => ?_
    have hne : fd.toNat ≠ i := by
      rintro rfl
      rw [hkept.bit fd handle hmem.1] at hbit
      simp at hbit
    omega
  · exact h.ahead fd handle (by omega)

theorem FdsBelow.found (h : FdsBelow c caller i current new) (hi : i < 2 ^ 32)
    (hfound : hashTableSearch fdHash current (BitVec.ofNat 32 i) = some handle) :
    (BitVec.ofNat 32 i, handle) ∈ entries caller.fdList.slots := by
  have htoNat : (BitVec.ofNat 32 i).toNat = i := by
    exact Nat.mod_eq_of_lt hi
  exact (h.ahead _ _ (by rw [htoNat])).mp ((hashTableSearch_eq_some_iff h.currentGood).mp hfound)

theorem lt_succ_iff_ofNat {fd : BitVec 32} (hi : i < 2 ^ 32) :
    fd.toNat < i + 1 ↔ fd = BitVec.ofNat 32 i ∨ fd.toNat < i := by
  have heq : fd = BitVec.ofNat 32 i ↔ fd.toNat = i := by
    rw [← toNat_inj, toNat_ofNat, Nat.mod_eq_of_lt hi]
  rw [heq]
  omega

section

variable (h : FdsBelow c caller i current new) (hkept : FdsSound c caller)
    (hi : i < 2 ^ 32) (hmem : (BitVec.ofNat 32 i, handle) ∈ entries caller.fdList.slots)

include h hkept hi hmem

theorem FdsBelow.push (hinherits : c.Inherits handle) : FdsBelow c caller (i + 1) current
      (hashTablePush fdHash new (c.handles handle).fdNumber handle) := by
  rw [hkept.keyed _ _ hmem]
  have hfresh : BitVec.ofNat 32 i ∉ keys new.slots := by
    intro hkey
    obtain ⟨handle', hmem'⟩ := mem_keys_iff.mp hkey
    have hlt := ((h.passed _ _).mp hmem').1
    rw [toNat_ofNat] at hlt
    exact absurd hlt (by omega)
  have hperm := (hashTablePush_fresh (d := handle) h.good hfresh).2
  refine ⟨(hashTablePush_fresh h.good hfresh).1, fun fd handle' => ?_, h.currentGood,
    fun fd handle' hfd => h.ahead fd handle' (by omega)⟩
  rw [hperm.mem_iff, mem_cons, h.passed, lt_succ_iff_ofNat hi, Prod.mk.injEq]
  constructor
  · rintro (⟨rfl, rfl⟩ | ⟨hlt, hold, hinh⟩)
    · exact ⟨.inl rfl, hmem, hinherits⟩
    · exact ⟨.inr hlt, hold, hinh⟩
  · rintro ⟨rfl | hlt, hold, hinh⟩
    · exact .inl ⟨rfl, hkept.good.entry_unique hold hmem⟩
    · exact .inr ⟨hlt, hold, hinh⟩

theorem FdsBelow.close (hcloses : ¬ c.Inherits handle) :
    FdsBelow c caller (i + 1) (hashTableDelete fdHash current (c.handles handle).fdNumber)
      new := by
  obtain ⟨hgood, hentries⟩ := hashTableDelete_good (k := (c.handles handle).fdNumber) h.currentGood
  refine ⟨h.good, fun fd handle' => ?_, hgood, fun fd handle' hfd => ?_⟩
  · rw [h.passed, lt_succ_iff_ofNat hi]
    constructor
    · rintro ⟨hlt, hold, hinh⟩
      exact ⟨.inr hlt, hold, hinh⟩
    · rintro ⟨rfl | hlt, hold, hinh⟩
      · rw [hkept.good.entry_unique hold hmem] at hinh
        exact absurd hinh hcloses
      · exact ⟨hlt, hold, hinh⟩
  · rw [hentries, hkept.keyed _ _ hmem, h.ahead fd handle' (by omega)]
    refine and_iff_right ?_
    rintro rfl
    rw [toNat_ofNat] at hfd
    omega

end

def FdsPassed (c : ExecCall) (caller new : SchedTask) : Prop :=
  ∀ fd handle, hashTableSearch fdHash new.fdList fd = some handle ↔
    fd.toNat < caller.fdBitmap.size ∧ hashTableSearch fdHash caller.fdList fd = some handle ∧
      c.Inherits handle

theorem FdsBelow.all (h : FdsBelow c caller i current t.fdList)
    (hkept : FdsSound c caller) (hi : i = caller.fdBitmap.size) : FdsPassed c caller t := by
  intro fd handle
  rw [hashTableSearch_eq_some_iff h.good, hashTableSearch_eq_some_iff hkept.good, h.passed, hi]

theorem FdsPassed.descriptors (h : FdsPassed c caller t) (hkept : FdsKept c caller)
    (fd : BitVec 32) (handle : ℕ) : hashTableSearch fdHash t.fdList fd = some handle ↔
      hashTableSearch fdHash caller.fdList fd = some handle ∧ c.Inherits handle := by
  rw [h fd handle]
  refine and_iff_right_of_imp fun hmem => ?_
  exact hkept.below fd handle ((hashTableSearch_eq_some_iff hkept.good).mp hmem.1)

end Descriptors

/-! ## The fields -/

section Fields

variable {c : ExecCall} {caller task : SchedTask}

def ExecField.all : List ExecField :=
  [.cwd, .pid, .ppid, .exitTrigger, .realUid, .effectiveUid, .savedUid, .realGid, .effectiveGid,
    .savedGid, .pgid, .group, .sid, .session, .umask, .hasExecved]

def ExecPoint.written : ExecPoint → List ExecField
  | .field f => ExecField.all.takeWhile (· ≠ f)
  | .threadPid => [.cwd, .pid, .ppid, .exitTrigger]
  | .clearPid => ExecField.all
  | .clearTid => ExecField.all
  | .push => ExecField.all
  | .done => ExecField.all
  | _ => []

theorem written_next (f : ExecField) :
    ∀ g ∈ f.next.written, g = f ∨ g ∈ (ExecPoint.field f).written := by
  cases f <;> decide

def ExecField.Done (c : ExecCall) (caller task : SchedTask) : ExecField → Prop
  | .cwd => task.cwd = caller.cwd
  | .pid => task.pid = caller.pid
  | .ppid => task.ppid = caller.ppid
  | .exitTrigger => task.exitTrigger = caller.exitTrigger
  | .realUid => task.realUid = caller.realUid
  | .effectiveUid => task.effectiveUid = if c.isSuid then c.stUid else caller.effectiveUid
  | .savedUid => True
  | .realGid => task.realGid = caller.realGid
  | .effectiveGid => task.effectiveGid = if c.isSgid then c.stGid else caller.effectiveGid
  | .savedGid => True
  | .pgid => task.pgid = caller.pgid
  | .group => task.group = caller.group
  | .sid => task.sid = caller.sid
  | .session => task.session = caller.session
  | .umask => task.umask = caller.umask
  | .hasExecved => task.hasExecved = true

def CallerKept (caller t : SchedTask) : Prop :=
  ∃ fdList fdBitmap n status waiting, t =
    { caller with
      fdList := fdList, fdBitmap := fdBitmap, idleCnt := n, status := status,
      eventWaiting := waiting }

variable {t : SchedTask}

theorem ExecField.done_write (h : CallerKept caller t) (f : ExecField) :
    f.Done c caller (f.write c t task) := by
  obtain ⟨fdList, fdBitmap, n, status, waiting, rfl⟩ := h
  cases f <;> first | rfl | trivial

theorem ExecField.Done.write (hkept : CallerKept caller t) {f : ExecField}
    (h : f.Done c caller task) (g : ExecField) : f.Done c caller (g.write c t task) := by
  by_cases heq : f = g
  · rw [heq]
    exact ExecField.done_write hkept g
  · cases f <;> cases g <;> first | exact h | exact absurd rfl heq

theorem ExecField.write_fdList (f : ExecField) :
    (f.write c t task).fdList = task.fdList := by
  cases f <;> rfl

theorem ExecField.write_fdBitmap (f : ExecField) :
    (f.write c t task).fdBitmap = task.fdBitmap := by
  cases f <;> rfl

end Fields

/-! ## The invariant -/

section Invariant

variable {c : ExecCall} {caller : SchedTask} {s s' : ExecState} {regs : Registers}

def ExecPoint.Asleep : ExecPoint → Bool
  | .taskStatus => true
  | .threadStatus => true
  | _ => false

def ExecPoint.Hidden : ExecPoint → Bool
  | .field _ => true
  | .threadPid => true
  | .clearPid => true
  | .clearTid => true
  | .push => true
  | _ => false

def ExecPoint.Listed (point : ExecPoint) : Bool :=
  !point.Hidden && (point != .deleteTask) && (point != .done)

def ExecFds (c : ExecCall) (caller current new : SchedTask) : ExecPoint → Prop
  | .taskExec => current.fdList = caller.fdList ∧ current.fdBitmap = caller.fdBitmap
  | .taskStatus => current.fdBitmap = caller.fdBitmap ∧ FdsBelow c caller 0 current.fdList new.fdList
  | .threadStatus => current.fdBitmap = caller.fdBitmap ∧ FdsBelow c caller 0 current.fdList new.fdList
  | .dupFds => current.fdBitmap = caller.fdBitmap ∧ FdsBelow c caller 0 current.fdList new.fdList
  | .fd i => new.fdBitmap = caller.fdBitmap.dup ∧ i ≤ caller.fdBitmap.size ∧
      FdsBelow c caller i current.fdList new.fdList
  | _ => new.fdBitmap = caller.fdBitmap.dup ∧ FdsPassed c caller new

structure ExecInv (c : ExecCall) (caller : SchedTask) (s : ExecState) : Prop where
  kept : CallerKept caller (s.sched.tasks c.caller)
  good : s.point ≠ .done → s.sched.taskList.Good addressHash
  only : ∀ p ≠ c.task, c.thread ∉ tablePointers (s.sched.tasks p).threadList
  listed : s.point.Listed = true → (caller.pid, c.caller) ∈ entries s.sched.taskList.slots
  core : s.point.Listed = true → s.onCore = true → s.sched.core.pid = caller.pid
  unborn : s.point = .taskExec →
    c.task ∉ tablePointers s.sched.taskList ∧ c.pid ∉ keys s.sched.taskList.slots
  own : s.point.Asleep = true ∨ s.point.Exposed = true → (s.sched.tasks c.task).pid = c.pid ∧
    ∀ pid, (pid, c.task) ∈ entries s.sched.taskList.slots → pid = c.pid
  asleep : s.point.Asleep = true → (s.sched.threads c.thread).status = .yield
  hidden : s.point.Hidden = true → c.task ∉ tablePointers s.sched.taskList
  fields : ∀ f ∈ s.point.written, f.Done c caller (s.sched.tasks c.task)
  fds : ExecFds c caller (s.sched.tasks c.caller) (s.sched.tasks c.task) s.point

theorem CallerKept.reschedule {r : Resumed} {s s' : SchedState} {p : ℕ}
    (h : CallerKept caller (s.tasks p)) (hr : reschedule regs s = some (r, s')) :
    CallerKept caller (s'.tasks p) := by
  obtain ⟨fdList, fdBitmap, n, status, waiting, heq⟩ := h
  obtain ⟨n', status', waiting', heq', -⟩ := reschedule_task hr p
  exact ⟨fdList, fdBitmap, n', status', waiting', by rw [heq', heq]⟩

theorem ExecInv.tick {r : Resumed × SchedState} (h : ExecInv c caller s)
    (hr : reschedule regs s.sched = some r) :
    ExecInv c caller { s with sched := r.2, onCore := r.1.onCore c s.onCore } := by
  obtain ⟨r, sched⟩ := r
  have hlist := reschedule_taskList hr
  obtain ⟨n, status, waiting, hnew, -⟩ := reschedule_task hr c.task
  obtain ⟨n', status', waiting', hcaller, -⟩ := reschedule_task hr c.caller
  refine ⟨h.kept.reschedule hr, ?_, fun p hp => ?_, ?_, fun hlisted hcore => ?_, ?_, ?_,
    fun hasleep => reschedule_thread_yielded hr (h.asleep hasleep), ?_, fun f hf => ?_, ?_⟩
  · rw [hlist]
    exact h.good
  · obtain ⟨_, _, _, heq, -⟩ := reschedule_task hr p
    rw [heq]
    exact h.only p hp
  · rw [hlist]
    exact h.listed
  · -- The core executes the caller: it was interrupted, or has been switched to.
    have hpid := reschedule_pid hr
    cases r with
    | interrupted => exact hpid.trans (h.core hlisted hcore)
    | idle => exact absurd hcore (by simp [Resumed.onCore])
    | switched task thread =>
      have htask := (of_decide_eq_true hcore).1
      obtain ⟨_, _, _, _, _, heq⟩ := h.kept
      rw [hpid, Resumed.pid, htask, heq]
  · rw [hlist]
    exact h.unborn
  · rw [hlist, hnew]
    exact h.own
  · rw [hlist]
    exact h.hidden
  · have hdone := h.fields f hf
    rw [hnew]
    cases f <;> exact hdone
  · have hfds := h.fds
    rw [hnew, hcaller]
    cases hpoint : s.point <;> (rw [hpoint] at hfds; exact hfds)

theorem ExecInv.currentTask (h : ExecInv c caller s) (hlisted : s.point.Listed = true)
    (hcore : s.onCore = true) : s.sched.currentTask = some c.caller := by
  unfold SchedState.currentTask schedTranslatePid
  rw [h.core hlisted hcore]
  have hgood := h.good (by rintro heq; rw [heq] at hlisted; cases hlisted)
  exact (hashTableSearch_eq_some_iff hgood).mpr (h.listed hlisted)

theorem ExecInv.taskExec {sched : SchedState} (h : ExecInv c caller s) (hne : c.caller ≠ c.task)
    (hkept : FdsSound c caller) (hpoint : s.point = .taskExec) (hcore : s.onCore = true)
    (hexec : schedTaskExec c s.sched = some sched) :
    ExecInv c caller { s with point := .taskStatus, sched := sched } := by
  have hlisted : s.point.Listed = true := by
    rw [hpoint]
    rfl
  obtain ⟨hfresh, hkey⟩ := h.unborn hpoint
  have hcurrent := h.currentTask hlisted hcore
  obtain ⟨hgood, hperm⟩ := hashTablePush_fresh (d := c.task) (h.good (by simp [hpoint])) hkey
  have hfds := h.fds
  rw [hpoint] at hfds
  obtain ⟨hfdList, hfdBitmap⟩ := hfds
  obtain ⟨fdList, fdBitmap, n, status, waiting, hcaller⟩ := h.kept
  unfold schedTaskExec at hexec
  rw [hcurrent] at hexec
  split at hexec
  · next current thread hcur _ =>
    cases hcur
    cases hexec
    have hsame : update s.sched.tasks c.task
        (schedDefaultTask c (s.sched.tasks c.caller).pid) c.caller = s.sched.tasks c.caller :=
      update_of_ne hne ..
    refine ⟨?_, fun _ => hgood, fun p hp => ?_, fun _ => ?_, fun _ _ => ?_, by simp,
      fun _ => ⟨?_, ?_⟩,
      fun _ => ?_, by simp [ExecPoint.Hidden], by simp [ExecPoint.written], ?_⟩
    · dsimp only
      rw [hsame]
      exact h.kept
    · dsimp only
      rw [update_of_ne hp]
      exact h.only p hp
    · exact hperm.mem_iff.mpr (mem_cons_of_mem _ (h.listed hlisted))
    · rw [hcaller]
    · dsimp only
      rw [update_self]
      rfl
    · intro pid hmem
      rcases mem_cons.mp (hperm.mem_iff.mp hmem) with heq | hold
      · exact (Prod.mk.inj heq).1
      · exact absurd (mem_tablePointers_iff.mpr ⟨pid, hold⟩) hfresh
    · simp [schedThreadExec]
    · -- The table of the new task is empty, and the one of the caller is untouched.
      refine ⟨?_, ?_⟩
      · dsimp only
        rw [hsame]
        exact hfdBitmap
      · dsimp only
        rw [hsame, hfdList, update_self]
        have hempty : entries (schedDefaultTask c (s.sched.tasks c.caller).pid).fdList.slots = [] :=
          entries_replicate_none 16
        refine ⟨good_replicate_none _ 16, fun fd handle => ?_, hkept.good, fun _ _ _ => Iff.rfl⟩
        rw [hempty]
        simp
  · simp at hexec

theorem ExecInv.writeNew (h : ExecInv c caller s) (hne : c.caller ≠ c.task)
    (hgood : s.sched.taskList.Good addressHash) (t : SchedTask) {point : ExecPoint}
    (hlisted : point.Listed = true → s.point.Listed = true) (hborn : point ≠ .taskExec)
    (hown : point.Asleep = true ∨ point.Exposed = true →
      (s.point.Asleep = true ∨ s.point.Exposed = true) ∧ t.pid = (s.sched.tasks c.task).pid)
    (hasleep : point.Asleep = true → s.point.Asleep = true)
    (hhidden : point.Hidden = true → s.point.Hidden = true)
    (hfields : ∀ f ∈ point.written, f.Done c caller t)
    (hfds : ExecFds c caller (s.sched.tasks c.caller) t point) :
    ExecInv c caller { s with point := point, sched := s.sched.setTask c.task t } := by
  have hsame := setTask_of_ne s.sched t hne
  refine ⟨?_, fun _ => hgood, fun p hp => ?_, fun hl => h.listed (hlisted hl),
    fun hl => h.core (hlisted hl), fun heq => absurd heq hborn, fun ho => ?_,
    fun ha => h.asleep (hasleep ha), fun hh => h.hidden (hhidden hh), ?_, ?_⟩
  · rw [hsame]
    exact h.kept
  · rw [setTask_of_ne _ _ hp]
    exact h.only p hp
  · obtain ⟨hbefore, hpid⟩ := hown ho
    rw [setTask_self, hpid]
    exact h.own hbefore
  · rw [setTask_self]
    exact hfields
  · rw [hsame, setTask_self]
    exact hfds

theorem ExecInv.inheritFd {i : ℕ} {sched : SchedState} (h : ExecInv c caller s)
    (hne : c.caller ≠ c.task) (hkept : FdsSound c caller) (hpoint : s.point = .fd i)
    (hcore : s.onCore = true) (hi : i < (s.sched.tasks c.task).fdBitmap.size)
    (hfd : Pastoral.inheritFd c i s.sched = some sched) :
    ExecInv c caller { s with point := .fd (i + 1), sched := sched } := by
  have hfds := h.fds
  rw [hpoint] at hfds
  obtain ⟨hbitmap, -, hbelow⟩ := hfds
  have hlisted : s.point.Listed = true := by rw [hpoint]; rfl
  have hexposed : s.point.Exposed = true := by rw [hpoint]; rfl
  have hsize : i < caller.fdBitmap.size := by rwa [hbitmap] at hi
  have hsmall := lt_trans hsize hkept.small
  have hgood := h.good (by simp [hpoint])
  have hcurrent := h.currentTask hlisted hcore
  -- What a pass may do to the new task: its table of descriptors changes.
  have hwrite : ∀ fdList, FdsBelow c caller (i + 1) (s.sched.tasks c.caller).fdList fdList →
      ExecInv c caller { s with
        point := .fd (i + 1)
        sched := s.sched.setTask c.task { s.sched.tasks c.task with fdList := fdList } } :=
    fun fdList hbelow => h.writeNew hne hgood _ (fun _ => hlisted) (by simp)
      (fun _ => ⟨.inr hexposed, rfl⟩) (by simp [ExecPoint.Asleep]) (by simp [ExecPoint.Hidden])
      (by simp [ExecPoint.written]) ⟨hbitmap, hsize, hbelow⟩
  unfold Pastoral.inheritFd at hfd
  split_ifs at hfd with hbit
  · rw [hcurrent] at hfd
    obtain ⟨handle, hfound, rfl⟩ := map_eq_some_iff.mp hfd
    have hmem := hbelow.found hsmall hfound
    by_cases hinherits : c.Inherits handle
    · rw [if_pos hinherits]
      exact hwrite _ (hbelow.push hkept hsmall hmem hinherits)
    · -- The descriptor is closed in the caller.
      rw [if_neg hinherits]
      have hclosed := hbelow.close hkept hsmall hmem hinherits
      have hnew : update s.sched.tasks c.caller
          ((s.sched.tasks c.caller).fdClose (c.handles handle)) c.task = s.sched.tasks c.task :=
        update_of_ne hne.symm ..
      obtain ⟨fdList, fdBitmap, n, status, waiting, hcaller⟩ := h.kept
      refine ⟨?_, fun _ => hgood, fun p hp => ?_, fun _ => h.listed hlisted, fun _ => h.core hlisted,
        by simp, fun _ => ?_, by simp [ExecPoint.Asleep], by simp [ExecPoint.Hidden],
        by simp [ExecPoint.written], ?_⟩
      · dsimp only
        rw [update_self, hcaller]
        exact ⟨_, _, n, status, waiting, rfl⟩
      · by_cases hp' : p = c.caller
        · subst hp'
          simpa [SchedTask.fdClose] using h.only c.caller hp
        · simpa [hp'] using h.only p hp
      · dsimp only
        rw [hnew]
        exact h.own (.inr hexposed)
      · dsimp only
        rw [hnew, update_self]
        exact ⟨hbitmap, hsize, hclosed⟩
  · -- The caller does not have the descriptor.
    cases hfd
    rw [hbitmap, Bitmap.test_dup hkept.small hsize, Bool.not_eq_true] at hbit
    have hskip := hwrite _ (hbelow.skip hkept hbit)
    have hself : s.sched.setTask c.task
        { s.sched.tasks c.task with fdList := (s.sched.tasks c.task).fdList } = s.sched := by
      unfold SchedState.setTask
      rw [update_eq_self]
    rwa [hself] at hskip

theorem ExecInv.statement {r : ExecPoint × SchedState} (h : ExecInv c caller s)
    (hne : c.caller ≠ c.task) (hkept : FdsSound c caller) (hcore : s.onCore = true)
    (hr : execNext c s.sched s.point = some r) :
    ExecInv c caller { s with point := r.1, sched := r.2 } := by
  have hgood : s.sched.taskList.Good addressHash := by
    refine h.good fun heq => ?_
    rw [heq] at hr
    exact absurd hr (by simp [execNext])
  have hown := h.own
  have hfields := h.fields
  have hfds := h.fds
  have hhidden := h.hidden
  cases hpoint : s.point with
  | taskExec =>
    rw [hpoint] at hr
    obtain ⟨sched, hexec, rfl⟩ := map_eq_some_iff.mp hr
    exact h.taskExec hne hkept hpoint hcore hexec
  | taskStatus =>
    rw [hpoint] at hr hfds
    cases hr
    exact h.writeNew hne hgood _ (by simp [hpoint, ExecPoint.Listed, ExecPoint.Hidden]) (by simp)
      (fun _ => ⟨.inl (by rw [hpoint]; rfl), rfl⟩) (fun _ => by rw [hpoint]; rfl)
      (by simp [ExecPoint.Hidden]) (by simp [ExecPoint.written]) hfds
  | threadStatus =>
    rw [hpoint] at hr hfds hown
    cases hr
    have hlisted : s.point.Listed = true := by rw [hpoint]; rfl
    exact ⟨h.kept, fun _ => hgood, h.only, fun _ => h.listed hlisted, fun _ => h.core hlisted,
      by simp,
      fun _ => hown (.inl rfl), by simp [ExecPoint.Asleep], by simp [ExecPoint.Hidden],
      by simp [ExecPoint.written], hfds⟩
  | dupFds =>
    rw [hpoint] at hr hfds
    cases hr
    refine h.writeNew hne hgood _ (by simp [hpoint, ExecPoint.Listed, ExecPoint.Hidden]) (by simp)
      (fun _ => ⟨.inr (by rw [hpoint]; rfl), rfl⟩) (by simp [ExecPoint.Asleep])
      (by simp [ExecPoint.Hidden]) (by simp [ExecPoint.written]) ⟨?_, Nat.zero_le _, hfds.2⟩
    exact congrArg Bitmap.dup hfds.1
  | fd i =>
    rw [hpoint, execNext] at hr
    split_ifs at hr with hi
    · obtain ⟨sched, hfd, rfl⟩ := map_eq_some_iff.mp hr
      exact h.inheritFd hne hkept hpoint hcore hi hfd
    · -- The loop ends: every descriptor of the caller has been passed.
      rw [hpoint] at hfds hown
      cases hr
      have hlisted : s.point.Listed = true := by rw [hpoint]; rfl
      have hall : i = caller.fdBitmap.size := by
        rw [hfds.1, not_lt] at hi
        exact le_antisymm hfds.2.1 hi
      exact ⟨h.kept, fun _ => hgood, h.only, fun _ => h.listed hlisted, fun _ => h.core hlisted,
      by simp, fun _ => hown (.inr rfl), by simp [ExecPoint.Asleep], by simp [ExecPoint.Hidden],
        by simp [ExecPoint.written], hfds.1, hfds.2.2.all hkept hall⟩
  | deleteCaller =>
    rw [hpoint] at hr hfds hown
    cases hr
    obtain ⟨hgood', hentries⟩ := hashTableDelete_good (k := (s.sched.tasks c.caller).pid) hgood
    obtain ⟨hpid, hkey⟩ := hown (.inr rfl)
    exact ⟨h.kept, fun _ => hgood', h.only, nofun, nofun, by simp,
      fun _ => ⟨hpid, fun pid hmem => hkey pid ((hentries _ _).mp hmem).2⟩,
      by simp [ExecPoint.Asleep], by simp [ExecPoint.Hidden], by simp [ExecPoint.written], hfds⟩
  | deleteTask =>
    rw [hpoint] at hr hfds hown
    cases hr
    obtain ⟨hgood', hentries⟩ := hashTableDelete_good (k := (s.sched.tasks c.task).pid) hgood
    obtain ⟨hpid, hkey⟩ := hown (.inr rfl)
    refine ⟨h.kept, fun _ => hgood', h.only, nofun, nofun, by simp,
      by simp [ExecPoint.Asleep, ExecPoint.Exposed], by simp [ExecPoint.Asleep], fun _ hmem => ?_,
      fun f hf => by simp [ExecPoint.written, ExecField.all] at hf, hfds⟩
    -- The only entry of the new task is the one under its own pid.
    obtain ⟨pid, hentry⟩ := mem_tablePointers_iff.mp hmem
    obtain ⟨hother, hold⟩ := (hentries _ _).mp hentry
    exact hother ((hkey pid hold).trans hpid.symm)
  | field f =>
    rw [hpoint] at hr hfds hfields
    cases hr
    have hnext : f.next.Hidden = true := by cases f <;> rfl
    have hpoint' : s.point.Hidden = true := by rw [hpoint]; rfl
    refine h.writeNew hne hgood _ (by simp [ExecPoint.Listed, hnext]) ?_ ?_ ?_ (fun _ => hpoint')
      (fun g hg => ?_) ?_
    · cases f <;> simp [ExecField.next]
    · cases f <;> simp [ExecField.next, ExecPoint.Asleep, ExecPoint.Exposed]
    · cases f <;> simp [ExecField.next, ExecPoint.Asleep]
    · rcases written_next f g hg with rfl | hold
      · exact ExecField.done_write h.kept g
      · exact (hfields g hold).write h.kept f
    · have hsame : (f.write c (s.sched.tasks c.caller) (s.sched.tasks c.task)).fdBitmap =
          caller.fdBitmap.dup ∧
          FdsPassed c caller (f.write c (s.sched.tasks c.caller) (s.sched.tasks c.task)) := by
        rw [FdsPassed, ExecField.write_fdList, ExecField.write_fdBitmap]
        exact hfds
      cases f <;> exact hsame
  | threadPid | clearPid | clearTid =>
    rw [hpoint] at hr hfds hfields hhidden
    cases hr
    exact ⟨h.kept, fun _ => hgood, h.only, nofun, nofun, by simp,
      by simp [ExecPoint.Asleep, ExecPoint.Exposed], by simp [ExecPoint.Asleep],
      fun _ => hhidden rfl, hfields, hfds⟩
  | push =>
    rw [hpoint] at hr hfds hfields
    cases hr
    exact ⟨h.kept, by simp, h.only, nofun, nofun, by simp,
      by simp [ExecPoint.Asleep, ExecPoint.Exposed], by simp [ExecPoint.Asleep],
      by simp [ExecPoint.Hidden], hfields, hfds⟩
  | done =>
    rw [hpoint] at hr
    exact absurd hr (by simp [execNext])

theorem ExecInv.step {op : ExecOp} (h : ExecInv c caller s) (hne : c.caller ≠ c.task)
    (hkept : FdsSound c caller) (hstep : execStep c s op s') : ExecInv c caller s' := by
  unfold execStep at hstep
  cases op with
  | statement =>
    rw [execStepNext] at hstep
    split_ifs at hstep with hcore
    obtain ⟨r, hr, rfl⟩ := map_eq_some_iff.mp hstep
    exact h.statement hne hkept hcore hr
  | tick regs =>
    obtain ⟨r, hr, rfl⟩ := map_eq_some_iff.mp hstep
    exact h.tick hr

theorem ExecInv.handedOver (h : ExecInv c caller s) (hkept : FdsKept c caller)
    (hdone : s.point = .done) :
    HandedOver c caller (s.sched.tasks c.task) := by
  have hfields := h.fields
  have hfds := h.fds
  rw [hdone] at hfields hfds
  exact ⟨hfields .pid (by decide), hfields .ppid (by decide), hfields .realUid (by decide),
    hfields .effectiveUid (by decide), hfields .realGid (by decide),
    hfields .effectiveGid (by decide), hfields .cwd (by decide), hfields .umask (by decide),
    hfds.2.descriptors hkept⟩

theorem HandedOver.reschedule {r : Resumed} {s s' : SchedState} {p : ℕ}
    (h : HandedOver c caller (s.tasks p)) (hr : reschedule regs s = some (r, s')) :
    HandedOver c caller (s'.tasks p) := by
  obtain ⟨n, status, waiting, heq, -⟩ := reschedule_task hr p
  rw [heq]
  exact ⟨h.pid, h.ppid, h.realUid, h.effectiveUid, h.realGid, h.effectiveGid, h.cwd, h.umask,
    h.descriptors⟩

theorem ExecInv.handsOver {op : ExecOp} (h : ExecInv c caller s) (hkept : FdsKept c caller)
    (hop : Unexposed s op) :
    HandsOver c caller s op := by
  cases op with
  | statement => trivial
  | tick regs =>
    unfold HandsOver
    dsimp only
    split
    · next task thread sched hr =>
      rintro rfl
      have hchosen := reschedule_chosen hr
      -- The thread is in the list of the new task only.
      have htask : task = c.task := by
        by_contra hother
        exact h.only task hother hchosen.thread_mem
      subst htask
      have hmem := hchosen.task_mem
      have hwaiting := hchosen.thread_waiting
      have hunborn := h.unborn
      have hasleep := h.asleep
      have hhidden := h.hidden
      have hexposed : s.point.Exposed = false := hop
      cases hpoint : s.point with
      | taskExec => exact absurd hmem (hunborn hpoint).1
      | taskStatus | threadStatus =>
        rw [hasleep (by rw [hpoint]; rfl)] at hwaiting
        simp at hwaiting
      | dupFds | fd _ | deleteCaller | deleteTask =>
        exact absurd hexposed (by simp [hpoint, ExecPoint.Exposed])
      | field _ | threadPid | clearPid | clearTid | push =>
        exact absurd hmem (hhidden (by rw [hpoint]; rfl))
      | done => exact (h.handedOver hkept hpoint).reschedule hr
    · trivial

/-- The state in which `syscall_execve` calls `sched_task_exec`: the core executes the caller, and
the records and the pid of the new task are fresh. -/
structure ExecReady (c : ExecCall) (s : ExecState) : Prop where
  point : s.point = .taskExec
  onCore : s.onCore = true
  core : s.sched.core.pid = (s.sched.tasks c.caller).pid
  good : s.sched.taskList.Good addressHash
  listed : ((s.sched.tasks c.caller).pid, c.caller) ∈ entries s.sched.taskList.slots
  taskFresh : c.task ∉ tablePointers s.sched.taskList
  pidFresh : c.pid ∉ keys s.sched.taskList.slots
  threadFresh : ∀ p ≠ c.task, c.thread ∉ tablePointers (s.sched.tasks p).threadList
  ne : c.caller ≠ c.task

/-- The same for a caller whose descriptors are all in its bitmap. -/
structure ExecInit (c : ExecCall) (s : ExecState) : Prop extends ExecReady c s where
  fds : FdsKept c (s.sched.tasks c.caller)

theorem ExecReady.inv (h : ExecReady c s) : ExecInv c (s.sched.tasks c.caller) s where
  kept := ⟨_, _, _, _, _, rfl⟩
  good _ := h.good
  only := h.threadFresh
  listed _ := h.listed
  core _ _ := h.core
  unborn _ := ⟨h.taskFresh, h.pidFresh⟩
  own := by simp [h.point, ExecPoint.Asleep, ExecPoint.Exposed]
  asleep := by simp [h.point, ExecPoint.Asleep]
  hidden := by simp [h.point, ExecPoint.Hidden]
  fields := by simp [h.point, ExecPoint.written]
  fds := by
    rw [h.point]
    exact ⟨rfl, rfl⟩

theorem ExecReady.descriptors {s₀ : ExecState} {tr : List (Event ExecState ExecOp)}
    (h : ExecReady c s₀) (hsound : FdsSound c (s₀.sched.tasks c.caller))
    (run : Run (execStep c) s₀ tr s) (hdone : s.point = .done) :
    (s.sched.tasks c.task).fdBitmap = (s₀.sched.tasks c.caller).fdBitmap.dup ∧
      FdsPassed c (s₀.sched.tasks c.caller) (s.sched.tasks c.task) := by
  have hinv := run.invariant (I := fun _ s => ExecInv c (s₀.sched.tasks c.caller) s) h.inv
    fun _ _ _ _ hinv hstep => hinv.step h.ne hsound hstep
  have hfds := hinv.fds
  rwa [hdone] at hfds

/-- **execve hands over, while the new thread is not exposed**: if no timer interrupt comes between
`thread->status = TASK_WAITING` and the second `hash_table_delete`, then whenever the new thread is
switched to, its task has everything of its caller. -/
theorem handsOver_of_unexposed {s₀ s : ExecState} {tr : List (Event ExecState ExecOp)}
    (hinit : ExecInit c s₀) (run : Run (execStep c) s₀ tr s)
    (hops : ∀ e ∈ tr, Unexposed e.pre e.act) :
    ∀ e ∈ tr, HandsOver c (s₀.sched.tasks c.caller) e.pre e.act := by
  have hrun := run.restrict (Q := fun e => Unexposed e.pre e.act) hops
  exact hrun.forall_event (I := ExecInv c (s₀.sched.tasks c.caller)) hinit.toExecReady.inv
    (fun _ _ _ h hstep => h.step hinit.ne hinit.fds.toFdsSound hstep.1)
    fun _ _ _ h hstep => h.handsOver hinit.fds hstep.2

def suidCall : ExecCall where
  caller := 0
  callerThread := 0
  task := 2
  thread := 2
  event := 2
  exitTrigger := 2
  exitEvent := 3
  pid := 3#64
  image := ⟨5, 0x9000#64, 0x8000#64, default⟩
  isSuid := true
  isSgid := false
  stUid := 7#32
  stGid := 7#32
  handles i := ⟨i, BitVec.ofNat 32 i, if i = 1 then oCloexec else 0#32⟩

def twoFds : HashTable (BitVec 32) ℕ :=
  hashTablePush fdHash (hashTablePush fdHash HashTable.empty 0#32 0) 1#32 1

def callerList : HashTable (BitVec 64) ℕ := hashTablePush addressHash HashTable.empty 1#64 0

def execCaller : ExecState where
  sched :=
    { tasks := fun p => { SchedTask.zeroed with
        pid := 1#64
        realUid := 1000#32
        effectiveUid := 1000#32
        realGid := 1000#32
        effectiveGid := 1000#32
        umask := 0o77#32
        fdList := twoFds
        fdBitmap := ⟨[3#8], 8⟩
        threadList := hashTablePush addressHash HashTable.empty 0#64 p }
      threads := fun _ => { SchedThread.zeroed with pid := 1#64 }
      events := fun _ => ⟨0, 0, 0#32⟩
      triggers := fun _ => ⟨0, none, .procExit⟩
      taskList := callerList
      core := ⟨0#64, 0#64, 0#64, 1#64, 0#64, 0, 0#64, 0#64⟩ }
  point := .taskExec
  onCore := true

theorem mem_twoFds {fd : BitVec 32} {handle : ℕ} (h : (fd, handle) ∈ entries twoFds.slots) :
    fd = 1#32 ∧ handle = 1 ∨ fd = 0#32 ∧ handle = 0 := by
  have hfds : entries twoFds.slots = [(1#32, 1), (0#32, 0)] := by decide +kernel
  simpa [hfds] using h

theorem execInit_execCaller : ExecInit suidCall execCaller := by
  have hlist : entries callerList.slots = [(1#64, 0)] := by decide +kernel
  have hone : (hashTablePush fdHash HashTable.empty 0#32 0).Good fdHash ∧ _ :=
    hashTablePush_fresh good_empty (by decide)
  refine ⟨⟨rfl, rfl, rfl, (hashTablePush_fresh good_empty (by decide)).1, ?_, ?_, ?_, ?_,
    by decide⟩, ⟨(hashTablePush_fresh hone.1 (by decide +kernel)).1, ?_, ?_, by decide⟩, ?_⟩
  · simp [execCaller, suidCall, hlist]
  · simp [execCaller, suidCall, tablePointers, hlist]
  · simp [execCaller, suidCall, Probe.keys, hlist]
  · intro p hp hmem
    have hthreads : tablePointers (execCaller.sched.tasks p).threadList = [p] := rfl
    rw [hthreads, mem_singleton] at hmem
    exact hp hmem.symm
  · intro fd handle hmem
    rcases mem_twoFds hmem with ⟨rfl, rfl⟩ | ⟨rfl, rfl⟩ <;> rfl
  · intro fd handle hmem
    rcases mem_twoFds hmem with ⟨rfl, rfl⟩ | ⟨rfl, rfl⟩ <;> decide
  · intro fd handle hmem
    rcases mem_twoFds hmem with ⟨rfl, rfl⟩ | ⟨rfl, rfl⟩ <;> decide

def execToEnd : List ExecOp := List.replicate 35 .statement ++ List.replicate 3 (.tick default)

theorem handsOver_of_unexposed_to_end : ∃ tr s, Run (execStep suidCall) execCaller tr s ∧
    tr.map Event.act = execToEnd ∧ s.point = .done ∧ (s.sched.tasks 2).status = .running ∧
      (s.sched.tasks 2).effectiveUid = 7#32 ∧
      ∀ e ∈ tr, HandsOver suidCall (execCaller.sched.tasks 0) e.pre e.act := by
  obtain ⟨tr, s, run, hacts, hpoint, hstatus, huid, hops⟩ := Run.computed
    (f := execStepNext suidCall) (P := fun tr s => s.point = .done ∧
      (s.sched.tasks 2).status = .running ∧ (s.sched.tasks 2).effectiveUid = 7#32 ∧
      ∀ e ∈ tr, Unexposed e.pre e.act) execCaller execToEnd (by decide +kernel)
  exact ⟨tr, s, run, hacts, hpoint, hstatus, huid,
    handsOver_of_unexposed execInit_execCaller run hops⟩

/-- **The new thread runs as root**: a timer interrupt after `thread->status = TASK_WAITING`, the
third statement, switches to the new thread, with the pid it was made with, the default user 0 and no
descriptor. -/
theorem new_thread_runs_as_root : ExecInit suidCall execCaller ∧
    ∃ tr s s', Run (execStep suidCall) execCaller tr s ∧
    tr.map Event.act = List.replicate 3 .statement ∧
    reschedule default s.sched = some (.switched 2 2, s') ∧
    (s'.tasks 2).pid = 3#64 ∧ (s'.tasks 2).effectiveUid = 0#32 ∧
    hashTableSearch fdHash (s'.tasks 2).fdList 0#32 = none ∧
    ¬ HandsOver suidCall (execCaller.sched.tasks 0) s (.tick default) := by
  obtain ⟨tr, s, run, hacts, hmap⟩ := Run.computed (f := execStepNext suidCall)
    (P := fun _ s => ((reschedule default s.sched).map fun r => (r.1, (r.2.tasks 2).pid,
      (r.2.tasks 2).effectiveUid, hashTableSearch fdHash (r.2.tasks 2).fdList 0#32)) =
        some (.switched 2 2, 3#64, 0#32, none))
    execCaller (List.replicate 3 .statement) (by decide +kernel)
  obtain ⟨⟨resumed, s'⟩, hresch, hvalues⟩ := map_eq_some_iff.mp hmap
  simp only [Prod.mk.injEq] at hvalues
  obtain ⟨rfl, hpid, huid, hfd⟩ := hvalues
  refine ⟨execInit_execCaller, tr, s, s', run, hacts, hresch, hpid, huid, hfd, fun hright => ?_⟩
  rw [HandsOver, hresch] at hright
  have hcaller := (hright rfl).pid
  rw [hpid] at hcaller
  exact absurd hcaller (by decide)

end Invariant

end Pastoral
