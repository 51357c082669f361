import Pastoral.Fs.Fd

/-!
# fork

`syscall_fork` of `sched.c`: the child is a new task with one thread, the ids and the groups of its
parent, and a copy of its descriptor table.

## Main definitions

* `syscallFork`
-/

open Function Probe

namespace Pastoral

structure ForkCall where
  current : ℕ
  currentThread : ℕ
  task : ℕ
  thread : ℕ
  event : ℕ
  exitTrigger : ℕ
  exitEvent : ℕ
  pid : BitVec 64
  pageTable : ℕ
  kernelStack : BitVec 64
  regs : Registers
  handles : List ℕ

structure ForkFds where
  handles : ℕ → Option FdHandle
  files : ℕ → Option FileHandle
  fdList : HashTable (BitVec 32) ℕ

def forkHandle (x : ForkFds) : ℕ × ℕ → Option ForkFds
  | (old, new) => do
    let h ← x.handles old
    let files ← fileGet x.files h.fileHandle
    some
      { handles := update x.handles new (some h)
        files := files
        fdList := hashTablePush fdHash x.fdList h.fdNumber new }

def forkHandles (fdList : HashTable (BitVec 32) ℕ) (news : List ℕ) (s : FdState) :
    Option ForkFds :=
  ((tablePointers fdList).zip news).foldlM forkHandle ⟨s.handles, s.files, HashTable.empty⟩

def forkTask (c : ForkCall) (current : SchedTask) (fdList : HashTable (BitVec 32) ℕ) : SchedTask :=
  { SchedTask.zeroed with
    pid := c.pid
    ppid := current.pid
    status := .waiting
    pageTable := c.pageTable
    cwd := current.cwd
    realUid := current.realUid
    effectiveUid := current.effectiveUid
    savedUid := current.savedUid
    realGid := current.realGid
    effectiveGid := current.effectiveGid
    savedGid := current.savedGid
    umask := current.umask
    pgid := current.pgid
    group := current.group
    sid := current.sid
    session := current.session
    event := c.event
    exitTrigger := c.exitTrigger
    fdList := fdList
    fdBitmap := current.fdBitmap.dup
    threadList := hashTablePush addressHash HashTable.empty 0#64 c.thread }

def forkThread (c : ForkCall) (currentThread : SchedThread) : SchedThread :=
  { SchedThread.zeroed with
    regs := { c.regs with rax := 0#64 }
    userGsBase := currentThread.userGsBase
    userFsBase := currentThread.userFsBase
    kernelStack := c.kernelStack
    userStack := currentThread.userStack
    status := .waiting
    pid := c.pid }

def forkSched (c : ForkCall) (fdList : HashTable (BitVec 32) ℕ) (s : SchedState) : SchedState :=
  let current := s.tasks c.current
  { s with
    tasks := update
      (update s.tasks c.task (forkTask c current fdList))
      c.current { current with children := current.children ++ [c.task] }
    threads := update s.threads c.thread (forkThread c (s.threads c.currentThread))
    events := update (update s.events c.event ⟨c.task, c.thread, 0#32⟩)
      c.exitEvent ⟨c.current, c.currentThread, 0#32⟩
    triggers := update s.triggers c.exitTrigger ⟨c.task, some c.exitEvent, .procExit⟩
    taskList := hashTablePush addressHash s.taskList c.pid c.task }

def syscallFork (c : ForkCall) (s : FdState) : Option (BitVec 64 × FdState) :=
  (forkHandles (s.sched.tasks c.current).fdList c.handles s).map fun x =>
    (c.pid,
      { sched := forkSched c x.fdList s.sched
        handles := x.handles
        files := x.files })

def bootSched : SchedState where
  tasks p := { SchedTask.zeroed with
    pid := if p = 2 then 1#64 else 0#64
    group := 7
    session := 8
    threadList := hashTablePush addressHash HashTable.empty 0#64 p }
  threads _ := SchedThread.zeroed
  events _ := ⟨0, 0, 0#32⟩
  triggers _ := ⟨0, none, .procExit⟩
  taskList := hashTablePush addressHash (hashTablePush addressHash HashTable.empty 0#64 1) 1#64 2
  core := ⟨0#64, 0#64, 0#64, 1#64, 0#64, 0, 0#64, 0#64⟩

def bootFork : ForkCall where
  current := 2
  currentThread := 2
  task := 3
  thread := 3
  event := 3
  exitTrigger := 3
  exitEvent := 4
  pid := 2#64
  pageTable := 5
  kernelStack := 0x9000#64
  regs := default
  handles := []

end Pastoral
