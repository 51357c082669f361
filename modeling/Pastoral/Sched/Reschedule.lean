import Mathlib.Data.List.FinRange
import Pastoral.Lib.Bitmap
import Pastoral.Mm.Vmm

/-!
# Tasks, threads and the scheduler

The scheduler of `sched.c` on one core.

## Main definitions

* `reschedule`: the timer interrupt
-/

open Function List Option Probe

namespace Pastoral

/-! ## Records -/

inductive TaskStatus
  | running
  | waiting
  | yield
  deriving DecidableEq, Repr

structure Registers where
  r15 : BitVec 64
  r14 : BitVec 64
  r13 : BitVec 64
  r12 : BitVec 64
  r11 : BitVec 64
  r10 : BitVec 64
  r9 : BitVec 64
  r8 : BitVec 64
  rsi : BitVec 64
  rdi : BitVec 64
  rbp : BitVec 64
  rdx : BitVec 64
  rcx : BitVec 64
  rbx : BitVec 64
  rax : BitVec 64
  isrNumber : BitVec 64
  errorCode : BitVec 64
  rip : BitVec 64
  cs : BitVec 64
  rflags : BitVec 64
  rsp : BitVec 64
  ss : BitVec 64
  deriving DecidableEq, Repr, Inhabited

abbrev signalMax : ℕ := 34

structure Sigaction where
  handler : BitVec 64
  saMask : BitVec 64
  saFlags : BitVec 32
  saRestorer : BitVec 64
  deriving DecidableEq, Repr, Inhabited

structure Signal where
  signum : BitVec 32
  sigaction : Option (ℕ × Fin signalMax)
  deriving DecidableEq, Repr, Inhabited

structure SignalQueue where
  queue : Fin signalMax → Signal
  sigpending : BitVec 64
  deriving Inhabited

structure SchedThread where
  tid : BitVec 64
  pid : BitVec 64
  status : TaskStatus
  idleCnt : BitVec 64
  userStack : BitVec 64
  kernelStack : BitVec 64
  userGsBase : BitVec 64
  userFsBase : BitVec 64
  errno : BitVec 64
  sigmask : BitVec 64
  signalQueue : SignalQueue
  regs : Registers

inductive EventType
  | procExit
  | fdRead
  | fdWrite
  | timerTrigger
  | signal
  | hdaCmd
  deriving DecidableEq, Repr

structure EventTrigger where
  agentTask : ℕ
  event : Option ℕ
  eventType : EventType
  deriving DecidableEq, Repr

structure SchedEvent where
  task : ℕ
  thread : ℕ
  pending : BitVec 32
  deriving DecidableEq, Repr

structure SchedTask where
  fdList : HashTable (BitVec 32) ℕ
  fdBitmap : Bitmap
  threadList : HashTable (BitVec 64) ℕ
  event : ℕ
  eventWaiting : Bool
  exitTrigger : ℕ
  lastTrigger : Option ℕ
  cwd : ℕ
  pid : BitVec 64
  ppid : BitVec 64
  pgid : BitVec 64
  group : ℕ
  sid : BitVec 64
  session : ℕ
  hasExecved : Bool
  idleCnt : BitVec 64
  status : TaskStatus
  processStatus : BitVec 32
  realUid : BitVec 32
  effectiveUid : BitVec 32
  savedUid : BitVec 32
  realGid : BitVec 32
  effectiveGid : BitVec 32
  savedGid : BitVec 32
  umask : BitVec 32
  sigactions : Fin signalMax → Sigaction
  children : List ℕ
  pageTable : ℕ

def SchedThread.zeroed : SchedThread where
  tid := 0#64
  pid := 0#64
  status := .running
  idleCnt := 0#64
  userStack := 0#64
  kernelStack := 0#64
  userGsBase := 0#64
  userFsBase := 0#64
  errno := 0#64
  sigmask := 0#64
  signalQueue := ⟨fun _ => ⟨0#32, none⟩, 0#64⟩
  regs := ⟨0, 0, 0, 0, 0, 0, 0, 0, 0, 0, 0, 0, 0, 0, 0, 0, 0, 0, 0, 0, 0, 0⟩

def SchedTask.zeroed : SchedTask where
  fdList := HashTable.empty
  fdBitmap := ⟨[], 0⟩
  threadList := HashTable.empty
  event := 0
  eventWaiting := false
  exitTrigger := 0
  lastTrigger := none
  cwd := 0
  pid := 0#64
  ppid := 0#64
  pgid := 0#64
  group := 0
  sid := 0#64
  session := 0
  hasExecved := false
  idleCnt := 0#64
  status := .running
  processStatus := 0#32
  realUid := 0#32
  effectiveUid := 0#32
  savedUid := 0#32
  realGid := 0#32
  effectiveGid := 0#32
  savedGid := 0#32
  umask := 0#32
  sigactions := fun _ => ⟨0#64, 0#64, 0#32, 0#64⟩
  children := []
  pageTable := 0

structure CpuLocal where
  kernelStack : BitVec 64
  userStack : BitVec 64
  errno : BitVec 64
  pid : BitVec 64
  tid : BitVec 64
  pageTable : ℕ
  userFs : BitVec 64
  userGs : BitVec 64
  deriving DecidableEq, Repr

def CpuLocal.Busy (c : CpuLocal) : Prop := c.tid ≠ -1#64 ∧ c.pid ≠ -1#64

instance (c : CpuLocal) : Decidable c.Busy :=
  inferInstanceAs (Decidable (c.tid ≠ -1#64 ∧ c.pid ≠ -1#64))

structure SchedState where
  tasks : ℕ → SchedTask
  threads : ℕ → SchedThread
  events : ℕ → SchedEvent
  triggers : ℕ → EventTrigger
  taskList : HashTable (BitVec 64) ℕ
  core : CpuLocal

def SchedState.setTask (s : SchedState) (p : ℕ) (t : SchedTask) : SchedState :=
  { s with tasks := update s.tasks p t }

def SchedState.setThread (s : SchedState) (p : ℕ) (t : SchedThread) : SchedState :=
  { s with threads := update s.threads p t }

@[simp] theorem setTask_self (s : SchedState) (p : ℕ) (t : SchedTask) :
    (s.setTask p t).tasks p = t := update_self ..

theorem setTask_of_ne (s : SchedState) {p p' : ℕ} (t : SchedTask) (h : p' ≠ p) :
    (s.setTask p t).tasks p' = s.tasks p' := update_of_ne h ..

abbrev errnoEBADF : BitVec 64 := 1008#64
abbrev errnoEINVAL : BitVec 64 := 1026#64
abbrev errnoEPERM : BitVec 64 := 1063#64

def SchedState.setErrno (s : SchedState) (code : BitVec 64) : SchedState :=
  { s with core := { s.core with errno := code } }

def tablePointers {K : Type} (t : HashTable K ℕ) : List ℕ := (entries t.slots).map Prod.snd

theorem mem_tablePointers_iff {K : Type} {t : HashTable K ℕ} {p : ℕ} :
    p ∈ tablePointers t ↔ ∃ k, (k, p) ∈ entries t.slots := by
  simp [tablePointers]

def schedTranslatePid (s : SchedState) (pid : BitVec 64) : Option ℕ :=
  hashTableSearch addressHash s.taskList pid

def schedTranslateTid (s : SchedState) (pid tid : BitVec 64) : Option ℕ :=
  (schedTranslatePid s pid).bind fun task =>
    hashTableSearch addressHash (s.tasks task).threadList tid

def SchedState.currentTask (s : SchedState) : Option ℕ := schedTranslatePid s s.core.pid

def SchedState.currentThread (s : SchedState) : Option ℕ :=
  schedTranslateTid s s.core.pid s.core.tid

/-! ## The scan for the next task or thread

`find_next_task` and `find_next_thread` are one loop, over the tasks of `task_list` and over the
threads of a `thread_list`. -/

structure Queued (α : Type) where
  status : α → TaskStatus
  idleCnt : α → BitVec 64
  setIdleCnt : α → BitVec 64 → α
  status_setIdleCnt : ∀ a n, status (setIdleCnt a n) = status a
  idleCnt_setIdleCnt : ∀ a n, idleCnt (setIdleCnt a n) = n
  setIdleCnt_setIdleCnt : ∀ a m n, setIdleCnt (setIdleCnt a m) n = setIdleCnt a n
  setIdleCnt_idleCnt : ∀ a, setIdleCnt a (idleCnt a) = a

structure QueueScan (α : Type) where
  mem : ℕ → α
  cnt : BitVec 64
  ret : Option ℕ

namespace Queued

variable {α : Type} (q : Queued α)

def scan (x : QueueScan α) (p : ℕ) : QueueScan α :=
  let next := q.setIdleCnt (x.mem p) (q.idleCnt (x.mem p) + 1#64)
  let mem := update x.mem p next
  if q.status next = .waiting ∧ x.cnt < q.idleCnt next then ⟨mem, q.idleCnt next, some p⟩
  else ⟨mem, x.cnt, x.ret⟩

def findNext (mem : ℕ → α) (ptrs : List ℕ) : QueueScan α := ptrs.foldl q.scan ⟨mem, 0#64, none⟩

structure Scanned (mem : ℕ → α) (seen : List ℕ) (x : QueueScan α) : Prop where
  aged : ∀ p, ∃ n, x.mem p = q.setIdleCnt (mem p) n
  ret : ∀ p, x.ret = some p → p ∈ seen ∧ q.status (mem p) = .waiting

variable {mem : ℕ → α} {ptrs : List ℕ} {p : ℕ}

theorem scanned_scan {seen : List ℕ} {x : QueueScan α} (h : q.Scanned mem seen x)
    (p : ℕ) : q.Scanned mem (seen ++ [p]) (q.scan x p) := by
  obtain ⟨n, hn⟩ := h.aged p
  have haged : ∀ p', ∃ n, update x.mem p
      (q.setIdleCnt (x.mem p) (q.idleCnt (x.mem p) + 1#64)) p' = q.setIdleCnt (mem p') n := by
    intro p'
    by_cases hp : p' = p
    · subst hp
      rw [update_self, hn, q.setIdleCnt_setIdleCnt]
      exact ⟨_, rfl⟩
    · rw [update_of_ne hp]
      exact h.aged p'
  have hret : ∀ p', x.ret = some p' → p' ∈ seen ++ [p] ∧ q.status (mem p') = .waiting :=
    fun p' hp => ⟨mem_append_left _ (h.ret p' hp).1, (h.ret p' hp).2⟩
  unfold scan
  dsimp only
  split_ifs with htaken
  · refine ⟨haged, fun p' hp => ?_⟩
    cases hp
    rw [q.status_setIdleCnt, hn, q.status_setIdleCnt] at htaken
    exact ⟨mem_append_right _ (mem_singleton.mpr rfl), htaken.1⟩
  · exact ⟨haged, hret⟩

theorem scanned_findNext (mem : ℕ → α) (ptrs : List ℕ) :
    q.Scanned mem ptrs (q.findNext mem ptrs) := by
  have h₀ : q.Scanned mem [] ⟨mem, 0#64, none⟩ :=
    ⟨fun p => ⟨q.idleCnt (mem p), (q.setIdleCnt_idleCnt _).symm⟩, by simp⟩
  have hfold : ∀ (l seen : List ℕ) (x : QueueScan α), q.Scanned mem seen x →
      q.Scanned mem (seen ++ l) (l.foldl q.scan x) := by
    intro l
    induction l with
    | nil => intro seen x hx; simpa using hx
    | cons p l ih =>
      intro seen x hx
      have hnext := ih (seen ++ [p]) _ (q.scanned_scan hx p)
      rwa [append_assoc] at hnext
  exact hfold ptrs [] _ h₀

theorem findNext_mem (mem : ℕ → α) (hnodup : ptrs.Nodup) (hp : p ∈ ptrs) :
    (q.findNext mem ptrs).mem p = q.setIdleCnt (mem p) (q.idleCnt (mem p) + 1#64) := by
  have hscan : ∀ (x : QueueScan α) a, (q.scan x a).mem =
      update x.mem a (q.setIdleCnt (x.mem a) (q.idleCnt (x.mem a) + 1#64)) := by
    intro x a
    unfold scan
    dsimp only
    split_ifs <;> rfl
  have hfold : ∀ (l : List ℕ) (x : QueueScan α), l.Nodup → (l.foldl q.scan x).mem p =
      if p ∈ l then q.setIdleCnt (x.mem p) (q.idleCnt (x.mem p) + 1#64) else x.mem p := by
    intro l
    induction l with
    | nil => simp
    | cons a l ih =>
      intro x hnodup
      obtain ⟨ha, hl⟩ := nodup_cons.mp hnodup
      rw [foldl_cons, ih _ hl, hscan]
      by_cases hpa : p = a
      · subst hpa
        simp [ha]
      · simp [hpa]
  rw [findNext, hfold _ _ hnodup, if_pos hp]

structure OldestSoFar (mem : ℕ → α) (seen : List ℕ) (x : QueueScan α) : Prop where
  fresh : ∀ p ∉ seen, x.mem p = mem p
  none_taken : x.ret = none → x.cnt = 0#64
  taken : ∀ p, x.ret = some p → x.cnt = q.idleCnt (mem p) + 1#64 ∧ x.cnt ≠ 0#64
  oldest : ∀ p ∈ seen, q.status (mem p) = .waiting → q.idleCnt (mem p) + 1#64 ≤ x.cnt

theorem oldestSoFar_scan {seen : List ℕ} {x : QueueScan α}
    (h : q.OldestSoFar mem seen x) (hp : p ∉ seen) :
    q.OldestSoFar mem (seen ++ [p]) (q.scan x p) := by
  have hfresh : ∀ p' ∉ seen ++ [p], update x.mem p
      (q.setIdleCnt (x.mem p) (q.idleCnt (x.mem p) + 1#64)) p' = mem p' := by
    intro p' hp'
    rw [mem_append, mem_singleton, not_or] at hp'
    rw [update_of_ne hp'.2]
    exact h.fresh p' hp'.1
  unfold scan
  dsimp only
  rw [q.status_setIdleCnt, q.idleCnt_setIdleCnt, h.fresh p hp]
  rw [h.fresh p hp] at hfresh
  split_ifs with htaken
  · -- The record is taken: its count is above all counts so far.
    obtain ⟨-, hlt⟩ := htaken
    have hpos : q.idleCnt (mem p) + 1#64 ≠ 0#64 := by
      intro hzero
      rw [hzero] at hlt
      simp at hlt
    refine ⟨hfresh, by simp, fun p' hp' => ?_, fun p' hmem hwait => ?_⟩
    · cases hp'
      exact ⟨rfl, hpos⟩
    · rcases mem_append.mp hmem with hmem | hmem
      · exact BitVec.le_trans (h.oldest p' hmem hwait) (BitVec.le_of_lt hlt)
      · rw [mem_singleton.mp hmem]
        exact BitVec.le_refl _
  · refine ⟨hfresh, h.none_taken, h.taken, fun p' hmem hwait => ?_⟩
    rcases mem_append.mp hmem with hmem | hmem
    · exact h.oldest p' hmem hwait
    · rw [mem_singleton.mp hmem] at hwait ⊢
      exact BitVec.not_lt.mp fun hlt => htaken ⟨hwait, hlt⟩

theorem oldestSoFar_findNext (mem : ℕ → α) (hnodup : ptrs.Nodup) :
    q.OldestSoFar mem ptrs (q.findNext mem ptrs) := by
  have h₀ : q.OldestSoFar mem [] ⟨mem, 0#64, none⟩ := ⟨by simp, by simp, by simp, by simp⟩
  have hfold : ∀ (l seen : List ℕ) (x : QueueScan α), (seen ++ l).Nodup → q.OldestSoFar mem seen x →
      q.OldestSoFar mem (seen ++ l) (l.foldl q.scan x) := by
    intro l
    induction l with
    | nil => intro seen x _ hx; simpa using hx
    | cons p l ih =>
      intro seen x hnodup hx
      have hp : p ∉ seen := by
        intro hmem
        exact disjoint_of_nodup_append hnodup hmem (mem_cons_self ..)
      have hassoc : seen ++ p :: l = (seen ++ [p]) ++ l := by simp
      rw [hassoc] at hnodup ⊢
      exact ih (seen ++ [p]) _ hnodup (q.oldestSoFar_scan hx hp)
  exact hfold ptrs [] _ hnodup h₀

theorem findNext_oldest (hnodup : ptrs.Nodup)
    (hret : (q.findNext mem ptrs).ret = some p) {p' : ℕ} (hmem : p' ∈ ptrs)
    (hwait : q.status (mem p') = .waiting) :
    q.idleCnt (mem p') + 1#64 ≤ q.idleCnt (mem p) + 1#64 := by
  have h := q.oldestSoFar_findNext mem hnodup
  rw [← (h.taken p hret).1]
  exact h.oldest p' hmem hwait

end Queued

def taskQueue : Queued SchedTask where
  status := SchedTask.status
  idleCnt := SchedTask.idleCnt
  setIdleCnt t n := { t with idleCnt := n }
  status_setIdleCnt _ _ := rfl
  idleCnt_setIdleCnt _ _ := rfl
  setIdleCnt_setIdleCnt _ _ _ := rfl
  setIdleCnt_idleCnt _ := rfl

def threadQueue : Queued SchedThread where
  status := SchedThread.status
  idleCnt := SchedThread.idleCnt
  setIdleCnt t n := { t with idleCnt := n }
  status_setIdleCnt _ _ := rfl
  idleCnt_setIdleCnt _ _ := rfl
  setIdleCnt_setIdleCnt _ _ _ := rfl
  setIdleCnt_idleCnt _ := rfl

def findNextTask (s : SchedState) : QueueScan SchedTask :=
  taskQueue.findNext s.tasks (tablePointers s.taskList)

def findNextThread (s : SchedState) (task : ℕ) : QueueScan SchedThread :=
  threadQueue.findNext s.threads (tablePointers (s.tasks task).threadList)

/-! ## Signals on the way in -/

abbrev saSiginfo : BitVec 32 := 4#32

abbrev sizeofSiginfo : BitVec 64 := 56#64

abbrev sizeofRegisters : BitVec 64 := 176#64

def intShift (i : ℕ) : BitVec 64 := (1#32 <<< (i % 32)).signExtend 64

def nextSignal (sigpending : BitVec 64) : Option (Fin signalMax) :=
  (List.finRange signalMax).find? fun i => decide (sigpending &&& intShift i ≠ 0#64)

def Registers.enterHandler (regs : Registers) (action : Sigaction) (signum : BitVec 32) :
    Registers :=
  let rsp := (regs.rsp - 128#64) &&& (-16 : BitVec 64)
  if action.saFlags &&& saSiginfo ≠ 0#32 then
    let siginfo := rsp - sizeofSiginfo
    let ucontext := siginfo - sizeofRegisters
    { regs with rsp := ucontext, rip := action.handler, rdi := signum.signExtend 64,
                rsi := siginfo, rdx := ucontext }
  else { regs with rsp := rsp, rip := action.handler, rdi := signum.signExtend 64 }

def deliverSignal (tasks : ℕ → SchedTask) (thread : SchedThread) : Option SchedThread :=
  match nextSignal thread.signalQueue.sigpending with
  | none => some thread
  | some i =>
    let signal := thread.signalQueue.queue i
    signal.sigaction.map fun (task, j) =>
      { thread with
        regs := thread.regs.enterHandler ((tasks task).sigactions j) signal.signum
        signalQueue := { thread.signalQueue with
          sigpending := thread.signalQueue.sigpending &&& ~~~intShift i } }

/-! ## The switch -/

def TaskStatus.preempted : TaskStatus → TaskStatus
  | .yield => .yield
  | _ => .waiting

theorem TaskStatus.preempted_eq_yield_iff {status : TaskStatus} :
    status.preempted = .yield ↔ status = .yield := by
  cases status <;> decide

def saveLast (regs : Registers) (lastTask lastThread : ℕ) (s : SchedState) : SchedState :=
  let task := s.tasks lastTask
  let thread := s.threads lastThread
  { s with
    tasks := update s.tasks lastTask { task with status := task.status.preempted }
    threads := update s.threads lastThread
      { thread with
        status := thread.status.preempted
        errno := s.core.errno
        regs := regs
        userFsBase := s.core.userFs
        userGsBase := s.core.userGs
        userStack := s.core.userStack } }

def CpuLocal.load (c : CpuLocal) (task : SchedTask) (thread : SchedThread) : CpuLocal :=
  { c with
    pid := task.pid
    tid := thread.tid
    errno := thread.errno
    kernelStack := thread.kernelStack
    userStack := thread.userStack
    pageTable := task.pageTable
    userFs := thread.userFsBase
    userGs := thread.userGsBase }

def switchIn (task thread : ℕ) (s : SchedState) : Option SchedState :=
  let nextTask := s.tasks task
  let nextThread := s.threads thread
  (deliverSignal s.tasks { nextThread with idleCnt := 0#64, status := .running }).map
    fun nextThread' =>
      { s with
        core := s.core.load nextTask nextThread
        tasks := update s.tasks task
          { nextTask with idleCnt := 0#64, status := .running, eventWaiting := false }
        threads := update s.threads thread nextThread' }

inductive Resumed
  | interrupted
  | idle
  | switched (task thread : ℕ)
  deriving DecidableEq, Repr

def reschedule (regs : Registers) (s : SchedState) : Option (Resumed × SchedState) :=
  let scan := findNextTask s
  let s := { s with tasks := scan.mem }
  -- A core that has a thread returns to it when there is no other.
  let stay := if s.core.Busy then Resumed.interrupted else Resumed.idle
  match scan.ret with
  | none => some (stay, s)
  | some task =>
    let scan := findNextThread s task
    let s := { s with threads := scan.mem }
    match scan.ret with
    | none => some (stay, s)
    | some thread =>
      if s.core.Busy then
        match s.currentTask, s.currentThread with
        | some lastTask, some lastThread =>
          (switchIn task thread (saveLast regs lastTask lastThread s)).map
            fun s => (.switched task thread, s)
        | _, _ => some (.idle, s)
      else (switchIn task thread s).map fun s => (.switched task thread, s)

def schedDequeue (task thread : ℕ) (s : SchedState) : SchedState :=
  { s with
    tasks := update s.tasks task { s.tasks task with status := .yield }
    threads := update s.threads thread { s.threads thread with status := .yield } }

abbrev taskMaxPriority : BitVec 64 := BitVec.allOnes 64

def schedRequeue (task thread : ℕ) (s : SchedState) : SchedState :=
  { s with
    tasks := update s.tasks task
      { s.tasks task with status := .waiting, idleCnt := taskMaxPriority }
    threads := update s.threads thread
      { s.threads thread with status := .waiting, idleCnt := taskMaxPriority } }

/-! ## What a timer interrupt does -/

section Cases

variable {regs : Registers} {s s' : SchedState} {r : Resumed} {task thread : ℕ}

structure Aged (s s' : SchedState) : Prop where
  tasks : ∀ p, ∃ n, s'.tasks p = { s.tasks p with idleCnt := n }
  threads : ∀ p, ∃ n, s'.threads p = { s.threads p with idleCnt := n }
  events : s'.events = s.events
  triggers : s'.triggers = s.triggers
  taskList : s'.taskList = s.taskList
  core : s'.core = s.core

structure Chosen (s : SchedState) (task thread : ℕ) : Prop where
  task_mem : task ∈ tablePointers s.taskList
  task_waiting : (s.tasks task).status = .waiting
  thread_mem : thread ∈ tablePointers (s.tasks task).threadList
  thread_waiting : (s.threads thread).status = .waiting

theorem Aged.threadList (h : Aged s s') (p : ℕ) :
    (s'.tasks p).threadList = (s.tasks p).threadList := by
  obtain ⟨n, hn⟩ := h.tasks p
  rw [hn]

theorem Aged.currentTask (h : Aged s s') : s'.currentTask = s.currentTask := by
  unfold SchedState.currentTask schedTranslatePid
  rw [h.taskList, h.core]

theorem Aged.currentThread (h : Aged s s') : s'.currentThread = s.currentThread := by
  unfold SchedState.currentThread schedTranslateTid schedTranslatePid
  simp only [h.taskList, h.core, h.threadList]

def Left (regs : Registers) (s₁ s₂ : SchedState) : Prop :=
  (¬ s₁.core.Busy ∧ s₂ = s₁) ∨
    (s₁.core.Busy ∧ ∃ lastTask lastThread, s₁.currentTask = some lastTask ∧
      s₁.currentThread = some lastThread ∧ s₂ = saveLast regs lastTask lastThread s₁)

theorem aged_findNextTask (s : SchedState) : Aged s { s with tasks := (findNextTask s).mem } :=
  ⟨(taskQueue.scanned_findNext _ _).aged, fun p => ⟨(s.threads p).idleCnt, rfl⟩, rfl, rfl, rfl, rfl⟩

theorem Aged.findNextThread (h : Aged s s') (task : ℕ) :
    Aged s { s' with threads := (findNextThread s' task).mem } := by
  refine ⟨h.tasks, fun p => ?_, h.events, h.triggers, h.taskList, h.core⟩
  obtain ⟨n, hn⟩ := (threadQueue.scanned_findNext s'.threads
    (tablePointers (s'.tasks task).threadList)).aged p
  obtain ⟨m, hm⟩ := h.threads p
  refine ⟨n, hn.trans ?_⟩
  rw [hm]
  rfl

theorem Left.task_eq {s₁ s₂ : SchedState} (haged : Aged s s₁) (h : Left regs s₁ s₂) (p : ℕ) :
    ∃ n status, s₂.tasks p = { s.tasks p with idleCnt := n, status := status } ∧
      ((s.tasks p).status = .yield → status = .yield) := by
  obtain ⟨n, hn⟩ := haged.tasks p
  rcases h with ⟨-, rfl⟩ | ⟨-, lastTask, lastThread, -, -, rfl⟩
  · exact ⟨n, _, hn, id⟩
  · by_cases hlast : p = lastTask
    · subst hlast
      refine ⟨n, (s.tasks p).status.preempted, ?_, TaskStatus.preempted_eq_yield_iff.mpr⟩
      simp [saveLast, hn]
    · exact ⟨n, (s.tasks p).status, by simp [saveLast, hlast, hn], id⟩

section

variable (h : reschedule regs s = some (r, s'))

include h

theorem reschedule_scan :
    (Aged s s' ∧ s'.tasks = (findNextTask s).mem ∧ ∀ task thread, r ≠ .switched task thread) ∨
      ∃ task thread s₁ s₂, r = .switched task thread ∧ Aged s s₁ ∧
        s₁.tasks = (findNextTask s).mem ∧ Chosen s task thread ∧ Left regs s₁ s₂ ∧
        switchIn task thread s₂ = some s' := by
  unfold reschedule at h
  dsimp only at h
  have haged := aged_findNextTask s
  have hstay : ∀ task thread, (if s.core.Busy then Resumed.interrupted else Resumed.idle) ≠
      .switched task thread := by
    split_ifs <;> simp
  cases htask : (findNextTask s).ret with
  | none =>
    rw [htask] at h
    cases h
    exact .inl ⟨haged, rfl, hstay⟩
  | some task =>
    rw [htask] at h
    dsimp only at h
    have haged' := haged.findNextThread task
    have hscan := (taskQueue.scanned_findNext _ _).ret task htask
    cases hthread : (findNextThread { s with tasks := (findNextTask s).mem } task).ret with
    | none =>
      rw [hthread] at h
      cases h
      exact .inl ⟨haged', rfl, hstay⟩
    | some thread =>
      rw [hthread] at h
      dsimp only at h
      have hscan' := (threadQueue.scanned_findNext _ _).ret thread hthread
      have hchosen : Chosen s task thread := by
        refine ⟨hscan.1, hscan.2, ?_, hscan'.2⟩
        have hmem := hscan'.1
        rwa [haged.threadList] at hmem
      split_ifs at h with hbusy
      · split at h
        · next lastTask lastThread hlt hlth =>
          obtain ⟨s'', hs'', heq⟩ := map_eq_some_iff.mp h
          cases heq
          exact .inr ⟨task, thread, _, _, rfl, haged', rfl, hchosen,
            .inr ⟨hbusy, lastTask, lastThread, hlt, hlth, rfl⟩, hs''⟩
        · cases h
          exact .inl ⟨haged', rfl, by simp⟩
      · obtain ⟨s'', hs'', heq⟩ := map_eq_some_iff.mp h
        cases heq
        exact .inr ⟨task, thread, _, _, rfl, haged', rfl, hchosen, .inl ⟨hbusy, rfl⟩, hs''⟩

theorem reschedule_cases : (Aged s s' ∧ ∀ task thread, r ≠ .switched task thread) ∨
      ∃ task thread s₁ s₂, r = .switched task thread ∧ Aged s s₁ ∧ Chosen s task thread ∧
        Left regs s₁ s₂ ∧ switchIn task thread s₂ = some s' := by
  rcases reschedule_scan h with
    ⟨haged, -, hne⟩ | ⟨task, thread, s₁, s₂, hr, haged, -, hchosen, hleft, hin⟩
  · exact .inl ⟨haged, hne⟩
  · exact .inr ⟨task, thread, s₁, s₂, hr, haged, hchosen, hleft, hin⟩

theorem reschedule_task (p : ℕ) :
    ∃ n status waiting, s'.tasks p =
      { s.tasks p with idleCnt := n, status := status, eventWaiting := waiting } ∧
      ((s.tasks p).status = .yield → status = .yield ∧ waiting = (s.tasks p).eventWaiting) := by
  rcases reschedule_cases h with
    ⟨haged, -⟩ | ⟨task, thread, s₁, s₂, -, haged, hchosen, hleft, hin⟩
  · obtain ⟨n, hn⟩ := haged.tasks p
    exact ⟨n, _, _, hn, fun hyield => ⟨hyield, rfl⟩⟩
  · obtain ⟨n, status, hsaved, hkeep⟩ := hleft.task_eq haged p
    obtain ⟨next, -, rfl⟩ := map_eq_some_iff.mp hin
    by_cases hp : p = task
    · -- The task that is switched to was waiting.
      subst hp
      refine ⟨0#64, .running, false, by simp [hsaved], fun hyield => ?_⟩
      have hwait := hchosen.task_waiting
      rw [hyield] at hwait
      simp at hwait
    · exact ⟨n, status, (s.tasks p).eventWaiting, by simp [hp, hsaved],
        fun hyield => ⟨hkeep hyield, rfl⟩⟩

theorem reschedule_thread_yielded {p : ℕ}
    (hyield : (s.threads p).status = .yield) : (s'.threads p).status = .yield := by
  rcases reschedule_cases h with
    ⟨haged, -⟩ | ⟨task, thread, s₁, s₂, -, haged, hchosen, hleft, hin⟩
  · obtain ⟨n, hn⟩ := haged.threads p
    rw [hn]
    exact hyield
  · obtain ⟨n, hn⟩ := haged.threads p
    have hne : p ≠ thread := by
      rintro rfl
      have hwait := hchosen.thread_waiting
      rw [hyield] at hwait
      simp at hwait
    have hsaved : (s₂.threads p).status = .yield := by
      rcases hleft with ⟨-, rfl⟩ | ⟨-, lastTask, lastThread, -, -, rfl⟩
      · rw [hn]
        exact hyield
      · by_cases hlast : p = lastThread
        · subst hlast
          simp [saveLast, hn, hyield, TaskStatus.preempted]
        · simp [saveLast, hlast, hn, hyield]
    obtain ⟨next, -, rfl⟩ := map_eq_some_iff.mp hin
    simpa [hne] using hsaved

theorem reschedule_taskList : s'.taskList = s.taskList := by
  rcases reschedule_cases h with ⟨haged, -⟩ | ⟨task, thread, s₁, s₂, -, haged, -, hleft, hin⟩
  · exact haged.taskList
  · obtain ⟨next, -, rfl⟩ := map_eq_some_iff.mp hin
    rcases hleft with ⟨-, rfl⟩ | ⟨-, lastTask, lastThread, -, -, rfl⟩
    · exact haged.taskList
    · exact haged.taskList

end

def Resumed.pid (s : SchedState) : Resumed → BitVec 64
  | .switched task _ => (s.tasks task).pid
  | _ => s.core.pid

theorem reschedule_pid (h : reschedule regs s = some (r, s')) : s'.core.pid = r.pid s := by
  rcases reschedule_cases h with ⟨haged, hne⟩ | ⟨task, thread, s₁, s₂, rfl, haged, -, hleft, hin⟩
  · rw [haged.core]
    cases r with
    | interrupted => rfl
    | idle => rfl
    | switched task thread => exact absurd rfl (hne task thread)
  · obtain ⟨n, status, hsaved, -⟩ := hleft.task_eq haged task
    obtain ⟨next, -, rfl⟩ := map_eq_some_iff.mp hin
    exact (congrArg SchedTask.pid hsaved :)

theorem reschedule_chosen (h : reschedule regs s = some (.switched task thread, s')) :
    Chosen s task thread := by
  rcases reschedule_cases h with ⟨-, hne⟩ | ⟨task', thread', s₁, s₂, heq, -, hchosen, -, -⟩
  · exact absurd rfl (hne task thread)
  · obtain ⟨rfl, rfl⟩ := Resumed.switched.inj heq
    exact hchosen

end Cases

end Pastoral
