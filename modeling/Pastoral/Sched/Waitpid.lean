import Pastoral.Sched.Event
import Pastoral.Sched.Execve
import Pastoral.Sched.Fork

/-!
# exit and waitpid

`syscall_waitpid` and `syscall_exit` of `sched.c`, with `fork` and `execve` around them.

## Main definitions

* `Punctual`: the calls that come in time

## Main results

* `honest_of_punctual`: their reports are right, and no exit is missed
-/

open Function List Option Probe Transition

namespace Pastoral

/-! ## The functions -/

def aimTrigger (event : ℕ) (s : SchedState) (task : ℕ) : SchedState :=
  let trigger := (s.tasks task).exitTrigger
  { s with
    triggers := update s.triggers trigger { s.triggers trigger with event := some event } }

def waitpidTasks (current : ℕ) (pid : BitVec 32) (s : SchedState) : Option (List ℕ) :=
  if pid = -1#32 then some (s.tasks current).children
  else if 0 < pid.toInt then (schedTranslatePid s (pid.signExtend 64)).map fun task => [task]
  else some []

def syscallWaitpid (pid : BitVec 32) (s : SchedState) : Option (WaitPoint × SchedState) :=
  s.currentTask.bind fun current =>
    (waitpidTasks current pid s).bind fun tasks =>
      let event := (s.tasks current).event
      eventWait event (tasks.foldl (aimTrigger event) s)

def waitpidResult (current : ℕ) (s : SchedState) : Option (BitVec 64 × BitVec 32) :=
  (s.tasks current).lastTrigger.map fun trigger =>
    let agent := s.tasks (s.triggers trigger).agentTask
    (agent.pid, agent.processStatus)

def exitThread (task : ℕ) (s : SchedState) (i : ℕ) : SchedState :=
  match (s.tasks task).threadList.slots[i]? with
  | some (some (_, thread)) =>
    let t := s.tasks task
    { s with
      threads := update s.threads thread { s.threads thread with status := .yield }
      tasks := update s.tasks task
        { t with threadList := hashTableDelete addressHash t.threadList (s.threads thread).tid } }
  | _ => s

def exitChild (parent : ℕ) (s : SchedState) (child : ℕ) : SchedState :=
  let s := s.setTask child { s.tasks child with ppid := 1#64 }
  s.setTask parent { s.tasks parent with children := (s.tasks parent).children ++ [child] }

def exitChildren (task : ℕ) (s : SchedState) : Option SchedState :=
  match (s.tasks task).children, schedTranslatePid s 1#64 with
  | [], _ => some s
  | children, some parent => some (children.foldl (exitChild parent) s)
  | _, none => none

def exitTask (task : ℕ) (status : BitVec 32) (s : SchedState) : SchedState :=
  let s := s.setTask task { s.tasks task with processStatus := status ||| 0x200#32 }
  let s := eventFire (s.tasks task).exitTrigger s
  let s := s.setTask task { s.tasks task with status := .yield }
  { s with
    taskList := hashTableDelete addressHash s.taskList (s.tasks task).pid
    core := { s.core with pid := -1#64, tid := -1#64 } }

def syscallExit (status : BitVec 32) (s : SchedState) : Option SchedState :=
  s.currentTask.bind fun task =>
    let threads := (List.range (s.tasks task).threadList.capacity).foldl (exitThread task) s
    (exitChildren task threads).map (exitTask task status)

def execStatements (c : ExecCall) : ℕ → ExecPoint → SchedState → Option (ExecPoint × SchedState)
  | 0, point, s => some (point, s)
  | n + 1, point, s => (execNext c s point).bind fun r => execStatements c n r.1 r.2

def syscallExecve (c : ExecCall) (n : ℕ) (s : SchedState) : Option SchedState :=
  match execStatements c n .taskExec s with
  | some (.done, s') => some s'
  | _ => none

/-! ## A parent and its children -/

inductive WaitpidPoint
  | outside
  | waiting (point : WaitPoint)
  | returned
  deriving DecidableEq, Repr

structure ChildExit where
  task : ℕ
  pid : BitVec 64
  status : BitVec 32
  deriving DecidableEq, Repr

structure WaitpidState where
  sched : SchedState
  point : WaitpidPoint
  alive : List ℕ
  used : List ℕ
  pids : List (BitVec 64)
  exited : List ChildExit
  reports : List (BitVec 64 × BitVec 32)
  missed : List (BitVec 64)

inductive WaitpidOp
  | fork (c : ForkCall) (fdList : HashTable (BitVec 32) ℕ)
  | waitpid (pid : BitVec 32)
  | run
  | execve (c : ExecCall) (n : ℕ)
  | exit (status : BitVec 32)
  | tick (regs : Registers)

namespace WaitpidState

def Reported (s : WaitpidState) (pid : BitVec 64) : Prop := pid ∈ s.reports.map Prod.fst
  deriving Decidable

def unreported (s : WaitpidState) (pid : BitVec 32) : List (BitVec 64) :=
  (s.exited.map ChildExit.pid).filter fun child =>
    (pid = -1#32 ∨ child = pid.signExtend 64) ∧ ¬ s.Reported child

def Fresh (s : WaitpidState) (records : List ℕ) : Prop := ∀ r ∈ records, r ∉ s.used
  deriving Decidable

def goOn (s : WaitpidState) (r : WaitPoint × SchedState) : WaitpidState :=
  { s with sched := r.2, point := if r.1 = .outside then .returned else .waiting r.1 }

end WaitpidState

def ForkCall.records (c : ForkCall) : List ℕ :=
  [c.task, c.thread, c.event, c.exitTrigger, c.exitEvent]

def ExecCall.records (c : ExecCall) : List ℕ :=
  [c.task, c.thread, c.event, c.exitTrigger, c.exitEvent]

def waitpidNext (w : Waiter) (s : WaitpidState) : WaitpidOp → Option WaitpidState
  | .fork c fdList =>
    if w.Runs s.sched ∧ s.point = .outside ∧ c.current = w.task ∧ c.currentThread = w.thread ∧
        s.Fresh c.records ∧ c.pid ∉ s.pids then
      some { s with
        sched := forkSched c fdList s.sched
        alive := c.task :: s.alive
        used := c.records ++ s.used
        pids := c.pid :: s.pids }
    else none
  | .waitpid pid =>
    if w.Runs s.sched ∧ s.point = .outside then
      (syscallWaitpid pid s.sched).map fun r => { s with missed := s.unreported pid }.goOn r
    else none
  | .run =>
    if w.Runs s.sched then
      match s.point with
      | .outside => none
      | .waiting point => (eventWaitNext w.task .procExit s.sched point).map s.goOn
      | .returned => (waitpidResult w.task s.sched).map fun report =>
          { s with point := .outside, reports := report :: s.reports, missed := [] }
    else none
  | .execve c n =>
    if s.sched.currentTask = some c.caller ∧ c.caller ∈ s.alive ∧ s.Fresh c.records then
      (syscallExecve c n s.sched).map fun sched =>
        { s with
          sched := sched
          alive := c.task :: s.alive.filter (· ≠ c.caller)
          used := c.records ++ s.used }
    else none
  | .exit status =>
    s.sched.currentTask.bind fun task =>
      if task ∈ s.alive then
        (syscallExit status s.sched).map fun sched =>
          { s with
            sched := sched
            alive := s.alive.filter (· ≠ task)
            exited := ⟨task, (s.sched.tasks task).pid, status ||| 0x200#32⟩ :: s.exited }
      else none
  | .tick regs => (reschedule regs s.sched).map fun r => { s with sched := r.2 }

/-- One step. -/
def waitpidStep (w : Waiter) (s : WaitpidState) (op : WaitpidOp) (s' : WaitpidState) : Prop :=
  waitpidNext w s op = some s'

/-- **Every report is right**: it is the pid and the status of a child that has exited, and no child
is reported twice. -/
def Honest (s : WaitpidState) : Prop :=
  (s.reports.map Prod.fst).Nodup ∧ ∀ r ∈ s.reports, ∃ x ∈ s.exited, r = (x.pid, x.status)
  deriving Decidable

def WaitpidPoint.Waits : WaitpidPoint → Prop
  | .waiting _ => True
  | _ => False

instance : DecidablePred WaitpidPoint.Waits := fun point => by
  unfold WaitpidPoint.Waits
  cases point <;> infer_instance

/-- **An exit is missed**: the parent is out of the queue, in a `waitpid` that asked for a child
which had exited unreported. -/
def Stranded (w : Waiter) (s : WaitpidState) : Prop :=
  s.point.Waits ∧ (s.sched.tasks w.task).status = .yield ∧ s.missed ≠ []
  deriving Decidable

def LastUnreported (w : Waiter) (s : WaitpidState) : Prop :=
  ∃ x ∈ s.exited, ¬ s.Reported x.pid ∧
    (s.sched.tasks w.task).lastTrigger = some (s.sched.tasks x.task).exitTrigger
  deriving Decidable

/-- **A punctual call**: `waitpid` is called when no exit is counted in the event of the parent and
none of the children it asks for has exited unreported, or when one is counted and the last one
fired is not reported; and a child that exits has not called `execve`. -/
def Punctual (w : Waiter) (s : WaitpidState) : WaitpidOp → Prop
  | .waitpid pid =>
    if (s.sched.events w.event).pending = 0#32 then s.unreported pid = [] else LastUnreported w s
  | .exit _ => ∀ task ∈ s.sched.currentTask, (s.sched.tasks task).hasExecved = false
  | _ => True

instance (w : Waiter) (s : WaitpidState) : DecidablePred (Punctual w s) := fun op => by
  unfold Punctual
  cases op <;> infer_instance

/-! ## What the calls leave alone -/

structure ChildView where
  pid : BitVec 64
  status : BitVec 32
  exitTrigger : ℕ
  hasExecved : Bool
  children : List ℕ

def SchedTask.view (t : SchedTask) : ChildView :=
  ⟨t.pid, t.processStatus, t.exitTrigger, t.hasExecved, t.children⟩

structure SameProcs (w : Waiter) (used : List ℕ) (s s' : SchedState) : Prop where
  view : ∀ t ∈ used, t ≠ w.task → (s'.tasks t).view = (s.tasks t).view
  event : (s'.tasks w.task).event = (s.tasks w.task).event
  lastTrigger : (s'.tasks w.task).lastTrigger = (s.tasks w.task).lastTrigger
  agent : ∀ t ∈ used, (s'.triggers t).agentTask = (s.triggers t).agentTask
  type : ∀ t ∈ used, (s'.triggers t).eventType = (s.triggers t).eventType
  aim : ∀ t ∈ used, (s'.triggers t).event = (s.triggers t).event ∨
    (s'.triggers t).event = some w.event
  owner : ∀ e ∈ used, (s'.events e).task = (s.events e).task

section Frames

variable {w : Waiter} {used : List ℕ} {s s' s'' : SchedState}

theorem SameProcs.refl (w : Waiter) (used : List ℕ) (s : SchedState) : SameProcs w used s s :=
  ⟨fun _ _ _ => rfl, rfl, rfl, fun _ _ => rfl, fun _ _ => rfl, fun _ _ => Or.inl rfl,
    fun _ _ => rfl⟩

theorem SameProcs.trans (h : SameProcs w used s s') (h' : SameProcs w used s' s'') :
    SameProcs w used s s'' where
  view t ht hne := (h'.view t ht hne).trans (h.view t ht hne)
  event := h'.event.trans h.event
  lastTrigger := h'.lastTrigger.trans h.lastTrigger
  agent t ht := (h'.agent t ht).trans (h.agent t ht)
  type t ht := (h'.type t ht).trans (h.type t ht)
  aim t ht := by
    rcases h'.aim t ht with haim | haim
    · rw [haim]
      exact h.aim t ht
    · exact .inr haim
  owner e he := (h'.owner e he).trans (h.owner e he)

theorem SameProcs.of_eq
    (hview : ∀ t ∈ used, t ≠ w.task → (s'.tasks t).view = (s.tasks t).view)
    (hevent : (s'.tasks w.task).event = (s.tasks w.task).event)
    (hlast : (s'.tasks w.task).lastTrigger = (s.tasks w.task).lastTrigger)
    (htriggers : ∀ t ∈ used, s'.triggers t = s.triggers t)
    (howner : ∀ e ∈ used, (s'.events e).task = (s.events e).task) : SameProcs w used s s' where
  view := hview
  event := hevent
  lastTrigger := hlast
  agent t ht := by rw [htriggers t ht]
  type t ht := by rw [htriggers t ht]
  aim t ht := Or.inl (by rw [htriggers t ht])
  owner := howner

theorem sameProcs_reschedule {regs : Registers} {r : Resumed}
    (h : reschedule regs s = some (r, s')) : SameProcs w used s s' := by
  obtain ⟨_, _, _, hparent, -⟩ := reschedule_task h w.task
  have hleaves := leavesWaiter_reschedule h w.task
  refine .of_eq (fun t _ _ => ?_) ?_ ?_ (fun t _ => ?_) fun e _ => ?_
  · obtain ⟨_, _, _, ht, -⟩ := reschedule_task h t
    rw [ht]
    rfl
  · rw [hparent]
  · rw [hparent]
  · rw [hleaves.triggers]
  · rw [hleaves.events]

theorem sameProcs_aim (tasks : List ℕ) (s : SchedState) :
    SameProcs w used s (tasks.foldl (aimTrigger w.event) s) := by
  induction tasks generalizing s with
  | nil => exact SameProcs.refl w used s
  | cons task tasks ih =>
    refine SameProcs.trans ?_ (ih (aimTrigger w.event s task))
    refine ⟨fun _ _ _ => rfl, rfl, rfl, fun t _ => ?_, fun t _ => ?_, fun t _ => ?_, fun _ _ => rfl⟩
    all_goals
      by_cases ht : t = (s.tasks task).exitTrigger
      · simp [aimTrigger, ht]
      · simp [aimTrigger, ht]

theorem foldl_aimTrigger (event : ℕ) (tasks : List ℕ) (s : SchedState) :
    ∃ triggers, tasks.foldl (aimTrigger event) s = { s with triggers := triggers } := by
  induction tasks generalizing s with
  | nil => exact ⟨s.triggers, rfl⟩
  | cons task tasks ih =>
    obtain ⟨triggers, h⟩ := ih (aimTrigger event s task)
    exact ⟨triggers, h⟩

theorem sameProcs_status (task : ℕ) (status : TaskStatus) (waiting : Bool)
    (threads : ℕ → SchedThread) :
    SameProcs w used s
      { s with
        tasks := update s.tasks task
          { s.tasks task with status := status, eventWaiting := waiting }
        threads := threads } := by
  refine .of_eq (fun t _ _ => ?_) ?_ ?_ (fun _ _ => rfl) fun _ _ => rfl
  all_goals
    dsimp only
    rw [update_apply]
    split_ifs with ht
    · simp only [ht, SchedTask.view]
    · rfl

theorem sameProcs_dequeue (task thread : ℕ) (s : SchedState) :
    SameProcs w used s (schedDequeue task thread s) :=
  sameProcs_status task .yield (s.tasks task).eventWaiting _

theorem sameProcs_setEventWaiting (task : ℕ) (waiting : Bool) (s : SchedState) :
    SameProcs w used s (s.setEventWaiting task waiting) :=
  sameProcs_status task (s.tasks task).status waiting s.threads

theorem sameProcs_eventWait {event : ℕ} {r : WaitPoint × SchedState}
    (hcall : eventWait event s = some r) : SameProcs w used s r.2 := by
  unfold eventWait at hcall
  dsimp only at hcall
  split_ifs at hcall with hpending
  · rw [← some.inj hcall]
    refine .of_eq (fun _ _ _ => rfl) rfl rfl (fun _ _ => rfl) fun e _ => ?_
    dsimp only
    rw [update_apply]
    split_ifs with he
    · rw [he]
    · rfl
  · split at hcall
    · rw [← some.inj hcall]
      exact (sameProcs_dequeue _ _ s).trans (sameProcs_setEventWaiting _ true _)
    · simp at hcall

theorem sameProcs_eventWaitNext {task : ℕ} {eventType : EventType} {point : WaitPoint}
    {r : WaitPoint × SchedState} (hnext : eventWaitNext task eventType s point = some r) :
    SameProcs w used s r.2 := by
  cases point with
  | outside => exact absurd hnext (by simp [eventWaitNext])
  | spin =>
    rw [← some.inj hnext]
    exact SameProcs.refl w used s
  | clear =>
    rw [← some.inj hnext]
    exact sameProcs_setEventWaiting task false s
  | check =>
    obtain ⟨trigger, -, rfl⟩ := map_eq_some_iff.mp hnext
    exact SameProcs.refl w used s
  | dequeue =>
    rw [eventWaitNext] at hnext
    split at hnext
    · rw [← some.inj hnext]
      exact sameProcs_dequeue _ _ s
    · simp at hnext
  | mark =>
    rw [← some.inj hnext]
    exact sameProcs_setEventWaiting task true s

section Fork

variable {c : ForkCall} {fdList : HashTable (BitVec 32) ℕ} {t e : ℕ}

theorem forkSched_tasks_of_ne (htask : t ≠ c.task) (hcurrent : t ≠ c.current) :
    (forkSched c fdList s).tasks t = s.tasks t :=
  (update_of_ne hcurrent _ _).trans (update_of_ne htask _ _)

theorem forkSched_current :
    (forkSched c fdList s).tasks c.current =
      { s.tasks c.current with children := (s.tasks c.current).children ++ [c.task] } :=
  update_self _ _ _

theorem forkSched_triggers_of_ne (ht : t ≠ c.exitTrigger) :
    (forkSched c fdList s).triggers t = s.triggers t := update_of_ne ht _ _

theorem forkSched_events_of_ne (hevent : e ≠ c.event) (hexit : e ≠ c.exitEvent) :
    (forkSched c fdList s).events e = s.events e :=
  (update_of_ne hexit _ _).trans (update_of_ne hevent _ _)

theorem sameProcs_fork (hcurrent : c.current = w.task) (hfresh : ∀ r ∈ c.records, r ∉ used) :
    SameProcs w used s (forkSched c fdList s) := by
  have hne : ∀ r ∈ c.records, ∀ t ∈ used, t ≠ r := fun r hr t ht heq => hfresh r hr (heq ▸ ht)
  have htask := hne c.task (by simp [ForkCall.records])
  have htrigger := hne c.exitTrigger (by simp [ForkCall.records])
  have hevent := hne c.event (by simp [ForkCall.records])
  have hexit := hne c.exitEvent (by simp [ForkCall.records])
  refine .of_eq (fun t ht hparent => ?_) ?_ ?_
    (fun t ht => forkSched_triggers_of_ne (htrigger t ht)) fun e he => ?_
  · rw [forkSched_tasks_of_ne (htask t ht) (hcurrent ▸ hparent)]
  · rw [← hcurrent, forkSched_current]
  · rw [← hcurrent, forkSched_current]
  · rw [forkSched_events_of_ne (hevent e he) (hexit e he)]

end Fork

section Execve

variable {c : ExecCall} {s₀ : SchedState} {point : ExecPoint}

structure ExecWrites (c : ExecCall) (s₀ : SchedState) (point : ExecPoint) (s : SchedState) :
    Prop where
  others : ∀ t ≠ c.task, ∃ fdList fdBitmap,
    s.tasks t = { s₀.tasks t with fdList := fdList, fdBitmap := fdBitmap }
  triggers : ∀ t ≠ c.exitTrigger, s.triggers t = s₀.triggers t
  events : ∀ e, e ≠ c.event → e ≠ c.exitEvent → s.events e = s₀.events e
  execved : .hasExecved ∈ point.written → (s.tasks c.task).hasExecved = true

theorem ExecWrites.start (c : ExecCall) (s : SchedState) : ExecWrites c s .taskExec s :=
  ⟨fun t _ => ⟨(s.tasks t).fdList, (s.tasks t).fdBitmap, rfl⟩, fun _ _ => rfl, fun _ _ _ => rfl,
    fun h => absurd h not_mem_nil⟩

theorem ExecWrites.setTask {point' : ExecPoint} (h : ExecWrites c s₀ point s) (t : SchedTask)
    (hexecved : .hasExecved ∈ point'.written → t.hasExecved = true) :
    ExecWrites c s₀ point' (s.setTask c.task t) := by
  refine ⟨fun p hp => ?_, h.triggers, h.events, fun hwritten => ?_⟩
  · rw [setTask_of_ne s t hp]
    exact h.others p hp
  · rw [setTask_self]
    exact hexecved hwritten

theorem ExecWrites.of_eq {point' : ExecPoint} (h : ExecWrites c s₀ point s)
    (htasks : s'.tasks = s.tasks) (htriggers : s'.triggers = s.triggers)
    (hevents : s'.events = s.events)
    (hpoint : .hasExecved ∈ point'.written → .hasExecved ∈ point.written) :
    ExecWrites c s₀ point' s' := by
  refine ⟨?_, ?_, ?_, fun hwritten => ?_⟩
  · rw [htasks]
    exact h.others
  · rw [htriggers]
    exact h.triggers
  · rw [hevents]
    exact h.events
  · rw [htasks]
    exact h.execved (hpoint hwritten)

theorem ExecWrites.taskExec (h : ExecWrites c s₀ point s) (hexec : schedTaskExec c s = some s') :
    ExecWrites c s₀ .taskStatus s' := by
  unfold schedTaskExec at hexec
  split at hexec
  · cases hexec
    refine ⟨fun t ht => ?_, fun t ht => ?_, fun e he he' => ?_, fun h => absurd h not_mem_nil⟩
    · obtain ⟨fdList, fdBitmap, heq⟩ := h.others t ht
      exact ⟨fdList, fdBitmap, (update_of_ne ht _ _).trans heq⟩
    · exact (update_of_ne ht _ _).trans (h.triggers t ht)
    · exact ((update_of_ne he' _ _).trans (update_of_ne he _ _)).trans
        (h.events e he he')
  · simp at hexec

theorem ExecWrites.inheritFd {i : ℕ} (h : ExecWrites c s₀ point s)
    (hfd : inheritFd c i s = some s') : ExecWrites c s₀ (.fd (i + 1)) s' := by
  have hnone : ExecField.hasExecved ∉ (ExecPoint.fd (i + 1)).written := not_mem_nil
  unfold Pastoral.inheritFd at hfd
  split_ifs at hfd with htest
  · obtain ⟨current, -, hfd⟩ := bind_eq_some_iff.mp hfd
    obtain ⟨handle, -, rfl⟩ := map_eq_some_iff.mp hfd
    split_ifs with hinherits
    · exact h.setTask _ fun hwritten => absurd hwritten hnone
    · -- A descriptor of the current task is closed.
      refine ⟨fun t ht => ?_, h.triggers, h.events, fun hwritten => absurd hwritten hnone⟩
      by_cases htc : t = current
      · subst htc
        obtain ⟨fdList, fdBitmap, heq⟩ := h.others t ht
        refine ⟨((s.tasks t).fdClose (c.handles handle)).fdList,
          ((s.tasks t).fdClose (c.handles handle)).fdBitmap, (update_self _ _ _).trans ?_⟩
        rw [heq]
        rfl
      · obtain ⟨fdList, fdBitmap, heq⟩ := h.others t ht
        exact ⟨fdList, fdBitmap, (update_of_ne htc _ _).trans heq⟩
  · cases hfd
    exact h.of_eq rfl rfl rfl fun hwritten => absurd hwritten hnone

theorem write_hasExecved {f : ExecField} {caller t : SchedTask}
    (h : .hasExecved = f ∨ t.hasExecved = true) : (f.write c caller t).hasExecved = true := by
  rcases h with rfl | h
  · rfl
  · cases f <;> first | exact h | rfl

theorem ExecWrites.statement {r : ExecPoint × SchedState} (h : ExecWrites c s₀ point s)
    (hr : execNext c s point = some r) : ExecWrites c s₀ r.1 r.2 := by
  cases point with
  | taskExec =>
    obtain ⟨s', hexec, rfl⟩ := map_eq_some_iff.mp hr
    exact h.taskExec hexec
  | fd i =>
    rw [execNext] at hr
    split_ifs at hr with hi
    · obtain ⟨s', hfd, rfl⟩ := map_eq_some_iff.mp hr
      exact h.inheritFd hfd
    · cases hr
      exact h.of_eq rfl rfl rfl fun hwritten => absurd hwritten not_mem_nil
  | field f =>
    cases hr
    refine h.setTask _ fun hwritten => ?_
    rcases written_next f .hasExecved hwritten with heq | hold
    · exact write_hasExecved (.inl heq)
    · exact write_hasExecved (.inr (h.execved hold))
  | taskStatus | dupFds =>
    cases hr
    exact h.setTask _ fun hwritten => absurd hwritten not_mem_nil
  | done => exact absurd hr (by simp [execNext])
  | threadStatus | deleteCaller =>
    cases hr
    exact h.of_eq rfl rfl rfl fun hwritten => absurd hwritten not_mem_nil
  | deleteTask =>
    cases hr
    have hnot : ExecField.hasExecved ∉ (ExecPoint.field .cwd).written := by decide
    exact h.of_eq rfl rfl rfl fun hwritten => absurd hwritten hnot
  | threadPid =>
    cases hr
    have hnot : ExecField.hasExecved ∉ (ExecPoint.field .realUid).written := by decide
    exact h.of_eq rfl rfl rfl fun hwritten => absurd hwritten hnot
  | clearPid | clearTid =>
    cases hr
    exact h.of_eq rfl rfl rfl id
  | push =>
    obtain ⟨taskList, rfl⟩ : ∃ taskList, r = (.done, { s with taskList := taskList }) :=
      ⟨_, (some.inj hr).symm⟩
    exact h.of_eq rfl rfl rfl id

theorem ExecWrites.statements {n : ℕ} {r : ExecPoint × SchedState} (h : ExecWrites c s₀ point s)
    (hr : execStatements c n point s = some r) : ExecWrites c s₀ r.1 r.2 := by
  induction n generalizing point s with
  | zero =>
    cases hr
    exact h
  | succ n ih =>
    obtain ⟨next, hnext, hrest⟩ := bind_eq_some_iff.mp hr
    exact ih (h.statement hnext) hrest

theorem sameProcs_execve {n : ℕ} (hfresh : ∀ r ∈ c.records, r ∉ used) (hparent : w.task ∈ used)
    (hexec : syscallExecve c n s = some s') :
    SameProcs w used s s' ∧ (s'.tasks c.task).hasExecved = true ∧
      (s'.tasks w.task).status = (s.tasks w.task).status ∧
      (s'.tasks w.task).eventWaiting = (s.tasks w.task).eventWaiting := by
  have hwrites : ExecWrites c s .done s' := by
    unfold syscallExecve at hexec
    split at hexec
    · next hr =>
      cases hexec
      exact (ExecWrites.start c s).statements hr
    · simp at hexec
  have hne : ∀ r ∈ c.records, ∀ t ∈ used, t ≠ r := fun r hr t ht heq => hfresh r hr (heq ▸ ht)
  have htask := hne c.task (by simp [ExecCall.records])
  have htrigger := hne c.exitTrigger (by simp [ExecCall.records])
  have hevent := hne c.event (by simp [ExecCall.records])
  have hexit := hne c.exitEvent (by simp [ExecCall.records])
  obtain ⟨fdList, fdBitmap, hw⟩ := hwrites.others w.task (htask w.task hparent)
  refine ⟨.of_eq (fun t ht _ => ?_) ?_ ?_ (fun t ht => hwrites.triggers t (htrigger t ht))
    fun e he => ?_, hwrites.execved (by decide), ?_, ?_⟩
  · obtain ⟨fdList, fdBitmap, heq⟩ := hwrites.others t (htask t ht)
    rw [heq]
    rfl
  · rw [hw]
  · rw [hw]
  · rw [hwrites.events e (hevent e he) (hexit e he)]
  · rw [hw]
  · rw [hw]

end Execve

section Exit

variable {task : ℕ} {status : BitVec 32}

theorem foldl_exitThread (task : ℕ) (slots : List ℕ) (s : SchedState) :
    ∃ threads threadList, slots.foldl (exitThread task) s =
      { s with
        threads := threads
        tasks := update s.tasks task { s.tasks task with threadList := threadList } } := by
  induction slots generalizing s with
  | nil => exact ⟨s.threads, (s.tasks task).threadList, by simp⟩
  | cons i slots ih =>
    obtain ⟨threads, threadList, h⟩ := ih (exitThread task s i)
    rw [foldl_cons, h]
    unfold exitThread
    split
    · exact ⟨threads, threadList, by simp⟩
    · exact ⟨threads, threadList, rfl⟩

structure ExitEffect (w : Waiter) (task : ℕ) (status : BitVec 32) (s s' : SchedState) : Prop where
  others : ∀ t, t ≠ w.task → t ≠ task → s'.tasks t = s.tasks t
  view : (s'.tasks task).view = { (s.tasks task).view with status := status ||| 0x200#32 }
  event : (s'.tasks w.task).event = (s.tasks w.task).event
  lastTrigger : (s'.tasks w.task).lastTrigger = some (s.tasks task).exitTrigger
  triggers : s'.triggers = s.triggers
  owner : ∀ e, (s'.events e).task = (s.events e).task

theorem eventFire_parent {trigger e : ℕ} (hevent : (s.triggers trigger).event = some e)
    (howner : (s.events e).task = w.task) :
    (∀ t, t ≠ w.task → (eventFire trigger s).tasks t = s.tasks t) ∧
      ((eventFire trigger s).tasks w.task).event = (s.tasks w.task).event ∧
      ((eventFire trigger s).tasks w.task).lastTrigger = some trigger ∧
      ∀ e', ((eventFire trigger s).events e').task = (s.events e').task := by
  have htask := eventFire_task hevent
  rw [howner] at htask
  refine ⟨fun t ht => ?_, ?_, ?_, fun e' => ?_⟩
  · unfold eventFire
    rw [hevent]
    dsimp only
    rw [howner]
    exact (update_of_ne ht _ _).trans (update_of_ne ht _ _)
  · rw [htask]
  · rw [htask]
  · rw [eventFire_events hevent]
    by_cases he : e' = e
    · subst he
      rw [update_self]
    · rw [update_of_ne he]

theorem exitTask_effect {e : ℕ} (hne : task ≠ w.task)
    (hevent : (s.triggers (s.tasks task).exitTrigger).event = some e)
    (howner : (s.events e).task = w.task) :
    ExitEffect w task status s (exitTask task status s) := by
  have hself := setTask_self s task { s.tasks task with processStatus := status ||| 0x200#32 }
  have hother : ∀ t, t ≠ task →
      (s.setTask task { s.tasks task with processStatus := status ||| 0x200#32 }).tasks t =
        s.tasks t := fun t ht => setTask_of_ne s _ ht
  obtain ⟨htasks, hkept, hlast, howners⟩ := @eventFire_parent w
    (s.setTask task { s.tasks task with processStatus := status ||| 0x200#32 })
    (s.tasks task).exitTrigger e hevent howner
  have htriggers := eventFire_triggers (s.tasks task).exitTrigger
    (s.setTask task { s.tasks task with processStatus := status ||| 0x200#32 })
  unfold exitTask
  simp only [hself]
  generalize hfired : eventFire (s.tasks task).exitTrigger
    (s.setTask task { s.tasks task with processStatus := status ||| 0x200#32 }) = fired at *
  refine ⟨fun t hparent ht => ?_, ?_, ?_, ?_, htriggers, howners⟩
  · exact (setTask_of_ne fired _ ht).trans ((htasks t hparent).trans (hother t ht))
  · have hview := congrArg SchedTask.view
      (setTask_self fired task { fired.tasks task with status := .yield })
    refine hview.trans ?_
    rw [htasks task hne, hself]
    rfl
  · have heq := congrArg SchedTask.event
      (setTask_of_ne fired { fired.tasks task with status := .yield } (Ne.symm hne))
    refine heq.trans (hkept.trans ?_)
    rw [hother w.task (Ne.symm hne)]
  · exact (congrArg SchedTask.lastTrigger
      (setTask_of_ne fired { fired.tasks task with status := .yield } (Ne.symm hne))).trans hlast

theorem exit_effect {e : ℕ} (hcurrent : s.currentTask = some task) (hne : task ≠ w.task)
    (hchildren : (s.tasks task).children = [])
    (hevent : (s.triggers (s.tasks task).exitTrigger).event = some e)
    (howner : (s.events e).task = w.task) (hexit : syscallExit status s = some s') :
    ExitEffect w task status s s' := by
  rw [syscallExit, hcurrent, bind_some] at hexit
  dsimp only at hexit
  obtain ⟨threads, threadList, hthreads⟩ :=
    foldl_exitThread task (range (s.tasks task).threadList.capacity) s
  rw [hthreads, exitChildren] at hexit
  generalize hs₁ : ({ s with
      threads := threads
      tasks := update s.tasks task { s.tasks task with threadList := threadList } } :
    SchedState) = s₁ at hexit
  have hself : s₁.tasks task = { s.tasks task with threadList := threadList } := by
    rw [← hs₁]
    exact update_self _ _ _
  have hother : ∀ t, t ≠ task → s₁.tasks t = s.tasks t := fun t ht => by
    rw [← hs₁]
    exact update_of_ne ht _ _
  have hnone : (s₁.tasks task).children = [] := by
    rw [hself]
    exact hchildren
  rw [hnone] at hexit
  cases hexit
  have htrigger : (s₁.tasks task).exitTrigger = (s.tasks task).exitTrigger := by rw [hself]
  have htriggers : s₁.triggers = s.triggers := by rw [← hs₁]
  have hevents : s₁.events = s.events := by rw [← hs₁]
  obtain ⟨hothers, hview, hkept, hlast, htriggers', howners⟩ :=
    @exitTask_effect w s₁ task status e hne (by rw [htrigger, htriggers, hevent])
      (by rw [hevents, howner])
  refine ⟨fun t hparent ht => ?_, ?_, ?_, ?_, htriggers'.trans htriggers, fun e' => ?_⟩
  · rw [hothers t hparent ht, hother t ht]
  · rw [hview, hself]
    rfl
  · rw [hkept, hother w.task (Ne.symm hne)]
  · rw [hlast, htrigger]
  · rw [howners, hevents]

end Exit

end Frames

/-! ## The invariant -/

structure Aimed (s : WaitpidState) (t : ℕ) : Prop where
  task : t ∈ s.used
  trigger : (s.sched.tasks t).exitTrigger ∈ s.used
  agent : (s.sched.triggers (s.sched.tasks t).exitTrigger).agentTask = t
  type : (s.sched.triggers (s.sched.tasks t).exitTrigger).eventType = .procExit

structure Armed (w : Waiter) (s : WaitpidState) (t : ℕ) : Prop extends Aimed s t where
  pid : (s.sched.tasks t).pid ∈ s.pids
  childless : (s.sched.tasks t).children = []
  event : ∃ e ∈ s.used, (s.sched.triggers (s.sched.tasks t).exitTrigger).event = some e ∧
    (s.sched.events e).task = w.task
  fresh : ∀ x ∈ s.exited, x.pid ≠ (s.sched.tasks t).pid

structure Gone (w : Waiter) (s : WaitpidState) (x : ChildExit) : Prop extends Aimed s x.task where
  other : x.task ≠ w.task
  dead : x.task ∉ s.alive
  pid : (s.sched.tasks x.task).pid = x.pid
  status : (s.sched.tasks x.task).processStatus = x.status
  known : x.pid ∈ s.pids

structure ProcsInv (w : Waiter) (s : WaitpidState) : Prop where
  event : (s.sched.tasks w.task).event = w.event
  owner : (s.sched.events w.event).task = w.task
  parent : w.task ∈ s.used
  event_used : w.event ∈ s.used
  alive : ∀ t ∈ s.alive, t ∈ s.used ∧ t ≠ w.task
  armed : ∀ t ∈ s.alive, (s.sched.tasks t).hasExecved = false → Armed w s t
  distinct : ∀ t ∈ s.alive, ∀ t' ∈ s.alive, (s.sched.tasks t).hasExecved = false →
    (s.sched.tasks t').hasExecved = false → (s.sched.tasks t).pid = (s.sched.tasks t').pid → t = t'
  gone : ∀ x ∈ s.exited, Gone w s x
  honest : Honest s

def Awake (w : Waiter) (s : WaitpidState) : Prop :=
  match s.point with
  | .outside => True
  | .returned => LastUnreported w s
  | .waiting point => LastUnreported w s ∨
      (point = .spin ∧ (s.sched.tasks w.task).status = .yield ∧
        (s.sched.tasks w.task).eventWaiting = true)

structure WaitpidInv (w : Waiter) (s : WaitpidState) : Prop extends ProcsInv w s where
  awake : Awake w s
  inside : s.point.Waits → s.missed = []

section Invariant

variable {w : Waiter} {s : WaitpidState} {sched : SchedState} {t : ℕ} {x : ChildExit}

theorem Aimed.frame (h : Aimed s t) (hne : t ≠ w.task) (hsame : SameProcs w s.used s.sched sched) :
    Aimed { s with sched := sched } t := by
  have htrigger : (sched.tasks t).exitTrigger = (s.sched.tasks t).exitTrigger :=
    congrArg ChildView.exitTrigger (hsame.view t h.task hne)
  refine ⟨h.task, ?_, ?_, ?_⟩
  · exact htrigger ▸ h.trigger
  · exact (congrArg (fun r => (sched.triggers r).agentTask) htrigger).trans
      ((hsame.agent _ h.trigger).trans h.agent)
  · exact (congrArg (fun r => (sched.triggers r).eventType) htrigger).trans
      ((hsame.type _ h.trigger).trans h.type)

theorem Armed.frame (h : Armed w s t) (hne : t ≠ w.task)
    (howner : (s.sched.events w.event).task = w.task) (hused : w.event ∈ s.used)
    (hsame : SameProcs w s.used s.sched sched) :
    Armed w { s with sched := sched } t := by
  have hview := hsame.view t h.task hne
  have hpid : (sched.tasks t).pid = (s.sched.tasks t).pid := congrArg ChildView.pid hview
  have htrigger : (sched.tasks t).exitTrigger = (s.sched.tasks t).exitTrigger :=
    congrArg ChildView.exitTrigger hview
  refine ⟨h.toAimed.frame hne hsame, ?_, ?_, ?_, fun x hx => ?_⟩
  · exact hpid ▸ h.pid
  · exact (congrArg ChildView.children hview).trans h.childless
  · obtain ⟨e, he, hevent, hparent⟩ := h.event
    rw [htrigger]
    rcases hsame.aim _ h.trigger with haim | haim
    · exact ⟨e, he, haim.trans hevent, (hsame.owner e he).trans hparent⟩
    · exact ⟨w.event, hused, haim, (hsame.owner _ hused).trans howner⟩
  · exact hpid ▸ h.fresh x hx

theorem Gone.frame (h : Gone w s x) (hsame : SameProcs w s.used s.sched sched) :
    Gone w { s with sched := sched } x := by
  have hview := hsame.view x.task h.task h.other
  exact ⟨h.toAimed.frame h.other hsame, h.other, h.dead,
    (congrArg ChildView.pid hview).trans h.pid,
    (congrArg ChildView.status hview).trans h.status, h.known⟩

theorem ProcsInv.frame (h : ProcsInv w s) (hsame : SameProcs w s.used s.sched sched) :
    ProcsInv w { s with sched := sched } := by
  have hview : ∀ t ∈ s.alive, (sched.tasks t).view = (s.sched.tasks t).view := fun t ht =>
    hsame.view t (h.alive t ht).1 (h.alive t ht).2
  have hexecved : ∀ t ∈ s.alive, (sched.tasks t).hasExecved = (s.sched.tasks t).hasExecved :=
    fun t ht => congrArg ChildView.hasExecved (hview t ht)
  have hpid : ∀ t ∈ s.alive, (sched.tasks t).pid = (s.sched.tasks t).pid :=
    fun t ht => congrArg ChildView.pid (hview t ht)
  refine ⟨hsame.event.trans h.event, (hsame.owner _ h.event_used).trans h.owner, h.parent,
    h.event_used, h.alive, fun t ht hnot => ?_, fun t ht t' ht' hnot hnot' heq => ?_,
    fun x hx => (h.gone x hx).frame hsame, h.honest⟩
  · exact (h.armed t ht ((hexecved t ht).symm.trans hnot)).frame (h.alive t ht).2 h.owner
      h.event_used hsame
  · exact h.distinct t ht t' ht' ((hexecved t ht).symm.trans hnot)
      ((hexecved t' ht').symm.trans hnot') ((hpid t ht).symm.trans (heq.trans (hpid t' ht')))

theorem ProcsInv.record (h : ProcsInv w s) (point : WaitpidPoint)
    (reports : List (BitVec 64 × BitVec 32)) (missed : List (BitVec 64))
    (hhonest : Honest { s with point := point, reports := reports, missed := missed }) :
    ProcsInv w { s with point := point, reports := reports, missed := missed } := by
  have haimed : ∀ t, Aimed s t →
      Aimed { s with point := point, reports := reports, missed := missed } t :=
    fun t haimed => ⟨haimed.task, haimed.trigger, haimed.agent, haimed.type⟩
  refine ⟨h.event, h.owner, h.parent, h.event_used, h.alive, fun t ht hnot => ?_, h.distinct,
    fun x hx => ?_, hhonest⟩
  · have harmed := h.armed t ht hnot
    exact ⟨haimed t harmed.toAimed, harmed.pid, harmed.childless, harmed.event, harmed.fresh⟩
  · have hgone := h.gone x hx
    exact ⟨haimed x.task hgone.toAimed, hgone.other, hgone.dead, hgone.pid, hgone.status,
      hgone.known⟩

theorem LastUnreported.frame (h : LastUnreported w s) (hinv : ProcsInv w s)
    (hsame : SameProcs w s.used s.sched sched) : LastUnreported w { s with sched := sched } := by
  obtain ⟨x, hx, hunreported, hlast⟩ := h
  have hgone := hinv.gone x hx
  have htrigger := congrArg ChildView.exitTrigger (hsame.view x.task hgone.task hgone.other)
  refine ⟨x, hx, hunreported, ?_⟩
  exact hsame.lastTrigger.trans (hlast.trans (congrArg some htrigger.symm))

theorem LastUnreported.report (h : LastUnreported w s) (hinv : ProcsInv w s) :
    ∃ x ∈ s.exited, ¬ s.Reported x.pid ∧ waitpidResult w.task s.sched = some (x.pid, x.status) ∧
      ∀ trigger, (s.sched.tasks w.task).lastTrigger = some trigger →
        (s.sched.triggers trigger).eventType = .procExit := by
  obtain ⟨x, hx, hunreported, hlast⟩ := h
  have hgone := hinv.gone x hx
  refine ⟨x, hx, hunreported, ?_, fun trigger htrigger => ?_⟩
  · rw [waitpidResult, hlast, map_some, hgone.agent]
    exact congrArg some (Prod.ext hgone.pid hgone.status)
  · rw [hlast] at htrigger
    rw [← some.inj htrigger]
    exact hgone.type

theorem Awake.frame (h : Awake w s) (hinv : ProcsInv w s)
    (hsame : SameProcs w s.used s.sched sched)
    (hsleep : (s.sched.tasks w.task).status = .yield →
      (sched.tasks w.task).status = .yield ∧
        (sched.tasks w.task).eventWaiting = (s.sched.tasks w.task).eventWaiting) :
    Awake w { s with sched := sched } := by
  unfold Awake at h ⊢
  cases hpoint : s.point with
  | outside => trivial
  | returned =>
    rw [hpoint] at h
    exact LastUnreported.frame h hinv hsame
  | waiting point =>
    rw [hpoint] at h
    rcases h with h | ⟨hspin, hyield, hwaiting⟩
    · exact .inl (h.frame hinv hsame)
    · obtain ⟨hyield', hwaiting'⟩ := hsleep hyield
      exact .inr ⟨hspin, hyield', hwaiting'.trans hwaiting⟩

theorem WaitpidInv.frame (h : WaitpidInv w s) (hsame : SameProcs w s.used s.sched sched)
    (hsleep : (s.sched.tasks w.task).status = .yield →
      (sched.tasks w.task).status = .yield ∧
        (sched.tasks w.task).eventWaiting = (s.sched.tasks w.task).eventWaiting) :
    WaitpidInv w { s with sched := sched } :=
  ⟨h.toProcsInv.frame hsame, h.awake.frame h.toProcsInv hsame hsleep, h.inside⟩

theorem ProcsInv.addTask {alive records : List ℕ} (h : ProcsInv w s) (pids : List (BitVec 64))
    (halive : ∀ t ∈ alive, t ∈ s.alive) (hmem : t ∈ records) (hnew : t ∉ s.used)
    (harmed : (s.sched.tasks t).hasExecved = false → (s.sched.tasks t).pid ∉ s.pids ∧
      Armed w { s with
        alive := t :: alive, used := records ++ s.used, pids := pids ++ s.pids } t) :
    ProcsInv w { s with
      alive := t :: alive, used := records ++ s.used, pids := pids ++ s.pids } := by
  have hused : ∀ r ∈ s.used, r ∈ records ++ s.used := fun r hr => mem_append_right _ hr
  have hpids : ∀ p ∈ s.pids, p ∈ pids ++ s.pids := fun p hp => mem_append_right _ hp
  have hold : ∀ t' ∈ alive, (s.sched.tasks t').hasExecved = false → Armed w s t' :=
    fun t' ht' => h.armed t' (halive t' ht')
  -- The pid of a child that was there before is in use, and the new one is not.
  have hpid : ∀ t' ∈ alive, (s.sched.tasks t).hasExecved = false →
      (s.sched.tasks t').hasExecved = false → (s.sched.tasks t).pid ≠ (s.sched.tasks t').pid := by
    intro t' ht' hnot hnot' heq
    exact (harmed hnot).1 (heq ▸ (hold t' ht' hnot').pid)
  refine ⟨h.event, h.owner, hused _ h.parent, hused _ h.event_used, fun t' ht' => ?_,
    fun t' ht' hnot => ?_, fun t₁ ht₁ t₂ ht₂ hnot₁ hnot₂ heq => ?_, fun x hx => ?_, h.honest⟩
  · rcases mem_cons.mp ht' with rfl | ht'
    · exact ⟨mem_append_left _ hmem, fun heq => hnew (heq ▸ h.parent)⟩
    · exact ⟨hused _ (h.alive t' (halive t' ht')).1, (h.alive t' (halive t' ht')).2⟩
  · rcases mem_cons.mp ht' with rfl | ht'
    · exact (harmed hnot).2
    · obtain ⟨haimed, hpid', hchildless, ⟨e, he, hevent⟩, hfresh⟩ := hold t' ht' hnot
      exact ⟨⟨hused _ haimed.task, hused _ haimed.trigger, haimed.agent, haimed.type⟩,
        hpids _ hpid', hchildless, ⟨e, hused e he, hevent⟩, hfresh⟩
  · rcases mem_cons.mp ht₁ with rfl | hin₁ <;> rcases mem_cons.mp ht₂ with rfl | hin₂
    · rfl
    · exact absurd heq (hpid t₂ hin₂ hnot₁ hnot₂)
    · exact absurd heq.symm (hpid t₁ hin₁ hnot₂ hnot₁)
    · exact h.distinct t₁ (halive t₁ hin₁) t₂ (halive t₂ hin₂) hnot₁ hnot₂ heq
  · obtain ⟨haimed, hother, hdead, hxpid, hstatus, hknown⟩ := h.gone x hx
    refine ⟨⟨hused _ haimed.task, hused _ haimed.trigger, haimed.agent, haimed.type⟩, hother, ?_,
      hxpid, hstatus, hpids _ hknown⟩
    intro hin
    rcases mem_cons.mp hin with heq | hin
    · exact hnew (heq ▸ haimed.task)
    · exact hdead (halive _ hin)

theorem WaitpidInv.fork {c : ForkCall} {fdList : HashTable (BitVec 32) ℕ} (h : WaitpidInv w s)
    (hpoint : s.point = .outside) (hcurrent : c.current = w.task) (hfresh : s.Fresh c.records)
    (hpid : c.pid ∉ s.pids) :
    WaitpidInv w { s with
      sched := forkSched c fdList s.sched
      alive := c.task :: s.alive
      used := c.records ++ s.used
      pids := c.pid :: s.pids } := by
  have htask : c.task ∈ c.records := by simp [ForkCall.records]
  have hne : c.task ≠ c.current := fun heq => hfresh _ htask (heq ▸ hcurrent ▸ h.parent)
  have hsame : SameProcs w s.used s.sched (forkSched c fdList s.sched) :=
    sameProcs_fork hcurrent hfresh
  have hself : (forkSched c fdList s.sched).tasks c.task =
      forkTask c (s.sched.tasks c.current) fdList :=
    (update_of_ne hne _ _).trans (update_self _ _ _)
  have htrigger : (forkSched c fdList s.sched).triggers c.exitTrigger =
      ⟨c.task, some c.exitEvent, .procExit⟩ := update_self _ _ _
  have hevent : (forkSched c fdList s.sched).events c.exitEvent =
      ⟨c.current, c.currentThread, 0#32⟩ := update_self _ _ _
  generalize forkSched c fdList s.sched = forked at *
  have hexitTrigger : (forked.tasks c.task).exitTrigger = c.exitTrigger := by
    rw [hself]
    rfl
  have hchild : (forked.tasks c.task).pid = c.pid := by
    rw [hself]
    rfl
  refine ⟨(h.toProcsInv.frame hsame).addTask [c.pid] (fun _ => id) htask
    (hfresh _ htask) fun _ => ⟨?_, ⟨⟨?_, ?_, ?_, ?_⟩, ?_, ?_, ?_, ?_⟩⟩, ?_, ?_⟩
  · exact hchild ▸ hpid
  · exact mem_append_left _ htask
  · rw [hexitTrigger]
    exact mem_append_left _ (by simp [ForkCall.records])
  · rw [hexitTrigger, htrigger]
  · rw [hexitTrigger, htrigger]
  · rw [hchild]
    exact mem_cons_self
  · rw [hself]
    rfl
  · refine ⟨c.exitEvent, mem_append_left _ (by simp [ForkCall.records]), ?_, ?_⟩
    · rw [hexitTrigger, htrigger]
    · rw [hevent]
      exact hcurrent
  · intro x hx heq
    exact hpid ((heq.trans hchild) ▸ (h.gone x hx).known)
  · rw [hpoint]
    trivial
  · intro hwaits
    rw [hpoint] at hwaits
    exact hwaits.elim

theorem WaitpidInv.execve {c : ExecCall} {n : ℕ} (h : WaitpidInv w s)
    (hfresh : s.Fresh c.records) (hexec : syscallExecve c n s.sched = some sched) :
    WaitpidInv w { s with
      sched := sched
      alive := c.task :: s.alive.filter (· ≠ c.caller)
      used := c.records ++ s.used } := by
  have htask : c.task ∈ c.records := by simp [ExecCall.records]
  obtain ⟨hsame, hexecved, hstatus, hwaiting⟩ := sameProcs_execve hfresh h.parent hexec
  have hframe := h.frame hsame fun hyield => ⟨hstatus.trans hyield, hwaiting⟩
  refine ⟨hframe.toProcsInv.addTask [] (fun t ht => mem_of_mem_filter ht) htask
    (hfresh _ htask) fun hnot => ?_, hframe.awake, h.inside⟩
  exact absurd (hexecved.symm.trans hnot) (by decide)

theorem WaitpidInv.exit {status : BitVec 32} (h : WaitpidInv w s)
    (hcurrent : s.sched.currentTask = some t) (ht : t ∈ s.alive)
    (hnot : (s.sched.tasks t).hasExecved = false)
    (hexit : syscallExit status s.sched = some sched) :
    WaitpidInv w { s with
      sched := sched
      alive := s.alive.filter (· ≠ t)
      exited := ⟨t, (s.sched.tasks t).pid, status ||| 0x200#32⟩ :: s.exited } := by
  have hne := (h.alive t ht).2
  have harmed := h.armed t ht hnot
  obtain ⟨e, he, hevent, howner⟩ := harmed.event
  obtain ⟨hothers, hview, hkept, hlast, htriggers, howners⟩ :=
    exit_effect hcurrent hne harmed.childless hevent howner hexit
  have hpid := congrArg ChildView.pid hview
  have htrigger : ∀ t', t' ≠ w.task →
      (sched.tasks t').exitTrigger = (s.sched.tasks t').exitTrigger := by
    intro t' hparent
    by_cases heq : t' = t
    · rw [heq]
      exact congrArg ChildView.exitTrigger hview
    · rw [hothers t' hparent heq]
  have haimed : ∀ t', t' ≠ w.task → Aimed s t' → Aimed { s with
      sched := sched
      alive := s.alive.filter (· ≠ t)
      exited := ⟨t, (s.sched.tasks t).pid, status ||| 0x200#32⟩ :: s.exited } t' := by
    intro t' hparent haimed
    refine ⟨haimed.task, ?_, ?_, ?_⟩
    · exact htrigger t' hparent ▸ haimed.trigger
    · rw [htrigger t' hparent, htriggers, haimed.agent]
    · rw [htrigger t' hparent, htriggers, haimed.type]
  have hstays : ∀ t' ∈ s.alive.filter (· ≠ t), t' ∈ s.alive ∧ t' ≠ t := fun t' ht' =>
    ⟨(mem_filter.mp ht').1, of_decide_eq_true (mem_filter.mp ht').2⟩
  have hsame : ∀ t' ∈ s.alive.filter (· ≠ t), sched.tasks t' = s.sched.tasks t' := fun t' ht' =>
    hothers t' (h.alive t' (hstays t' ht').1).2 (hstays t' ht').2
  have hnew : ¬ s.Reported (s.sched.tasks t).pid := by
    intro hreported
    obtain ⟨r, hr, heq⟩ := mem_map.mp hreported
    obtain ⟨x, hx, rfl⟩ := h.honest.2 r hr
    exact harmed.fresh x hx heq
  refine ⟨⟨hkept.trans h.event, (howners _).trans h.owner, h.parent, h.event_used, fun t' ht' => ?_,
    fun t' ht' hnot' => ?_, fun t₁ ht₁ t₂ ht₂ hnot₁ hnot₂ heq => ?_, fun x hx => ?_,
    h.honest.1, fun r hr => ?_⟩, ?_, h.inside⟩
  · exact h.alive t' (hstays t' ht').1
  · -- Another child is as it was, and has another pid.
    obtain ⟨hin, hnt⟩ := hstays t' ht'
    have htask := hsame t' ht'
    rw [htask] at hnot'
    obtain ⟨haimed', hpid', hchildless, ⟨e', he', hevent', howner'⟩, hfresh⟩ := h.armed t' hin hnot'
    refine ⟨haimed t' (h.alive t' hin).2 haimed', ?_, ?_, ⟨e', he', ?_, ?_⟩, fun x hx => ?_⟩
    · rw [htask]
      exact hpid'
    · rw [htask]
      exact hchildless
    · rw [htask, htriggers]
      exact hevent'
    · rw [howners, howner']
    · rw [htask]
      rcases mem_cons.mp hx with rfl | hx
      · exact fun heq => hnt (h.distinct t ht t' hin hnot hnot' heq).symm
      · exact hfresh x hx
  · rw [hsame t₁ ht₁] at hnot₁ heq
    rw [hsame t₂ ht₂] at hnot₂ heq
    exact h.distinct t₁ (hstays t₁ ht₁).1 t₂ (hstays t₂ ht₂).1 hnot₁ hnot₂ heq
  · rcases mem_cons.mp hx with rfl | hx
    · exact ⟨haimed t hne harmed.toAimed, hne, fun hin => (hstays t hin).2 rfl, hpid,
        congrArg ChildView.status hview, harmed.pid⟩
    · obtain ⟨haimed', hother, hdead, hxpid, hstatus, hknown⟩ := h.gone x hx
      have htask := hothers x.task hother fun heq => hdead (heq ▸ ht)
      refine ⟨haimed x.task hother haimed', hother, fun hin => hdead (hstays _ hin).1, ?_, ?_,
        hknown⟩
      · rw [htask, hxpid]
      · rw [htask, hstatus]
  · obtain ⟨x, hx, heq⟩ := h.honest.2 r hr
    exact ⟨x, mem_cons_of_mem _ hx, heq⟩
  · have hunreported : LastUnreported w { s with
        sched := sched
        alive := s.alive.filter (· ≠ t)
        exited := ⟨t, (s.sched.tasks t).pid, status ||| 0x200#32⟩ :: s.exited } := by
      refine ⟨_, mem_cons_self, hnew, ?_⟩
      rw [htrigger t hne]
      exact hlast
    cases s.point with
    | outside => trivial
    | returned => exact hunreported
    | waiting point => exact .inl hunreported

theorem ProcsInv.goOn {r : WaitPoint × SchedState} (h : ProcsInv w s)
    (hsame : SameProcs w s.used s.sched r.2) : ProcsInv w (s.goOn r) :=
  (h.frame hsame).record _ _ _ h.honest

theorem WaitpidInv.goOn {r : WaitPoint × SchedState} (h : ProcsInv w s)
    (hsame : SameProcs w s.used s.sched r.2) (hmissed : r.1 ≠ .outside → s.missed = [])
    (hawake : LastUnreported w s ∨ r.1 = .spin ∧ (r.2.tasks w.task).status = .yield ∧
      (r.2.tasks w.task).eventWaiting = true) : WaitpidInv w (s.goOn r) := by
  refine ⟨h.goOn hsame, ?_, ?_⟩
  · unfold Awake WaitpidState.goOn
    split_ifs with hout
    · rcases hawake with hlast | ⟨hspin, -⟩
      · exact hlast.frame h hsame
      · exact absurd (hout.symm.trans hspin) (by decide)
    · exact hawake.imp_left fun hlast => hlast.frame h hsame
  · unfold WaitpidState.goOn
    split_ifs with hout
    · exact False.elim
    · exact fun _ => hmissed hout

theorem WaitpidInv.waitpid {pid : BitVec 32} {r : WaitPoint × SchedState} (h : WaitpidInv w s)
    (hruns : w.Runs s.sched) (hpunctual : Punctual w s (.waitpid pid))
    (hcall : syscallWaitpid pid s.sched = some r) :
    WaitpidInv w ({ s with missed := s.unreported pid }.goOn r) := by
  rw [syscallWaitpid, hruns.1, bind_some] at hcall
  obtain ⟨tasks, -, hcall⟩ := bind_eq_some_iff.mp hcall
  dsimp only at hcall
  rw [h.event] at hcall
  have hsame : SameProcs w s.used s.sched r.2 :=
    (sameProcs_aim tasks s.sched).trans (sameProcs_eventWait hcall)
  obtain ⟨triggers, haimed⟩ := foldl_aimTrigger w.event tasks s.sched
  rw [haimed] at hcall
  have hprocs : ProcsInv w { s with missed := s.unreported pid } :=
    h.toProcsInv.record s.point s.reports _ h.honest
  unfold eventWait at hcall
  unfold Punctual at hpunctual
  dsimp only at hcall hpunctual
  by_cases hpending : (s.sched.events w.event).pending = 0#32
  · -- The call waits, and no exit that it asks for was there.
    rw [if_neg (not_not.mpr hpending)] at hcall
    rw [if_pos hpending] at hpunctual
    have hcurrent : ({ s.sched with triggers := triggers } : SchedState).currentTask =
        some w.task := hruns.1
    have hthread : ({ s.sched with triggers := triggers } : SchedState).currentThread =
        some w.thread := hruns.2
    rw [hcurrent, hthread] at hcall
    refine WaitpidInv.goOn hprocs hsame (fun _ => hpunctual) (.inr ?_)
    rw [← some.inj hcall]
    simp [schedDequeue, SchedState.setEventWaiting]
  · rw [if_pos hpending] at hcall
    rw [if_neg hpending] at hpunctual
    refine WaitpidInv.goOn hprocs hsame (fun hout => ?_) (.inl hpunctual)
    exact absurd (congrArg Prod.fst (some.inj hcall)).symm hout

theorem WaitpidInv.waits {point : WaitPoint} {r : WaitPoint × SchedState} (h : WaitpidInv w s)
    (hpoint : s.point = .waiting point)
    (hnext : eventWaitNext w.task .procExit s.sched point = some r) :
    WaitpidInv w (s.goOn r) := by
  have hawake := h.awake
  have hmissed := h.inside
  unfold Awake at hawake
  rw [hpoint] at hawake hmissed
  refine WaitpidInv.goOn h.toProcsInv (sameProcs_eventWaitNext hnext) (fun _ => hmissed trivial) ?_
  rcases hawake with hlast | ⟨rfl, hyield, hwaiting⟩
  · exact .inl hlast
  · -- The loop on `event_waiting` goes on.
    rw [eventWaitNext, hwaiting] at hnext
    cases hnext
    exact .inr ⟨rfl, hyield, hwaiting⟩

theorem WaitpidInv.report {report : BitVec 64 × BitVec 32} (h : WaitpidInv w s)
    (hpoint : s.point = .returned) (hresult : waitpidResult w.task s.sched = some report) :
    WaitpidInv w { s with point := .outside, reports := report :: s.reports, missed := [] } := by
  have hlast : LastUnreported w s := by
    have hawake := h.awake
    unfold Awake at hawake
    rw [hpoint] at hawake
    exact hawake
  obtain ⟨x, hx, hunreported, hreport, -⟩ := hlast.report h.toProcsInv
  obtain rfl := some.inj (hresult.symm.trans hreport)
  refine ⟨h.toProcsInv.record _ _ _ ⟨?_, fun r hr => ?_⟩, trivial, False.elim⟩
  · exact nodup_cons.mpr ⟨hunreported, h.honest.1⟩
  · rcases mem_cons.mp hr with rfl | hr
    · exact ⟨x, hx, rfl⟩
    · exact h.honest.2 r hr

end Invariant

/-! ## Punctual runs -/

/-- A parent that has not forked yet. -/
structure Childless (w : Waiter) (s : WaitpidState) : Prop where
  event : (s.sched.tasks w.task).event = w.event
  owner : (s.sched.events w.event).task = w.task
  parent : w.task ∈ s.used
  event_used : w.event ∈ s.used
  outside : s.point = .outside
  alive : s.alive = []
  exited : s.exited = []
  reports : s.reports = []

section Runs

variable {w : Waiter} {s₀ s s' : WaitpidState} {tr : List (Event WaitpidState WaitpidOp)}

theorem Childless.inv (h : Childless w s) : WaitpidInv w s := by
  have hnone : ∀ t, t ∉ s.alive := fun t ht => by simp [h.alive] at ht
  refine ⟨⟨h.event, h.owner, h.parent, h.event_used, fun t ht => absurd ht (hnone t),
    fun t ht => absurd ht (hnone t), fun t ht => absurd ht (hnone t), fun x hx => ?_, ?_⟩, ?_, ?_⟩
  · simp [h.exited] at hx
  · simp [Honest, h.reports]
  · unfold Awake
    rw [h.outside]
    trivial
  · rw [h.outside]
    exact False.elim

theorem WaitpidInv.step {op : WaitpidOp} (h : WaitpidInv w s) (hstep : waitpidStep w s op s')
    (hpunctual : Punctual w s op) : WaitpidInv w s' := by
  unfold waitpidStep waitpidNext at hstep
  cases op with
  | fork c fdList =>
    rw [ite_none_right_eq_some] at hstep
    obtain ⟨⟨-, hpoint, hcurrent, -, hfresh, hpid⟩, hs'⟩ := hstep
    cases hs'
    exact h.fork hpoint hcurrent hfresh hpid
  | waitpid pid =>
    rw [ite_none_right_eq_some] at hstep
    obtain ⟨⟨hruns, -⟩, hs'⟩ := hstep
    obtain ⟨r, hcall, rfl⟩ := map_eq_some_iff.mp hs'
    exact h.waitpid hruns hpunctual hcall
  | run =>
    rw [ite_none_right_eq_some] at hstep
    obtain ⟨-, hs'⟩ := hstep
    cases hpoint : s.point with
    | outside =>
      rw [hpoint] at hs'
      simp at hs'
    | waiting point =>
      rw [hpoint] at hs'
      obtain ⟨r, hnext, rfl⟩ := map_eq_some_iff.mp hs'
      exact h.waits hpoint hnext
    | returned =>
      rw [hpoint] at hs'
      obtain ⟨report, hresult, rfl⟩ := map_eq_some_iff.mp hs'
      exact h.report hpoint hresult
  | execve c n =>
    rw [ite_none_right_eq_some] at hstep
    obtain ⟨⟨-, -, hfresh⟩, hs'⟩ := hstep
    obtain ⟨sched, hexec, rfl⟩ := map_eq_some_iff.mp hs'
    exact h.execve hfresh hexec
  | exit status =>
    obtain ⟨task, hcurrent, hstep⟩ := bind_eq_some_iff.mp hstep
    rw [ite_none_right_eq_some] at hstep
    obtain ⟨halive, hs'⟩ := hstep
    obtain ⟨sched, hexit, rfl⟩ := map_eq_some_iff.mp hs'
    exact h.exit hcurrent halive (hpunctual task hcurrent) hexit
  | tick regs =>
    obtain ⟨⟨r, sched⟩, hr, rfl⟩ := map_eq_some_iff.mp hstep
    exact h.frame (sameProcs_reschedule hr) (reschedule_yielded hr)

/-- **The protocol of punctual calls**: when the steps of a run are all punctual, every report is
that of a child that has exited and was not reported before, and the parent is never left waiting
in a call that asked for a child which had exited unreported. -/
theorem honest_of_punctual (hstart : Childless w s₀) (run : Run (waitpidStep w) s₀ tr s)
    (hpunctual : ∀ e ∈ tr, Punctual w e.pre e.act) : Honest s ∧ ¬ Stranded w s := by
  have hinv : WaitpidInv w s := run.guarded (I := fun _ s => WaitpidInv w s)
    (Q := fun e => Punctual w e.pre e.act) hstart.inv
    (fun _ _ _ _ h hstep hpunctual => h.step hstep hpunctual) hpunctual
  exact ⟨hinv.honest, fun hstranded => hstranded.2.2 (hinv.inside hstranded.1)⟩

end Runs

def loneParent : WaitpidState where
  sched :=
    { bootSched with
      tasks := fun p => { bootSched.tasks p with event := p }
      events := fun e => ⟨e, e, 0#32⟩ }
  point := .outside
  alive := []
  used := [2]
  pids := [1#64]
  exited := []
  reports := []
  missed := []

theorem childless_loneParent : Childless ⟨2, 2, 2⟩ loneParent :=
  ⟨rfl, rfl, by decide, by decide, rfl, rfl, rfl, rfl⟩

def childFork : WaitpidOp :=
  .fork { bootFork with thread := 5, event := 6, exitTrigger := 7, exitEvent := 8 } HashTable.empty

def waitThenExit : List WaitpidOp :=
  [childFork, .waitpid (-1#32), .tick default, .exit 7#32, .tick default, .tick default,
    .tick default, .run, .run, .run, .run]

theorem honest_of_punctual_wait_then_exit : ∃ tr s,
    Run (waitpidStep ⟨2, 2, 2⟩) loneParent tr s ∧ tr.map Event.act = waitThenExit ∧
      s.reports = [(2#64, 0x207#32)] ∧ Honest s ∧ ¬ Stranded ⟨2, 2, 2⟩ s := by
  obtain ⟨tr, s, run, hacts, hreports, hpunctual⟩ := Run.computed
    (f := waitpidNext ⟨2, 2, 2⟩) (P := fun tr s => s.reports = [(2#64, 0x207#32)] ∧
      ∀ e ∈ tr, Punctual ⟨2, 2, 2⟩ e.pre e.act) loneParent waitThenExit (by decide +kernel)
  exact ⟨tr, s, run, hacts, hreports, honest_of_punctual childless_loneParent run hpunctual⟩

def exitThenWait : List WaitpidOp :=
  [childFork, .tick default, .exit 7#32, .tick default, .tick default, .tick default,
    .waitpid (-1#32)]

/-- **A missed exit**: the exit before the call was counted in the event of the fork, and the parent
waits for another one. -/
theorem exit_before_waitpid_strands : Childless ⟨2, 2, 2⟩ loneParent ∧ ∃ tr s,
    Run (waitpidStep ⟨2, 2, 2⟩) loneParent tr s ∧ tr.map Event.act = exitThenWait ∧
      s.exited = [⟨3, 2#64, 0x207#32⟩] ∧ s.reports = [] ∧ Stranded ⟨2, 2, 2⟩ s :=
  ⟨childless_loneParent, Run.computed _ exitThenWait (by decide +kernel)⟩

end Pastoral
