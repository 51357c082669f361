import Pastoral.Sched.Reschedule

/-!
# Waiting for events

`event_wait` and `event_fire` of `sched.c`, with the timer interrupt between any two instructions at
which interrupts are enabled.

## Main results

* `balanced_iff`: when `pending` is the fires less the waits
* `not_lost_of_orderly`: no wake-up is lost if the fires are orderly
-/

open Function Option Transition

namespace Pastoral

/-! ## The functions -/

inductive WaitPoint
  | outside
  | spin
  | clear
  | check
  | dequeue
  | mark
  deriving DecidableEq, Repr

def SchedState.setEventWaiting (s : SchedState) (task : ℕ) (eventWaiting : Bool) : SchedState :=
  { s with
    tasks := update s.tasks task { s.tasks task with eventWaiting := eventWaiting } }

def eventWait (event : ℕ) (s : SchedState) : Option (WaitPoint × SchedState) :=
  let e := s.events event
  if e.pending ≠ 0#32 then
    some (.outside,
      { s with events := update s.events event { e with pending := e.pending - 1#32 } })
  else
    match s.currentTask, s.currentThread with
    | some task, some thread =>
      some (.spin, (schedDequeue task thread s).setEventWaiting task true)
    | _, _ => none

def eventWaitNext (task : ℕ) (eventType : EventType) (s : SchedState) :
    WaitPoint → Option (WaitPoint × SchedState)
  | .outside => none
  | .spin => some (if (s.tasks task).eventWaiting then .spin else .clear, s)
  | .clear => some (.check, s.setEventWaiting task false)
  | .check => (s.tasks task).lastTrigger.map fun trigger =>
      (if (s.triggers trigger).eventType = eventType then .outside else .dequeue, s)
  | .dequeue =>
    match s.currentTask, s.currentThread with
    | some task, some thread => some (.mark, schedDequeue task thread s)
    | _, _ => none
  | .mark => some (.spin, s.setEventWaiting task true)

def eventFire (trigger : ℕ) (s : SchedState) : SchedState :=
  match (s.triggers trigger).event with
  | none => s
  | some event =>
    let e := s.events event
    schedRequeue e.task e.thread
      { s with
        events := update s.events event { e with pending := e.pending + 1#32 }
        tasks := update s.tasks e.task
          { s.tasks e.task with lastTrigger := some trigger } }

/-! ## A task that waits for one event -/

structure Waiter where
  task : ℕ
  thread : ℕ
  event : ℕ

structure WaitState where
  sched : SchedState
  point : WaitPoint
  awaited : EventType
  fires : ℕ
  returned : ℕ
  fired : List EventType

inductive EventOp
  | call (eventType : EventType)
  | run
  | fire (trigger : ℕ)
  | tick (regs : Registers)
  | otherDequeue (task thread : ℕ)
  | otherRequeue (task thread : ℕ)

def WaitState.moveTo (s : WaitState) (point : WaitPoint) (sched : SchedState) : WaitState :=
  if point = .outside then
    { s with sched := sched, point := point, returned := s.returned + 1, fired := [] }
  else { s with sched := sched, point := point }

def Waiter.Runs (w : Waiter) (s : SchedState) : Prop :=
  s.currentTask = some w.task ∧ s.currentThread = some w.thread
  deriving Decidable

def eventNext (w : Waiter) (s : WaitState) : EventOp → Option WaitState
  | .call eventType =>
    if s.point = .outside ∧ w.Runs s.sched then
      (eventWait w.event s.sched).map fun r =>
        { s with awaited := eventType }.moveTo r.1 r.2
    else none
  | .run =>
    if w.Runs s.sched then
      (eventWaitNext w.task s.awaited s.sched s.point).map fun r => s.moveTo r.1 r.2
    else none
  | .fire trigger =>
    if (s.sched.triggers trigger).event = some w.event then
      some { s with
        sched := eventFire trigger s.sched
        fires := s.fires + 1
        fired := (s.sched.triggers trigger).eventType :: s.fired }
    else none
  -- A task that is interrupted stays where it is; its registers are saved with the thread.
  | .tick regs => (reschedule regs s.sched).map fun r => { s with sched := r.2 }
  | .otherDequeue task thread =>
    if task ≠ w.task then some { s with sched := schedDequeue task thread s.sched } else none
  | .otherRequeue task thread =>
    if task ≠ w.task then some { s with sched := schedRequeue task thread s.sched } else none

/-- One step. -/
def eventStep (w : Waiter) (s : WaitState) (op : EventOp) (s' : WaitState) : Prop :=
  eventNext w s op = some s'

theorem eventStep_cases {w : Waiter} {s s' : WaitState} {op : EventOp} (h : eventStep w s op s') :
    match op with
    | .call eventType => s.point = .outside ∧ w.Runs s.sched ∧
        ∃ r, eventWait w.event s.sched = some r ∧
          s' = { s with awaited := eventType }.moveTo r.1 r.2
    | .run => ∃ r, eventWaitNext w.task s.awaited s.sched s.point = some r ∧ s' = s.moveTo r.1 r.2
    | .fire trigger => (s.sched.triggers trigger).event = some w.event ∧ s' = { s with
          sched := eventFire trigger s.sched
          fires := s.fires + 1
          fired := (s.sched.triggers trigger).eventType :: s.fired }
    | .tick regs => ∃ r, reschedule regs s.sched = some r ∧ s' = { s with sched := r.2 }
    | .otherDequeue task thread => task ≠ w.task ∧
        s' = { s with sched := schedDequeue task thread s.sched }
    | .otherRequeue task thread => task ≠ w.task ∧
        s' = { s with sched := schedRequeue task thread s.sched } := by
  unfold eventStep eventNext at h
  cases op with
  | call eventType =>
    dsimp only at h ⊢
    split_ifs at h with hguard
    obtain ⟨r, hr, rfl⟩ := map_eq_some_iff.mp h
    exact ⟨hguard.1, hguard.2, r, hr, rfl⟩
  | run =>
    dsimp only at h ⊢
    split_ifs at h with hguard
    obtain ⟨r, hr, rfl⟩ := map_eq_some_iff.mp h
    exact ⟨r, hr, rfl⟩
  | fire trigger =>
    dsimp only at h ⊢
    split_ifs at h with hguard
    exact ⟨hguard, (some.inj h).symm⟩
  | tick regs =>
    obtain ⟨r, hr, rfl⟩ := map_eq_some_iff.mp h
    exact ⟨r, hr, rfl⟩
  | otherDequeue task thread =>
    dsimp only at h ⊢
    split_ifs at h with hguard
    exact ⟨hguard, (some.inj h).symm⟩
  | otherRequeue task thread =>
    dsimp only at h ⊢
    split_ifs at h with hguard
    exact ⟨hguard, (some.inj h).symm⟩

/-! ## What a step leaves alone -/

section Frames

variable {regs : Registers} {s s' : SchedState} {r : Resumed} {p task thread : ℕ}

structure LeavesWaiter (p : ℕ) (s s' : SchedState) : Prop where
  queued : (s.tasks p).status ≠ .yield → (s'.tasks p).status ≠ .yield
  waiting : (s.tasks p).eventWaiting = false → (s'.tasks p).eventWaiting = false
  lastTrigger : (s'.tasks p).lastTrigger = (s.tasks p).lastTrigger
  triggers : s'.triggers = s.triggers
  events : s'.events = s.events

theorem LeavesWaiter.trans {s'' : SchedState} (h : LeavesWaiter p s s')
    (h' : LeavesWaiter p s' s'') : LeavesWaiter p s s'' :=
  ⟨h'.queued ∘ h.queued, h'.waiting ∘ h.waiting, h'.lastTrigger.trans h.lastTrigger,
    h'.triggers.trans h.triggers, h'.events.trans h.events⟩

theorem Aged.leavesWaiter (h : Aged s s') (p : ℕ) : LeavesWaiter p s s' := by
  obtain ⟨n, hn⟩ := h.tasks p
  exact ⟨by simp [hn], by simp [hn], by simp [hn], h.triggers, h.events⟩

theorem leavesWaiter_update (t : SchedTask) {threads : ℕ → SchedThread} {core : CpuLocal}
    (hqueued : (s.tasks task).status ≠ .yield → t.status ≠ .yield)
    (hwaiting : (s.tasks task).eventWaiting = false → t.eventWaiting = false)
    (hlast : t.lastTrigger = (s.tasks task).lastTrigger) (p : ℕ) :
    LeavesWaiter p s
      { s with tasks := update s.tasks task t, threads := threads, core := core } := by
  by_cases hp : p = task
  · subst hp
    exact ⟨by simpa using hqueued, by simpa using hwaiting, by simpa using hlast, rfl, rfl⟩
  · exact ⟨by simp [hp], by simp [hp], by simp [hp], rfl, rfl⟩

theorem leavesWaiter_saveLast (regs : Registers) (task thread : ℕ) (s : SchedState) (p : ℕ) :
    LeavesWaiter p s (saveLast regs task thread s) :=
  leavesWaiter_update { s.tasks task with status := (s.tasks task).status.preempted }
    (fun h => TaskStatus.preempted_eq_yield_iff.not.mpr h) id rfl p

theorem leavesWaiter_switchIn (h : switchIn task thread s = some s') (p : ℕ) :
    LeavesWaiter p s s' := by
  obtain ⟨thread', -, rfl⟩ := map_eq_some_iff.mp h
  exact leavesWaiter_update
    { s.tasks task with idleCnt := 0#64, status := .running, eventWaiting := false }
    (fun _ => by simp) (fun _ => rfl) rfl p

theorem leavesWaiter_reschedule (h : reschedule regs s = some (r, s')) (p : ℕ) :
    LeavesWaiter p s s' := by
  rcases reschedule_cases h with ⟨haged, -⟩ | ⟨task, thread, s₁, s₂, -, haged, -, hleft, hin⟩
  · exact haged.leavesWaiter p
  · have hleaves : LeavesWaiter p s₁ s₂ := by
      rcases hleft with ⟨-, rfl⟩ | ⟨-, lastTask, lastThread, -, -, rfl⟩
      · exact ⟨id, id, rfl, rfl, rfl⟩
      · exact leavesWaiter_saveLast regs lastTask lastThread s₁ p
    exact ((haged.leavesWaiter p).trans hleaves).trans (leavesWaiter_switchIn hin p)

end Frames

/-! ## Fires and completed waits -/

section Balance

variable {w : Waiter} {s s' : WaitState} {op : EventOp}

/-- **The claimed accounting**: no more waits have returned than fires were made, and `pending` is
the difference. -/
def Balanced (w : Waiter) (s : WaitState) : Prop :=
  s.returned ≤ s.fires ∧ ((s.sched.events w.event).pending.toInt : ℤ) = s.fires - s.returned

/-- The step is the return of a wait that had blocked: the comparison finds the awaited type. -/
def ReturnsBlocked (w : Waiter) (e : Event WaitState EventOp) : Prop :=
  match e.act with
  | .run => e.pre.point = .check ∧
      ((e.pre.sched.tasks w.task).lastTrigger.map fun trigger =>
        (e.pre.sched.triggers trigger).eventType) = some e.pre.awaited
  | _ => False

/-- The step is a fire that finds `pending` at the largest `int`. -/
def Overflows (w : Waiter) (e : Event WaitState EventOp) : Prop :=
  match e.act with
  | .fire _ => (e.pre.sched.events w.event).pending.toInt = 2 ^ 31 - 1
  | _ => False

inductive Counts (w : Waiter) (e : Event WaitState EventOp) : Prop
  | none (hpending : (e.post.sched.events w.event).pending = (e.pre.sched.events w.event).pending)
      (hfires : e.post.fires = e.pre.fires) (hreturned : e.post.returned = e.pre.returned)
      (hblocked : ¬ ReturnsBlocked w e) (hover : ¬ Overflows w e)
  | fire (hpending : (e.post.sched.events w.event).pending =
        (e.pre.sched.events w.event).pending + 1#32)
      (hfires : e.post.fires = e.pre.fires + 1) (hreturned : e.post.returned = e.pre.returned)
      (hblocked : ¬ ReturnsBlocked w e)
      (hover : Overflows w e ↔ (e.pre.sched.events w.event).pending.toInt = 2 ^ 31 - 1)
  | consumed (hne : (e.pre.sched.events w.event).pending ≠ 0#32)
      (hpending : (e.post.sched.events w.event).pending =
        (e.pre.sched.events w.event).pending - 1#32)
      (hfires : e.post.fires = e.pre.fires) (hreturned : e.post.returned = e.pre.returned + 1)
      (hblocked : ¬ ReturnsBlocked w e) (hover : ¬ Overflows w e)
  | blocked (hpending : (e.post.sched.events w.event).pending =
        (e.pre.sched.events w.event).pending)
      (hfires : e.post.fires = e.pre.fires) (hreturned : e.post.returned = e.pre.returned + 1)
      (hblocked : ReturnsBlocked w e)

theorem eventWaitNext_events {task : ℕ} {eventType : EventType} {s : SchedState}
    {point : WaitPoint} {r : WaitPoint × SchedState}
    (h : eventWaitNext task eventType s point = some r) : r.2.events = s.events := by
  unfold eventWaitNext at h
  split at h
  · simp at h
  · rw [← some.inj h]
  · rw [← some.inj h]
    rfl
  · obtain ⟨trigger, -, rfl⟩ := map_eq_some_iff.mp h
    rfl
  · split at h
    · rw [← some.inj h]
      rfl
    · simp at h
  · rw [← some.inj h]
    rfl

theorem eventWaitNext_outside_iff {task : ℕ} {eventType : EventType} {s : SchedState}
    {point : WaitPoint} {r : WaitPoint × SchedState}
    (h : eventWaitNext task eventType s point = some r) :
    r.1 = .outside ↔ point = .check ∧
      ((s.tasks task).lastTrigger.map fun trigger => (s.triggers trigger).eventType) =
        some eventType := by
  unfold eventWaitNext at h
  split at h
  · simp at h
  · rw [← some.inj h]
    split_ifs <;> simp
  · simp [← some.inj h]
  · obtain ⟨trigger, htrigger, rfl⟩ := map_eq_some_iff.mp h
    rw [htrigger]
    split_ifs with htype <;> simp [htype]
  · split at h
    · simp [← some.inj h]
    · simp at h
  · simp [← some.inj h]

theorem eventFire_events {trigger event : ℕ} {s : SchedState}
    (h : (s.triggers trigger).event = some event) :
    (eventFire trigger s).events = update s.events event { s.events event with
        pending := (s.events event).pending + 1#32 } := by
  unfold eventFire
  rw [h]
  rfl

theorem WaitState.moveTo_of_ne {point : WaitPoint} (h : point ≠ .outside) (sched : SchedState) :
    s.moveTo point sched = { s with sched := sched, point := point } := if_neg h

theorem WaitState.moveTo_outside (sched : SchedState) : s.moveTo .outside sched =
      { s with sched := sched, point := .outside, returned := s.returned + 1, fired := [] } :=
  if_pos rfl

theorem counts_of_step (h : eventStep w s op s') : Counts w ⟨s, op, s'⟩ := by
  have hcases := eventStep_cases h
  cases op with
  | call eventType =>
    obtain ⟨-, -, r, hr, rfl⟩ := hcases
    unfold eventWait at hr
    dsimp only at hr
    split_ifs at hr with hpending
    · rw [← some.inj hr, WaitState.moveTo_outside]
      exact .consumed hpending (by simp) rfl rfl id id
    · split at hr
      · rw [← some.inj hr]
        exact .none rfl rfl rfl id id
      · simp at hr
  | run =>
    obtain ⟨r, hr, rfl⟩ := hcases
    have hevents := eventWaitNext_events hr
    have hiff := eventWaitNext_outside_iff hr
    by_cases hout : r.1 = .outside
    · rw [hout, WaitState.moveTo_outside]
      exact .blocked (by rw [hevents]) rfl rfl (hiff.mp hout)
    · rw [WaitState.moveTo_of_ne hout]
      exact .none (by rw [hevents]) rfl rfl (hiff.not.mp hout) id
  | fire trigger =>
    obtain ⟨hevent, rfl⟩ := hcases
    exact .fire (by simp [eventFire_events hevent]) rfl rfl id Iff.rfl
  | tick regs =>
    obtain ⟨⟨r, sched⟩, hr, rfl⟩ := hcases
    have hleaves := leavesWaiter_reschedule hr w.task
    exact .none (by rw [hleaves.events]) rfl rfl id id
  | otherDequeue task thread =>
    obtain ⟨-, rfl⟩ := hcases
    exact .none rfl rfl rfl id id
  | otherRequeue task thread =>
    obtain ⟨-, rfl⟩ := hcases
    exact .none rfl rfl rfl id id

theorem balanced_step_iff (hbal : Balanced w s) (h : eventStep w s op s') :
    Balanced w s' ↔ ¬ ReturnsBlocked w ⟨s, op, s'⟩ ∧ ¬ Overflows w ⟨s, op, s'⟩ := by
  obtain ⟨hle, hpend⟩ := hbal
  set pending := (s.sched.events w.event).pending with hp
  cases counts_of_step h with
  | none hpending hfires hreturned hblocked hover =>
    unfold Balanced
    rw [hpending, hfires, hreturned]
    exact iff_of_true ⟨hle, hpend⟩ ⟨hblocked, hover⟩
  | fire hpending hfires hreturned hblocked hover =>
    unfold Balanced
    rw [hpending, hover, ← hp]
    simp only [hblocked, not_false_eq_true]
    rw [BitVec.toInt_eq_toNat_cond] at hpend ⊢
    rw [BitVec.toInt_eq_toNat_cond]
    split_ifs at hpend ⊢ <;> simp at * <;> omega
  | consumed hne hpending hfires hreturned hblocked hover =>
    unfold Balanced
    rw [hpending, ← hp]
    simp only [hblocked, hover, not_false_eq_true, and_self, iff_true]
    have hne' : pending.toNat ≠ 0 := fun h0 => hne (BitVec.eq_of_toNat_eq h0)
    rw [BitVec.toInt_eq_toNat_cond] at hpend ⊢
    split_ifs at hpend ⊢ <;> simp at * <;> omega
  | blocked hpending hfires hreturned hblocked =>
    unfold Balanced
    rw [hpending, hfires, hreturned, ← hp]
    simp only [hblocked, not_true_eq_false, false_and, iff_false]
    omega

/-- **The accounting holds exactly as long as no wait blocks and returns**: along every run that
starts with the task outside `event_wait` and nothing pending, every state is balanced if and only
if no step is the return of a wait that had blocked, and no fire overflows `pending`. -/
theorem balanced_iff {s₀ : WaitState} {tr : List (Event WaitState EventOp)}
    (run : Run (eventStep w) s₀ tr s) (hfires : s₀.fires = 0) (hreturned : s₀.returned = 0)
    (hpending : (s₀.sched.events w.event).pending = 0#32) :
    (∀ e ∈ tr, Balanced w e.post) ↔ ∀ e ∈ tr, ¬ ReturnsBlocked w e ∧ ¬ Overflows w e := by
  have h₀ : Balanced w s₀ := by
    unfold Balanced
    rw [hfires, hreturned, hpending]
    exact ⟨le_rfl, rfl⟩
  refine run.every_iff (I := Balanced w) h₀ ?_ ?_
  · intro s a s' hbal hstep hQ
    exact (balanced_step_iff hbal hstep).mpr hQ
  · intro s a s' hbal hstep
    exact balanced_step_iff hbal hstep

def oneTaskSched : SchedState where
  tasks _ := { SchedTask.zeroed with
    pid := 1#64
    threadList := hashTablePush addressHash HashTable.empty 0#64 0 }
  threads _ := { SchedThread.zeroed with pid := 1#64 }
  events _ := ⟨0, 0, 0#32⟩
  triggers i := ⟨0, some 0, if i = 0 then .hdaCmd else .timerTrigger⟩
  taskList := hashTablePush addressHash HashTable.empty 1#64 0
  core := ⟨0#64, 0#64, 0#64, 1#64, 0#64, 0, 0#64, 0#64⟩

def oneWaiter : WaitState := ⟨oneTaskSched, .outside, .hdaCmd, 0, 0, []⟩

abbrev oneWaiterRun := Run (eventStep ⟨0, 0, 0⟩) oneWaiter

theorem balanced_iff_fire_then_wait : ∃ tr s, oneWaiterRun tr s ∧ s.returned = 1 ∧
    ∀ e ∈ tr, Balanced ⟨0, 0, 0⟩ e.post := by
  obtain ⟨s₁, h₁⟩ : ∃ s₁, eventStep ⟨0, 0, 0⟩ oneWaiter (.fire 0) s₁ := ⟨_, rfl⟩
  obtain ⟨s₂, h₂, hs₂⟩ : ∃ s₂, eventStep ⟨0, 0, 0⟩ s₁ (.call .hdaCmd) s₂ ∧ s₂.returned = 1 := by
    cases h₁
    exact ⟨_, rfl, rfl⟩
  refine ⟨_, s₂, (Run.nil.snoc h₁).snoc h₂, hs₂, ?_⟩
  refine (balanced_iff ((Run.nil.snoc h₁).snoc h₂) rfl rfl rfl).mpr ?_
  simp [ReturnsBlocked, Overflows, oneWaiter, oneTaskSched]

def waitTwice : List EventOp :=
  [.call .hdaCmd, .fire 0, .tick default, .tick default, .tick default, .run, .run, .run,
    .call .hdaCmd]

/-- **One fire, two waits**: both waits return 0, though the only trigger was fired once. -/
theorem one_fire_two_waits : (oneTaskSched.triggers 0).eventType = .hdaCmd ∧
    ∃ tr s, oneWaiterRun tr s ∧ tr.map Event.act = waitTwice ∧ s.fires = 1 ∧ s.returned = 2 :=
  ⟨rfl, Run.computed _ waitTwice (by decide +kernel)⟩

end Balance

/-! ## Lost wake-ups -/

section Lost

variable {w : Waiter} {s s' : WaitState} {op : EventOp}

/-- **The wake-up of the task is lost**: it sits in `event_wait` out of the queue, with
`event_waiting` set, though a trigger of the type it awaits has been fired since its last
successful wait. -/
def Lost (w : Waiter) (s : WaitState) : Prop :=
  s.awaited ∈ s.fired ∧ s.point ≠ .outside ∧ (s.sched.tasks w.task).status = .yield ∧
    (s.sched.tasks w.task).eventWaiting = true
  deriving Decidable

def lastType (w : Waiter) (s : SchedState) : Option EventType :=
  (s.tasks w.task).lastTrigger.map fun trigger => (s.triggers trigger).eventType

/-- **An orderly fire**: `pending` does not overflow, and while the task is in `event_wait`, a
trigger of the awaited type is not fired between the comparison that failed and the
`sched_dequeue` after it, and a trigger of another type not after one of the awaited type. -/
def Orderly (w : Waiter) (s : WaitState) : EventOp → Prop
  | .fire trigger => (s.sched.events w.event).pending.toNat + 1 < 2 ^ 31 ∧
      (s.point ≠ .outside →
        if (s.sched.triggers trigger).eventType = s.awaited then s.point ≠ .dequeue
        else s.awaited ∉ s.fired)
  | _ => True

instance (w : Waiter) (s : WaitState) : DecidablePred (Orderly w s)
  | .fire trigger => inferInstanceAs (Decidable
      ((s.sched.events w.event).pending.toNat + 1 < 2 ^ 31 ∧
        (s.point ≠ .outside →
          if (s.sched.triggers trigger).eventType = s.awaited then s.point ≠ .dequeue
          else s.awaited ∉ s.fired)))
  | .call _ => .isTrue trivial
  | .run => .isTrue trivial
  | .tick _ => .isTrue trivial
  | .otherDequeue _ _ => .isTrue trivial
  | .otherRequeue _ _ => .isTrue trivial

structure WakeInv (w : Waiter) (s : WaitState) : Prop where
  event : (s.sched.events w.event).task = w.task
  small : (s.sched.events w.event).pending.toNat < 2 ^ 31
  pending : s.fired ≠ [] → (s.sched.events w.event).pending ≠ 0#32
  unmarked : s.point ≠ .outside → s.point ≠ .spin →
    (s.sched.tasks w.task).eventWaiting = false
  last : s.point ≠ .outside → s.awaited ∈ s.fired → lastType w s.sched = some s.awaited
  mismatch : s.point = .dequeue → s.awaited ∉ s.fired
  queued : s.point = .mark → s.awaited ∈ s.fired → (s.sched.tasks w.task).status ≠ .yield
  awake : s.point = .spin → s.awaited ∈ s.fired →
    (s.sched.tasks w.task).status ≠ .yield ∨ (s.sched.tasks w.task).eventWaiting = false

theorem WakeInv.not_lost (h : WakeInv w s) : ¬ Lost w s := by
  rintro ⟨hfired, hin, hyield, hwaiting⟩
  by_cases hspin : s.point = .spin
  · rcases h.awake hspin hfired with hqueued | hreset
    · exact hqueued hyield
    · rw [hwaiting] at hreset
      simp at hreset
  · have hreset := h.unmarked hin hspin
    rw [hwaiting] at hreset
    simp at hreset

theorem WakeInv.of_leaves {sched : SchedState} (h : WakeInv w s)
    (hleaves : LeavesWaiter w.task s.sched sched) : WakeInv w { s with sched := sched } := by
  have hlast : lastType w sched = lastType w s.sched := by
    unfold lastType
    rw [hleaves.lastTrigger, hleaves.triggers]
  refine ⟨?_, ?_, ?_, ?_, ?_, h.mismatch, ?_, ?_⟩
  · rw [hleaves.events]
    exact h.event
  · rw [hleaves.events]
    exact h.small
  · rw [hleaves.events]
    exact h.pending
  · exact fun hin hspin => hleaves.waiting (h.unmarked hin hspin)
  · rw [hlast]
    exact h.last
  · exact fun hmark hfired => hleaves.queued (h.queued hmark hfired)
  · exact fun hspin hfired => (h.awake hspin hfired).imp hleaves.queued hleaves.waiting

theorem leavesWaiter_of_ne {p task : ℕ} (hne : task ≠ p) (s : SchedState) (t : SchedTask)
    (threads : ℕ → SchedThread) :
    LeavesWaiter p s { s with tasks := update s.tasks task t, threads := threads } := by
  have hp : update s.tasks task t p = s.tasks p := update_of_ne hne.symm _ _
  exact ⟨by simp [hp], by simp [hp], by simp [hp], rfl, rfl⟩

theorem WakeInv.call {eventType : EventType} {r : WaitPoint × SchedState} (h : WakeInv w s)
    (hruns : w.Runs s.sched) (hr : eventWait w.event s.sched = some r) :
    WakeInv w ({ s with awaited := eventType }.moveTo r.1 r.2) := by
  unfold eventWait at hr
  dsimp only at hr
  split_ifs at hr with hpending
  · rw [← some.inj hr, WaitState.moveTo_outside]
    have hsmall : ((s.sched.events w.event).pending - 1#32).toNat < 2 ^ 31 := by
      have h₁ := h.small
      have h₂ : (s.sched.events w.event).pending.toNat ≠ 0 := fun hzero =>
        hpending (BitVec.eq_of_toNat_eq hzero)
      rw [BitVec.toNat_sub]
      simp only [BitVec.toNat_ofNat]
      omega
    exact ⟨by simpa using h.event, by simpa using hsmall, by simp, by simp, by simp, by simp,
      by simp, by simp⟩
  · rw [hruns.1, hruns.2] at hr
    rw [← some.inj hr, WaitState.moveTo_of_ne (by simp)]
    have hfired : s.fired = [] := by
      by_contra hne
      exact h.pending hne (not_not.mp hpending)
    exact ⟨h.event, h.small, by simp [hfired], by simp, by simp [hfired], by simp, by simp,
      by simp [hfired]⟩

theorem WakeInv.inside {sched : SchedState} {point : WaitPoint} (h : WakeInv w s)
    (hevents : sched.events = s.sched.events)
    (hunmarked : point ≠ .spin → (sched.tasks w.task).eventWaiting = false)
    (hlast : s.awaited ∈ s.fired → lastType w sched = some s.awaited)
    (hmismatch : point = .dequeue → s.awaited ∉ s.fired)
    (hqueued : point = .mark → s.awaited ∈ s.fired → (sched.tasks w.task).status ≠ .yield)
    (hawake : point = .spin → s.awaited ∈ s.fired →
      (sched.tasks w.task).status ≠ .yield ∨ (sched.tasks w.task).eventWaiting = false) :
    WakeInv w { s with sched := sched, point := point } := by
  refine ⟨?_, ?_, ?_, fun _ => hunmarked, fun _ => hlast, hmismatch, hqueued, hawake⟩
  · rw [hevents]
    exact h.event
  · rw [hevents]
    exact h.small
  · rw [hevents]
    exact h.pending

theorem WakeInv.run {r : WaitPoint × SchedState} (h : WakeInv w s)
    (hr : eventWaitNext w.task s.awaited s.sched s.point = some r) :
    WakeInv w (s.moveTo r.1 r.2) := by
  cases hpoint : s.point with
  | outside =>
    rw [hpoint] at hr
    exact absurd hr (by simp [eventWaitNext])
  | spin =>
    have hlast := h.last (by simp [hpoint])
    rw [hpoint, eventWaitNext] at hr
    cases hwaiting : (s.sched.tasks w.task).eventWaiting with
    | true =>
      rw [hwaiting] at hr
      rw [← some.inj hr, if_pos rfl]
      exact h.inside rfl (by simp) hlast (by simp) (by simp) fun _ => h.awake hpoint
    | false =>
      rw [hwaiting] at hr
      rw [← some.inj hr, if_neg (by simp)]
      exact h.inside rfl (fun _ => hwaiting) hlast (by simp) (by simp) (by simp)
  | clear =>
    have hlast := h.last (by simp [hpoint])
    rw [hpoint] at hr
    rw [← some.inj hr]
    refine h.inside rfl (fun _ => by simp [SchedState.setEventWaiting]) ?_ (by simp) (by simp)
      (by simp)
    simpa [lastType, SchedState.setEventWaiting] using hlast
  | check =>
    have hlast := h.last (by simp [hpoint])
    have hunmarked := h.unmarked (by simp [hpoint]) (by simp [hpoint])
    rw [hpoint] at hr
    obtain ⟨trigger, htrigger, rfl⟩ := map_eq_some_iff.mp hr
    by_cases htype : (s.sched.triggers trigger).eventType = s.awaited
    · -- The wait returns, and nothing has been fired since.
      rw [if_pos htype, WaitState.moveTo_outside]
      exact ⟨h.event, h.small, by simp, by simp, by simp, by simp, by simp, by simp⟩
    · -- Had the awaited type been fired, it would be the one compared.
      have hnot : s.awaited ∉ s.fired := by
        intro hfired
        have htype' := hlast hfired
        rw [lastType, htrigger] at htype'
        exact htype (some.inj htype')
      rw [if_neg htype]
      exact h.inside rfl (fun _ => hunmarked) hlast (fun _ => hnot) (by simp) (by simp)
  | dequeue =>
    have hnot := h.mismatch hpoint
    have hunmarked := h.unmarked (by simp [hpoint]) (by simp [hpoint])
    rw [hpoint, eventWaitNext] at hr
    split at hr
    · next task thread _ _ =>
      rw [← some.inj hr]
      refine h.inside rfl (fun _ => ?_) (fun hfired => absurd hfired hnot) (by simp)
        (fun _ hfired => absurd hfired hnot) (by simp)
      by_cases htask : w.task = task
      · simpa [schedDequeue, ← htask] using hunmarked
      · simpa [schedDequeue, htask] using hunmarked
    · simp at hr
  | mark =>
    have hlast := h.last (by simp [hpoint])
    rw [hpoint] at hr
    rw [← some.inj hr]
    refine h.inside rfl (by simp) ?_ (by simp) (by simp) fun _ hfired => .inl ?_
    · simpa [lastType, SchedState.setEventWaiting] using hlast
    · simpa [SchedState.setEventWaiting] using h.queued hpoint hfired

theorem eventFire_task {trigger event : ℕ} {s : SchedState}
    (h : (s.triggers trigger).event = some event) :
    (eventFire trigger s).tasks (s.events event).task = { s.tasks (s.events event).task with
        lastTrigger := some trigger, status := .waiting, idleCnt := taskMaxPriority } := by
  unfold eventFire
  rw [h]
  simp [schedRequeue]

theorem eventFire_triggers (trigger : ℕ) (s : SchedState) :
    (eventFire trigger s).triggers = s.triggers := by
  unfold eventFire
  split <;> rfl

theorem WakeInv.fire {trigger : ℕ} (h : WakeInv w s)
    (hevent : (s.sched.triggers trigger).event = some w.event)
    (hsmall : (s.sched.events w.event).pending.toNat + 1 < 2 ^ 31)
    (horder : s.point ≠ .outside →
      if (s.sched.triggers trigger).eventType = s.awaited then s.point ≠ .dequeue
      else s.awaited ∉ s.fired) :
    WakeInv w { s with
      sched := eventFire trigger s.sched
      fires := s.fires + 1
      fired := (s.sched.triggers trigger).eventType :: s.fired } := by
  have htask := eventFire_task hevent
  rw [h.event] at htask
  have hpending : ((s.sched.events w.event).pending + 1#32).toNat =
      (s.sched.events w.event).pending.toNat + 1 := by
    exact Nat.mod_eq_of_lt (by simp only [BitVec.toNat_ofNat]; omega)
  have hlastType : lastType w (eventFire trigger s.sched) =
      some (s.sched.triggers trigger).eventType := by
    simp [lastType, htask, eventFire_triggers]
  -- Inside `event_wait`, the awaited type is among the fired ones only if it is this one.
  have hthis : s.point ≠ .outside → s.awaited ∈ (s.sched.triggers trigger).eventType :: s.fired →
      (s.sched.triggers trigger).eventType = s.awaited := by
    intro hin hfired
    by_contra hne
    have hnot := horder hin
    rw [if_neg hne] at hnot
    rcases List.mem_cons.mp hfired with heq | hmem
    · exact hne heq.symm
    · exact hnot hmem
  refine ⟨?_, ?_, ?_, ?_, ?_, ?_, ?_, ?_⟩
  · simpa [eventFire_events hevent] using h.event
  · simp only [eventFire_events hevent, update_self]
    omega
  · intro _ hzero
    simp only [eventFire_events hevent, update_self] at hzero
    rw [hzero] at hpending
    simp at hpending
  · intro hin hspin
    simpa [htask] using h.unmarked hin hspin
  · intro hin hfired
    rw [hlastType, hthis hin hfired]
  · intro hdequeue hfired
    have hin : s.point ≠ .outside := fun hout => by simp [hout] at hdequeue
    have hord := horder hin
    rw [if_pos (hthis hin hfired)] at hord
    exact hord hdequeue
  · simp [htask]
  · intro _ _
    exact .inl (by simp [htask])

theorem WakeInv.step (h : WakeInv w s) (hstep : eventStep w s op s')
    (horder : Orderly w s op) : WakeInv w s' := by
  have hcases := eventStep_cases hstep
  cases op with
  | call eventType =>
    obtain ⟨-, hruns, r, hr, rfl⟩ := hcases
    exact h.call hruns hr
  | run =>
    obtain ⟨r, hr, rfl⟩ := hcases
    exact h.run hr
  | fire trigger =>
    obtain ⟨hevent, rfl⟩ := hcases
    exact h.fire hevent horder.1 horder.2
  | tick regs =>
    obtain ⟨⟨r, sched⟩, hr, rfl⟩ := hcases
    exact h.of_leaves (leavesWaiter_reschedule hr w.task)
  | otherDequeue task thread =>
    obtain ⟨hne, rfl⟩ := hcases
    exact h.of_leaves (leavesWaiter_of_ne hne _ _ _)
  | otherRequeue task thread =>
    obtain ⟨hne, rfl⟩ := hcases
    exact h.of_leaves (leavesWaiter_of_ne hne _ _ _)

/-- **No lost wake-up in orderly runs**: in every run that starts with the task outside
`event_wait`, nothing fired since its last wait and `pending` not negative, and whose fires are
all orderly, no wake-up is lost. -/
theorem not_lost_of_orderly {s₀ : WaitState} {tr : List (Event WaitState EventOp)}
    (run : Run (eventStep w) s₀ tr s) (hevent : (s₀.sched.events w.event).task = w.task)
    (hpending : (s₀.sched.events w.event).pending.toNat < 2 ^ 31)
    (hpoint : s₀.point = .outside) (hfired : s₀.fired = [])
    (horder : ∀ e ∈ tr, Orderly w e.pre e.act) :
    ¬ Lost w s := by
  have h₀ : WakeInv w s₀ :=
    ⟨hevent, hpending, by simp [hfired], by simp [hpoint], by simp [hpoint], by simp [hpoint],
      by simp [hpoint], by simp [hpoint]⟩
  have hinv : WakeInv w s := run.guarded (I := fun _ s => WakeInv w s) h₀
      (fun _ _ _ _ hinv hstep hQ => hinv.step hstep hQ) horder
  exact hinv.not_lost

def wokenTwice : List EventOp :=
  [.call .hdaCmd, .fire 1, .tick default, .tick default, .tick default, .run, .run, .run, .run,
    .fire 0, .run]

theorem not_lost_of_orderly_woken_twice : ∃ tr s, oneWaiterRun tr s ∧
    tr.map Event.act = wokenTwice ∧ s.awaited ∈ s.fired ∧ ¬ Lost ⟨0, 0, 0⟩ s := by
  obtain ⟨tr, s, run, hacts, hfired, horder⟩ := Run.computed (f := eventNext ⟨0, 0, 0⟩)
    (P := fun tr s => s.awaited ∈ s.fired ∧ ∀ e ∈ tr, Orderly ⟨0, 0, 0⟩ e.pre e.act) oneWaiter
    wokenTwice (by decide +kernel)
  exact ⟨tr, s, run, hacts, hfired, not_lost_of_orderly run rfl (by decide) rfl rfl horder⟩

def firedBeforeDequeue : List EventOp :=
  [.call .hdaCmd, .fire 1, .tick default, .tick default, .tick default, .run, .run, .run, .fire 0,
    .run, .run]

/-- **A lost wake-up**: the task is in `TASK_YIELD` with `event_waiting` set, and the trigger it
waits for has been fired. -/
theorem wakeup_lost_before_dequeue : (oneTaskSched.triggers 0).eventType = .hdaCmd ∧
    ∃ tr s, oneWaiterRun tr s ∧ tr.map Event.act = firedBeforeDequeue ∧ s.awaited = .hdaCmd ∧
      Lost ⟨0, 0, 0⟩ s :=
  ⟨rfl, Run.computed _ firedBeforeDequeue (by decide +kernel)⟩

theorem reschedule_yielded {regs : Registers} {s s' : SchedState} {r : Resumed} {p : ℕ}
    (h : reschedule regs s = some (r, s')) (hyield : (s.tasks p).status = .yield) :
    (s'.tasks p).status = .yield ∧ (s'.tasks p).eventWaiting = (s.tasks p).eventWaiting := by
  obtain ⟨n, status, waiting, htask, hkeep⟩ := reschedule_task h p
  obtain ⟨rfl, rfl⟩ := hkeep hyield
  rw [htask]
  exact ⟨rfl, rfl⟩

end Lost

end Pastoral
