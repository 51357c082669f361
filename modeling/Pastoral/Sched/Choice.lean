import Pastoral.Sched.Reschedule

/-!
# The task that is chosen

`find_next_task` takes the waiting task with the highest `idle_cnt`, which it increments on the way.

## Main results

* `right_choice_of_woken_early`: when it has waited longest
* `core_taken_in_turns`: a task comes again after those that wait
-/

open Function Transition

namespace Pastoral

/-! ## The steps -/

structure ChoiceState where
  sched : SchedState
  now : ℕ
  ran : ℕ → ℕ
  since : ℕ → ℕ
  requeued : ℕ → Option ℕ

inductive ChoiceOp
  | tick (regs : Registers)
  | dequeue (task thread : ℕ)
  | requeue (task thread : ℕ)

namespace ChoiceState

def next (s : ChoiceState) (sched : SchedState) (now : ℕ) : ChoiceState :=
  { s with
    sched := sched
    now := now
    since := fun p => if (s.sched.tasks p).status = .waiting then s.since p else now }

def resume (s : ChoiceState) : Resumed → ChoiceState
  | .switched task _ =>
    { s with
      ran := update s.ran task s.now
      requeued := update s.requeued task none }
  | _ => s

def tasks (s : ChoiceState) : List ℕ := tablePointers s.sched.taskList

def Waits (s : ChoiceState) (p : ℕ) : Prop := p ∈ s.tasks ∧ (s.sched.tasks p).status = .waiting

def WaitsLonger (s : ChoiceState) (p p' : ℕ) : Prop :=
  s.requeued p ≠ none ∨ s.requeued p' = none ∧ s.since p ≤ s.since p'

end ChoiceState

def choiceNext (s : ChoiceState) : ChoiceOp → Option ChoiceState
  | .tick regs => (reschedule regs s.sched).map fun r => (s.next r.2 (s.now + 1)).resume r.1
  | .dequeue task thread => some (s.next (schedDequeue task thread s.sched) s.now)
  | .requeue task thread =>
    some { s.next (schedRequeue task thread s.sched) s.now with
      requeued := update s.requeued task (some s.now) }

/-- One step. -/
def choiceStep (s : ChoiceState) (op : ChoiceOp) (s' : ChoiceState) : Prop :=
  choiceNext s op = some s'

/-- **The right choice**: none if no task waits, and otherwise one that has waited longest. -/
structure RightChoice (s : ChoiceState) : Prop where
  none : (findNextTask s.sched).ret = none ↔ ∀ p, ¬ s.Waits p
  longest : ∀ p, (findNextTask s.sched).ret = some p →
    s.Waits p ∧ ∀ p', s.Waits p' → s.WaitsLonger p p'

/-- **The tasks that were woken come before the others**: if one waits, then one was woken before
the last interrupt, and at least `gap` interrupts before any other waiting task got the core. -/
def WokenEarly (gap : ℕ) (s : ChoiceState) : Prop :=
  (∃ q, s.Waits q ∧ s.requeued q ≠ none) → ∃ q t, s.Waits q ∧ s.requeued q = some t ∧ t < s.now ∧
    ∀ p, s.Waits p → s.requeued p = none → t + gap ≤ s.ran p

/-- Before the first interrupt: no task has run, and the core idles. -/
structure Booted (s : ChoiceState) : Prop where
  nodup : s.tasks.Nodup
  keyed : ∀ p ∈ s.tasks, schedTranslatePid s.sched (s.sched.tasks p).pid = some p
  idle : ¬ s.sched.core.Busy
  counts : ∀ p ∈ s.tasks, (s.sched.tasks p).idleCnt = 0#64
  now : s.now = 0
  ran : ∀ p, s.ran p = 0
  since : ∀ p, s.since p = 0
  requeued : ∀ p, s.requeued p = none

/-! ## What the counts say -/

def ChoiceState.start (s : ChoiceState) (p : ℕ) : ℕ := (s.requeued p).elim (s.ran p) (· + 1)

def ChoiceState.Preempted (s : ChoiceState) (p : ℕ) : Prop :=
  (s.sched.tasks p).status = .waiting ∧ s.requeued p = none

structure ChoiceInv (s : ChoiceState) : Prop where
  nodup : s.tasks.Nodup
  keyed : ∀ p ∈ s.tasks, schedTranslatePid s.sched (s.sched.tasks p).pid = some p
  start_le : ∀ p, s.start p ≤ s.now + 1
  count : ∀ p ∈ s.tasks,
    (s.sched.tasks p).idleCnt + 1#64 = BitVec.ofNat 64 (s.now + 1 - s.start p)
  ran_le : ∀ p, s.ran p ≤ s.now
  ran_inj : ∀ p p', s.ran p = s.ran p' → p = p' ∨ s.ran p = 0
  current : ∀ p, s.sched.core.Busy → s.sched.currentTask = some p →
    0 < s.ran p ∧ (∀ p', s.ran p' ≤ s.ran p) ∧ ¬ s.Preempted p
  ran_le_since : ∀ p, s.Preempted p → s.ran p ≤ s.since p ∧ s.since p ≤ s.now
  first : ∀ p, s.Preempted p → s.ran p = 0 → s.since p = 0
  since_le : ∀ p p', s.Preempted p → s.ran p < s.ran p' → s.since p ≤ s.ran p'

section Invariant

variable {s s' : ChoiceState}

theorem Booted.inv (h : Booted s) : ChoiceInv s := by
  have hstart : ∀ p, s.start p = 0 := fun p => by rw [ChoiceState.start, h.requeued, h.ran]; rfl
  refine ⟨h.nodup, h.keyed, fun p => ?_, fun p hp => ?_, fun p => ?_, fun p _ _ => .inr (h.ran p),
    fun p hbusy => absurd hbusy h.idle, fun p _ => ?_, fun p _ _ => h.since p, fun p p' _ hlt => ?_⟩
  · rw [hstart]
    exact Nat.zero_le _
  · rw [h.counts p hp, hstart, h.now]
    rfl
  · rw [h.ran]
    exact Nat.zero_le _
  · rw [h.ran, h.since]
    exact ⟨le_refl _, Nat.zero_le _⟩
  · rw [h.ran, h.ran] at hlt
    exact absurd hlt (lt_irrefl 0)

variable {regs : Registers} {a : SchedState} {p : ℕ}

theorem reschedule_effect {r : Resumed} {a' : SchedState}
    (h : reschedule regs a = some (r, a')) (hnodup : (tablePointers a.taskList).Nodup) (p : ℕ) :
    (∃ thread, r = .switched p thread ∧ p ∈ tablePointers a.taskList ∧
      (a'.tasks p).status = .running ∧ (a'.tasks p).idleCnt = 0#64) ∨
    (∀ thread, r ≠ .switched p thread) ∧
      (p ∈ tablePointers a.taskList → (a'.tasks p).idleCnt = (a.tasks p).idleCnt + 1#64) ∧
      ((a'.tasks p).status = (a.tasks p).status ∨
        a.core.Busy ∧ a.currentTask = some p ∧ ∃ task thread, r = .switched task thread) := by
  have hcount : p ∈ tablePointers a.taskList →
      ((findNextTask a).mem p).idleCnt = (a.tasks p).idleCnt + 1#64 := fun hp =>
    congrArg SchedTask.idleCnt (taskQueue.findNext_mem a.tasks hnodup hp)
  obtain ⟨n, hn⟩ := (taskQueue.scanned_findNext a.tasks (tablePointers a.taskList)).aged p
  have hstatus : ((findNextTask a).mem p).status = (a.tasks p).status := by
    rw [findNextTask, hn]
    rfl
  rcases reschedule_scan h with
    ⟨-, htasks, hne⟩ | ⟨task, thread, s₁, s₂, rfl, haged, htasks, hchosen, hleft, hin⟩
  · right
    rw [htasks]
    exact ⟨hne p, hcount, .inl hstatus⟩
  · have hsaved : (s₂.tasks p).idleCnt = (s₁.tasks p).idleCnt ∧
        ((s₂.tasks p).status = (s₁.tasks p).status ∨ a.core.Busy ∧ a.currentTask = some p) := by
      rcases hleft with ⟨-, rfl⟩ | ⟨hbusy, last, lastThread, hlast, -, rfl⟩
      · exact ⟨rfl, .inl rfl⟩
      · rw [haged.core] at hbusy
        rw [haged.currentTask] at hlast
        by_cases hp : p = last
        · subst hp
          exact ⟨by simp [saveLast], .inr ⟨hbusy, hlast⟩⟩
        · simp [saveLast, hp]
    rw [htasks] at hsaved
    obtain ⟨nextThread, -, rfl⟩ := Option.map_eq_some_iff.mp hin
    by_cases hp : p = task
    · subst hp
      left
      refine ⟨thread, rfl, hchosen.task_mem, ?_, ?_⟩ <;> simp
    · right
      dsimp only
      rw [update_of_ne hp, hsaved.1, ← hstatus]
      exact ⟨fun _ heq => hp (Resumed.switched.inj heq).1.symm, hcount,
        hsaved.2.imp_right fun h => ⟨h.1, h.2, task, thread, rfl⟩⟩

theorem ChoiceInv.keep (h : ChoiceInv s) (hlist : s'.sched.taskList = s.sched.taskList)
    (hcore : s'.sched.core = s.sched.core) (hran : s'.ran = s.ran) (hnow : s.now ≤ s'.now)
    (hpid : ∀ p, (s'.sched.tasks p).pid = (s.sched.tasks p).pid)
    (hwaits : ∀ p, s'.Preempted p → s.Preempted p ∧ s'.since p = s.since p)
    (hstart : ∀ p, s'.start p ≤ s'.now + 1)
    (hcount : ∀ p ∈ s.tasks,
      (s'.sched.tasks p).idleCnt + 1#64 = BitVec.ofNat 64 (s'.now + 1 - s'.start p)) :
    ChoiceInv s' := by
  have htasks : s'.tasks = s.tasks := by rw [ChoiceState.tasks, hlist, ChoiceState.tasks]
  have htranslate : ∀ pid, schedTranslatePid s'.sched pid = schedTranslatePid s.sched pid := by
    intro pid
    rw [schedTranslatePid, hlist, schedTranslatePid]
  refine ⟨htasks ▸ h.nodup, fun p hp => ?_, hstart, htasks ▸ hcount, fun p => ?_, hran ▸ h.ran_inj,
    fun p hbusy hcur => ?_, fun p hp => ?_, fun p hp => ?_, fun p p' hp => ?_⟩
  · rw [hpid, htranslate]
    exact h.keyed p (htasks ▸ hp)
  · rw [hran]
    exact (h.ran_le p).trans hnow
  · rw [hcore] at hbusy
    rw [SchedState.currentTask, htranslate, hcore] at hcur
    obtain ⟨hpos, hlast, hnot⟩ := h.current p hbusy hcur
    exact ⟨hran ▸ hpos, hran ▸ hlast, fun hp => hnot (hwaits p hp).1⟩
  all_goals
    obtain ⟨hbefore, hsince⟩ := hwaits p hp
    rw [hran, hsince]
  · exact ⟨(h.ran_le_since p hbefore).1, (h.ran_le_since p hbefore).2.trans hnow⟩
  · exact h.first p hbefore
  · exact h.since_le p p' hbefore

theorem ChoiceInv.dequeue (h : ChoiceInv s) (task thread : ℕ) :
    ChoiceInv (s.next (schedDequeue task thread s.sched) s.now) := by
  have hfields : ∀ p, ((schedDequeue task thread s.sched).tasks p).pid = (s.sched.tasks p).pid ∧
      ((schedDequeue task thread s.sched).tasks p).idleCnt = (s.sched.tasks p).idleCnt ∧
      (((schedDequeue task thread s.sched).tasks p).status = .waiting →
        (s.sched.tasks p).status = .waiting) := by
    intro p
    by_cases hp : p = task
    · simp [schedDequeue, hp]
    · simp [schedDequeue, hp]
  refine h.keep rfl rfl rfl (le_refl _) (fun p => (hfields p).1) (fun p hp => ?_) h.start_le
    fun p hp => ?_
  · have hbefore := (hfields p).2.2 hp.1
    exact ⟨⟨hbefore, hp.2⟩, if_pos hbefore⟩
  · exact (congrArg (· + 1#64) (hfields p).2.1).trans (h.count p hp)

theorem ChoiceInv.requeue (h : ChoiceInv s) (task thread : ℕ) :
    ChoiceInv { s.next (schedRequeue task thread s.sched) s.now with
      requeued := update s.requeued task (some s.now) } := by
  have hfields : ∀ p, ((schedRequeue task thread s.sched).tasks p).pid = (s.sched.tasks p).pid ∧
      ((schedRequeue task thread s.sched).tasks p).idleCnt =
        (if p = task then taskMaxPriority else (s.sched.tasks p).idleCnt) ∧
      (((schedRequeue task thread s.sched).tasks p).status = .waiting → p ≠ task →
        (s.sched.tasks p).status = .waiting) := by
    intro p
    by_cases hp : p = task
    · simp [schedRequeue, hp]
    · simp [schedRequeue, hp]
  have hstart : ∀ p, ChoiceState.start { s.next (schedRequeue task thread s.sched) s.now with
      requeued := update s.requeued task (some s.now) } p =
        if p = task then s.now + 1 else s.start p := by
    intro p
    by_cases hp : p = task
    · simp [ChoiceState.start, hp]
    · simp [ChoiceState.start, hp, ChoiceState.next]
  refine h.keep rfl rfl rfl (le_refl _) (fun p => (hfields p).1) (fun p hp => ?_) (fun p => ?_)
    fun p hp => ?_
  · have hne : p ≠ task := by
      rintro rfl
      exact absurd hp.2 (by simp)
    have hbefore := (hfields p).2.2 hp.1 hne
    refine ⟨⟨hbefore, ?_⟩, if_pos hbefore⟩
    rw [← hp.2]
    exact (update_of_ne hne ..).symm
  · rw [hstart]
    split_ifs
    · exact le_refl _
    · exact h.start_le p
  · rw [hstart]
    refine (congrArg (· + 1#64) (hfields p).2.1).trans ?_
    split_ifs
    · change taskMaxPriority + 1#64 = BitVec.ofNat 64 (s.now + 1 - (s.now + 1))
      rw [Nat.sub_self]
      decide
    · exact h.count p hp

theorem ChoiceInv.count_next (h : ChoiceInv s) (hp : p ∈ s.tasks) :
    (s.sched.tasks p).idleCnt + 1#64 + 1#64 = BitVec.ofNat 64 (s.now + 1 + 1 - s.start p) := by
  rw [h.count p hp, Nat.sub_add_comm (h.start_le p), BitVec.ofNat_add]

theorem ChoiceInv.switched {task thread : ℕ}
    (h : ChoiceInv s) (hr : reschedule regs s.sched = some (.switched task thread, a)) :
    ChoiceInv ((s.next a (s.now + 1)).resume (.switched task thread)) := by
  have heffect := reschedule_effect hr h.nodup
  have hlist := reschedule_taskList hr
  have htranslate : ∀ pid, schedTranslatePid a pid = schedTranslatePid s.sched pid := by
    intro pid
    rw [schedTranslatePid, hlist, schedTranslatePid]
  have hpid : ∀ p, (a.tasks p).pid = (s.sched.tasks p).pid := by
    intro p
    obtain ⟨n, status, waiting, hp, -⟩ := reschedule_task hr p
    rw [hp]
  obtain ⟨hmem, hrunning, hzero⟩ : task ∈ s.tasks ∧ (a.tasks task).status = .running ∧
      (a.tasks task).idleCnt = 0#64 := by
    obtain ⟨_, -, htask⟩ | ⟨hne, -⟩ := heffect task
    · exact htask
    · exact absurd rfl (hne thread)
  have hother : ∀ p ≠ task, (p ∈ s.tasks → (a.tasks p).idleCnt = (s.sched.tasks p).idleCnt + 1#64) ∧
      ((a.tasks p).status = (s.sched.tasks p).status ∨
        s.sched.core.Busy ∧ s.sched.currentTask = some p) := by
    intro p hp
    obtain ⟨_, heq, -⟩ | ⟨-, hcount, hstatus⟩ := heffect p
    · exact absurd (Resumed.switched.inj heq).1.symm hp
    · exact ⟨hcount, hstatus.imp_right fun hlast => ⟨hlast.1, hlast.2.1⟩⟩
  generalize hs' : (s.next a (s.now + 1)).resume (.switched task thread) = s'
  have hran : ∀ p, s'.ran p = if p = task then s.now + 1 else s.ran p := by
    intro p
    rw [← hs', ← update_apply]
    rfl
  have hstart : ∀ p, s'.start p = if p = task then s.now + 1 else s.start p := by
    intro p
    by_cases hp : p = task
    · simp [← hs', ChoiceState.start, ChoiceState.resume, ChoiceState.next, hp]
    · simp [← hs', ChoiceState.start, ChoiceState.resume, ChoiceState.next, hp]
  have hnow : s'.now = s.now + 1 := by rw [← hs']; rfl
  have hsched : s'.sched = a := by rw [← hs']; rfl
  have htasks : s'.tasks = s.tasks := by rw [ChoiceState.tasks, hsched, hlist, ChoiceState.tasks]
  -- A task that waits has done so before, or has just lost the core, as the last that had it.
  have hwaits : ∀ p, s'.Preempted p → p ≠ task ∧ (s.Preempted p ∧ s'.since p = s.since p ∨
      s'.since p = s.now + 1 ∧ 0 < s.ran p ∧ ∀ p', s.ran p' ≤ s.ran p) := by
    rintro p ⟨hwait, hnone⟩
    rw [hsched] at hwait
    have hp : p ≠ task := by
      rintro rfl
      exact absurd (hrunning.symm.trans hwait) (by decide)
    have hbefore : s.requeued p = none := by
      rw [← hnone, ← hs']
      exact (update_of_ne hp ..).symm
    have hsince : s'.since p =
        if (s.sched.tasks p).status = .waiting then s.since p else s.now + 1 := by
      rw [← hs']
      rfl
    refine ⟨hp, ?_⟩
    by_cases hwaited : (s.sched.tasks p).status = .waiting
    · rw [if_pos hwaited] at hsince
      exact .inl ⟨⟨hwaited, hbefore⟩, hsince⟩
    · rw [if_neg hwaited] at hsince
      rcases (hother p hp).2 with hstatus | ⟨hbusy, hcur⟩
      · exact absurd (hstatus.symm.trans hwait) hwaited
      · exact .inr ⟨hsince, (h.current p hbusy hcur).1, (h.current p hbusy hcur).2.1⟩
  have hle := h.ran_le
  refine ⟨htasks ▸ h.nodup, fun p hp => ?_, fun p => ?_, fun p hp => ?_, fun p => ?_, fun p p' => ?_,
    fun p _ hcur => ?_, fun p hp => ?_, fun p hp => ?_, fun p p' hp => ?_⟩
  · rw [hsched, hpid, htranslate]
    exact h.keyed p (htasks ▸ hp)
  · have hbound := h.start_le p
    rw [hstart]
    split_ifs <;> omega
  · rw [htasks] at hp
    rw [hsched, hstart, hnow]
    split_ifs with hpt
    · rw [hpt, hzero, show s.now + 1 + 1 - (s.now + 1) = 1 by omega]
      rfl
    · rw [(hother p hpt).1 hp]
      exact h.count_next hp
  · have hbound := hle p
    rw [hran]
    split_ifs <;> omega
  · have hinj := h.ran_inj p p'
    rw [hran]
    split_ifs <;> grind
  · have hcurrent : s'.sched.currentTask = some task := by
      rw [hsched, SchedState.currentTask, htranslate, reschedule_pid hr]
      exact h.keyed task hmem
    obtain rfl := Option.some.inj (hcurrent.symm.trans hcur)
    refine ⟨by rw [hran, if_pos rfl]; omega, fun p' => ?_, fun hp => (hwaits task hp).1 rfl⟩
    have hbound := hle p'
    rw [hran, hran]
    split_ifs <;> omega
  all_goals
    obtain ⟨hpt, ⟨hbefore, hsince⟩ | ⟨hsince, hpos, hlast⟩⟩ := hwaits p hp
  all_goals
    have hbound := hle p
    rw [hran, if_neg hpt, hsince]
  · have hsince_le := h.ran_le_since p hbefore
    omega
  · omega
  · exact h.first p hbefore
  · omega
  · have hsince_le := h.ran_le_since p hbefore
    have hlater := h.since_le p p' hbefore
    rw [hran]
    split_ifs <;> omega
  · have hlater := hlast p'
    rw [hran]
    split_ifs <;> omega

theorem ChoiceInv.tick {r : Resumed} (h : ChoiceInv s)
    (hr : reschedule regs s.sched = some (r, a)) :
    ChoiceInv ((s.next a (s.now + 1)).resume r) := by
  rcases reschedule_cases hr with ⟨haged, hne⟩ | ⟨task, thread, s₁, s₂, rfl, -⟩
  · have hstay : (s.next a (s.now + 1)).resume r = s.next a (s.now + 1) := by
      cases r with
      | switched task thread => exact absurd rfl (hne task thread)
      | _ => rfl
    have hpid : ∀ p, (a.tasks p).pid = (s.sched.tasks p).pid := by
      intro p
      obtain ⟨n, hp⟩ := haged.tasks p
      rw [hp]
    rw [hstay]
    refine h.keep haged.taskList haged.core rfl (Nat.le_succ _) hpid (fun p hp => ?_)
      (fun p => (h.start_le p).trans (Nat.le_succ _)) fun p hp => ?_
    all_goals
      obtain ⟨thread, heq, -⟩ | ⟨-, hcount, hstatus⟩ := reschedule_effect hr h.nodup p
      · exact absurd heq (hne p thread)
    · rcases hstatus with hstatus | ⟨-, -, task, thread, heq⟩
      · have hbefore := hstatus.symm.trans hp.1
        exact ⟨⟨hbefore, hp.2⟩, if_pos hbefore⟩
      · exact absurd heq (hne task thread)
    · exact (congrArg (· + 1#64) (hcount hp)).trans (h.count_next hp)
  · exact h.switched hr

theorem ChoiceInv.step {op : ChoiceOp} (h : ChoiceInv s) (hstep : choiceStep s op s') :
    ChoiceInv s' := by
  cases op with
  | tick regs =>
    obtain ⟨⟨r, a⟩, hr, rfl⟩ := Option.map_eq_some_iff.mp hstep
    exact h.tick hr
  | dequeue task thread =>
    cases hstep
    exact h.dequeue task thread
  | requeue task thread =>
    cases hstep
    exact h.requeue task thread

/-! ## The choice -/

theorem ChoiceInv.count_toNat (h : ChoiceInv s) (hnow : s.now + 1 < 2 ^ 64)
    (hp : p ∈ s.tasks) :
    ((s.sched.tasks p).idleCnt + 1#64).toNat = s.now + 1 - s.start p := by
  rw [h.count p hp]
  exact Nat.mod_eq_of_lt (by omega)

theorem ChoiceInv.chosen (h : ChoiceInv s) (hnow : s.now + 1 < 2 ^ 64)
    (hret : (findNextTask s.sched).ret = some p) :
    s.Waits p ∧ s.start p ≤ s.now ∧ ∀ p', s.Waits p' → s.start p ≤ s.start p' := by
  have hscan := taskQueue.oldestSoFar_findNext s.sched.tasks h.nodup
  have hwaits := (taskQueue.scanned_findNext _ _).ret p hret
  have hp := h.count_toNat hnow hwaits.1
  have hne : (s.sched.tasks p).idleCnt + 1#64 ≠ 0#64 := by
    obtain ⟨hcnt, hne⟩ := hscan.taken p hret
    rwa [hcnt] at hne
  have hpos := pos_of_ne_zero fun hzero => hne (BitVec.eq_of_toNat_eq hzero)
  refine ⟨hwaits, by omega, fun p' hp' => ?_⟩
  have hle : ((s.sched.tasks p').idleCnt + 1#64).toNat ≤
      ((s.sched.tasks p).idleCnt + 1#64).toNat :=
    taskQueue.findNext_oldest h.nodup hret hp'.1 hp'.2
  have hp'' := h.count_toNat hnow hp'.1
  omega

theorem ChoiceInv.none_chosen (h : ChoiceInv s) (hnow : s.now + 1 < 2 ^ 64)
    (hret : (findNextTask s.sched).ret = none) (hp : s.Waits p) :
    s.start p = s.now + 1 := by
  have hscan := taskQueue.oldestSoFar_findNext s.sched.tasks h.nodup
  have hle : ((s.sched.tasks p).idleCnt + 1#64).toNat ≤ (0#64).toNat :=
    hscan.none_taken hret ▸ hscan.oldest p hp.1 hp.2
  have hcount := h.count_toNat hnow hp.1
  have hstart := h.start_le p
  rw [BitVec.toNat_zero] at hle
  omega

theorem ChoiceState.start_of_none (h : s.requeued p = none) : s.start p = s.ran p := by
  rw [ChoiceState.start, h]
  rfl

theorem ChoiceState.start_of_some {t : ℕ} (h : s.requeued p = some t) : s.start p = t + 1 := by
  rw [ChoiceState.start, h]
  rfl

theorem ChoiceInv.since_le_since (h : ChoiceInv s) {p' : ℕ} (hp : s.Preempted p)
    (hp' : s.Preempted p') (hran : s.ran p ≤ s.ran p') : s.since p ≤ s.since p' := by
  rcases lt_or_eq_of_le hran with hlt | heq
  · exact (h.since_le p p' hp hlt).trans (h.ran_le_since p' hp').1
  · rcases h.ran_inj p p' heq with rfl | hzero
    · exact le_refl _
    · rw [h.first p hp hzero]
      exact Nat.zero_le _

/-- **When the choice is right**, in a run of less than `2 ^ 64` interrupts: if the tasks that were
woken come two interrupts before the others. -/
theorem right_choice_of_woken_early {s₀ : ChoiceState} {tr : List (Event ChoiceState ChoiceOp)}
    (h₀ : Booted s₀) (run : Run choiceStep s₀ tr s) (hnow : s.now + 1 < 2 ^ 64) :
    (WokenEarly 2 s → RightChoice s) ∧ (RightChoice s → WokenEarly 1 s) := by
  have h : ChoiceInv s := run.invariant (I := fun _ s => ChoiceInv s) h₀.inv
    fun _ _ _ _ hinv hstep => hinv.step hstep
  constructor
  · intro hwoken
    refine ⟨⟨fun hret p hp => ?_, fun hnone => ?_⟩, fun p hret => ?_⟩
    · have hstart := h.none_chosen hnow hret hp
      have hrequeued : s.requeued p ≠ none := by
        intro hnone
        rw [ChoiceState.start_of_none hnone] at hstart
        have hle := h.ran_le p
        omega
      obtain ⟨q, t, hq, ht, hlt, -⟩ := hwoken ⟨p, hp, hrequeued⟩
      have hlast := h.none_chosen hnow hret hq
      rw [ChoiceState.start_of_some ht] at hlast
      omega
    · exact Option.eq_none_iff_forall_ne_some.mpr fun p hret => hnone p (h.chosen hnow hret).1
    · obtain ⟨hp, -, hfirst⟩ := h.chosen hnow hret
      refine ⟨hp, fun p' hp' => ?_⟩
      by_cases hnone : s.requeued p = none
      · -- No task that was woken waits: it would have been chosen.
        have hothers : ∀ q, s.Waits q → s.requeued q = none := by
          intro q hq
          by_contra hsome
          obtain ⟨q', t, hq', ht, -, hgap⟩ := hwoken ⟨q, hq, hsome⟩
          have hle := hfirst q' hq'
          have hran := hgap p hp hnone
          rw [ChoiceState.start_of_some ht, ChoiceState.start_of_none hnone] at hle
          omega
        have hle := hfirst p' hp'
        rw [ChoiceState.start_of_none hnone, ChoiceState.start_of_none (hothers p' hp')] at hle
        exact .inr ⟨hothers p' hp', h.since_le_since ⟨hp.2, hnone⟩ ⟨hp'.2, hothers p' hp'⟩ hle⟩
      · exact .inl hnone
  · rintro hright ⟨q₀, hq₀, hsome⟩
    cases hret : (findNextTask s.sched).ret with
    | none => exact absurd hq₀ (hright.none.mp hret q₀)
    | some q =>
      obtain ⟨hq, hstart, hfirst⟩ := h.chosen hnow hret
      have hwoken : s.requeued q ≠ none :=
        ((hright.longest q hret).2 q₀ hq₀).resolve_right fun hnone => hsome hnone.1
      obtain ⟨t, ht⟩ := Option.ne_none_iff_exists'.mp hwoken
      rw [ChoiceState.start_of_some ht] at hstart hfirst
      refine ⟨q, t, hq, ht, hstart, fun p hp hnone => ?_⟩
      have hle := hfirst p hp
      rwa [ChoiceState.start_of_none hnone] at hle

theorem ChoiceInv.start_step {op : ChoiceOp} (h : ChoiceInv s) (hstep : choiceStep s op s')
    (q : ℕ) :
    s.start q ≤ s'.start q ∧ (s'.ran q ≠ s.ran q → s.now < s'.start q) := by
  have hle := h.start_le q
  cases op with
  | tick regs =>
    obtain ⟨⟨r, a⟩, -, rfl⟩ := Option.map_eq_some_iff.mp hstep
    cases r with
    | switched task thread =>
      by_cases hq : q = task
      · subst hq
        simpa [ChoiceState.start, ChoiceState.resume, ChoiceState.next] using hle
      · simp [ChoiceState.start, ChoiceState.resume, ChoiceState.next, hq]
    | _ => exact ⟨le_refl _, absurd rfl⟩
  | dequeue task thread =>
    cases hstep
    exact ⟨le_refl _, absurd rfl⟩
  | requeue task thread =>
    cases hstep
    refine ⟨?_, absurd rfl⟩
    by_cases hq : q = task
    · subst hq
      simpa [ChoiceState.start] using hle
    · simp [ChoiceState.start, ChoiceState.next, hq]

/-- **The core is taken in turns**, in a run of less than `2 ^ 64` interrupts: when a task that has
had the core is chosen again, every task that waits has had it since, or was woken since. -/
theorem core_taken_in_turns {s₀ : ChoiceState} {tr : List (Event ChoiceState ChoiceOp)}
    (h₀ : Booted s₀) (run : Run choiceStep s₀ tr s) (hnow : s.now + 1 < 2 ^ 64) {q : ℕ}
    (hagain : (findNextTask s.sched).ret = some q) :
    ∀ e ∈ tr, e.post.ran q ≠ e.pre.ran q → ∀ p, s.Waits p →
      e.pre.now < s.ran p ∨ ∃ t, s.requeued p = some t ∧ e.pre.now ≤ t := by
  obtain ⟨hinv, hturn⟩ : ChoiceInv s ∧
      ∀ e ∈ tr, e.post.ran q ≠ e.pre.ran q → e.pre.now < s.start q := by
    refine run.invariant (I := fun tr s => ChoiceInv s ∧
      ∀ e ∈ tr, e.post.ran q ≠ e.pre.ran q → e.pre.now < s.start q) ⟨h₀.inv, by simp⟩ ?_
    rintro tr s op s' ⟨hinv, hturn⟩ hstep
    obtain ⟨hmono, hnew⟩ := hinv.start_step hstep q
    refine ⟨hinv.step hstep, fun e he hran => ?_⟩
    rcases List.mem_append.mp he with he | he
    · exact (hturn e he hran).trans_le hmono
    · obtain rfl := List.mem_singleton.mp he
      exact hnew hran
  intro e he hran p hp
  -- The task that is chosen has the first start of all that wait.
  have hlt := (hturn e he hran).trans_le ((hinv.chosen hnow hagain).2.2 p hp)
  cases hwoken : s.requeued p with
  | none => exact .inl (ChoiceState.start_of_none hwoken ▸ hlt)
  | some t =>
    rw [ChoiceState.start_of_some hwoken] at hlt
    exact .inr ⟨t, rfl, Nat.le_of_lt_succ hlt⟩

end Invariant

/-! ## Two tasks -/

def twoWaiting : ChoiceState where
  sched :=
    { tasks := fun p => { SchedTask.zeroed with
        pid := BitVec.ofNat 64 (p + 1)
        status := .waiting
        threadList := hashTablePush addressHash HashTable.empty 0#64 p }
      threads := fun _ => { SchedThread.zeroed with status := .waiting }
      events := fun _ => ⟨0, 0, 0#32⟩
      triggers := fun _ => ⟨0, none, .procExit⟩
      taskList := hashTablePush addressHash (hashTablePush addressHash HashTable.empty 1#64 0) 2#64 1
      core := ⟨0#64, 0#64, 0#64, -1#64, -1#64, 0, 0#64, 0#64⟩ }
  now := 0
  ran _ := 0
  since _ := 0
  requeued _ := none

theorem booted_twoWaiting : Booted twoWaiting where
  nodup := by decide +kernel
  keyed := by decide +kernel
  idle := by decide
  counts _ _ := rfl
  now := rfl
  ran _ := rfl
  since _ := rfl
  requeued _ := rfl

/-- **A task that was woken is chosen**: the task at 0 is woken before the interrupt at which the
task at 1 gets the core. -/
theorem right_choice_of_woken_early_one_woken : ∃ tr s, Run choiceStep twoWaiting tr s ∧
    tr.map Event.act = [.dequeue 0 0, .requeue 0 0, .tick default] ∧ s.Waits 0 ∧
    s.requeued 0 = some 0 ∧ (findNextTask s.sched).ret = some 0 ∧ RightChoice s := by
  obtain ⟨tr, s, run, hacts, hnow, hwaits, hrequeued, hret, hothers⟩ := Run.computed
    (f := choiceNext) (P := fun _ s => s.now = 1 ∧
      (0 ∈ s.tasks ∧ (s.sched.tasks 0).status = .waiting) ∧ s.requeued 0 = some 0 ∧
      (findNextTask s.sched).ret = some 0 ∧
      ∀ p ∈ s.tasks, (s.sched.tasks p).status = .waiting → p = 0)
    twoWaiting [.dequeue 0 0, .requeue 0 0, .tick default] (by decide +kernel)
  refine ⟨tr, s, run, hacts, hwaits, hrequeued, hret,
    (right_choice_of_woken_early booted_twoWaiting run (by omega)).1 fun _ => ?_⟩
  refine ⟨0, 0, hwaits, hrequeued, by omega, fun p hp hnone => ?_⟩
  rw [hothers p hp.1 hp.2, hrequeued] at hnone
  cases hnone

/-- **A task that was woken is passed over**: the task at 0 sleeps, and the task at 1 is woken. -/
theorem woken_task_passed_over : Booted twoWaiting ∧ ∃ tr s, Run choiceStep twoWaiting tr s ∧
    tr.map Event.act = [.dequeue 0 0, .requeue 1 1] ∧ s.Waits 1 ∧ s.requeued 1 = some 0 ∧
    (findNextTask s.sched).ret = none ∧ ¬ RightChoice s := by
  obtain ⟨tr, s, run, hacts, ⟨hmem, hstatus⟩, hrequeued, hret⟩ := Run.computed (f := choiceNext)
    (P := fun _ s => (1 ∈ s.tasks ∧ (s.sched.tasks 1).status = .waiting) ∧ s.requeued 1 = some 0 ∧
      (findNextTask s.sched).ret = none) twoWaiting [.dequeue 0 0, .requeue 1 1] (by decide +kernel)
  have hwaits : s.Waits 1 := ⟨hmem, hstatus⟩
  exact ⟨booted_twoWaiting, tr, s, run, hacts, hwaits, hrequeued, hret,
    fun hright => hright.none.mp hret 1 hwaits⟩

theorem core_taken_in_turns_second : ∃ tr s, Run choiceStep twoWaiting tr s ∧
    tr.map Event.act = [.tick default, .tick default] ∧ (findNextTask s.sched).ret = some 0 ∧
    ∀ e ∈ tr, e.post.ran 0 ≠ e.pre.ran 0 → ∀ p, s.Waits p →
      e.pre.now < s.ran p ∨ ∃ t, s.requeued p = some t ∧ e.pre.now ≤ t := by
  obtain ⟨tr, s, run, hacts, hnow, hret⟩ := Run.computed (f := choiceNext) (P := fun _ s => s.now = 2 ∧
    (findNextTask s.sched).ret = some 0) twoWaiting [.tick default, .tick default]
    (by decide +kernel)
  exact ⟨tr, s, run, hacts, hret, core_taken_in_turns booted_twoWaiting run (by omega) hret⟩

end Pastoral
