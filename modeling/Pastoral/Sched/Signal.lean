import Pastoral.Sched.Reschedule

/-!
# Signals

`sigaction`, `sigprocmask` and `signal_send` of `signal.c`, and the loop of `reschedule` that
delivers.

## Main results

* `delivers_iff`: when a switch delivers what is pending and not blocked
-/

open Function Option Transition

namespace Pastoral

/-! ## The functions -/

abbrev sigkill : ℤ := 9
abbrev sigstop : ℤ := 19

def sigMask (sig : ℤ) : BitVec 64 := 1#64 <<< ((sig - 1) % 64).toNat

def signalIndex (sig : ℤ) : Option (Fin signalMax) :=
  if h : 1 ≤ sig ∧ sig ≤ 34 then some ⟨(sig - 1).toNat, by simp only [signalMax]; omega⟩ else none

def signalIsValid (sig : ℤ) : ℤ := if sig < 1 ∨ sig > signalMax then -1 else 0

def sigaction (sig : ℤ) (act : Option Sigaction) (s : SchedState) :
    Option (ℤ × Option Sigaction × SchedState) :=
  s.currentTask.map fun task =>
    match signalIndex sig with
    | none => (-1, none, s.setErrno errnoEINVAL)
    | some i =>
      if sig = sigkill ∨ sig = sigstop then (-1, none, s.setErrno errnoEINVAL)
      else
        let old := (s.tasks task).sigactions i
        match act with
        | none => (0, some old, s)
        | some act =>
          let action := { act with
            saMask := act.saMask &&& ~~~(sigMask sigkill ||| sigMask sigstop) }
          (0, some old,
            { s with
              tasks := update s.tasks task
                { s.tasks task with
                  sigactions := update (s.tasks task).sigactions i action } })

def sigprocmask (how : ℤ) (set : Option (BitVec 64)) (s : SchedState) :
    Option (ℤ × BitVec 64 × SchedState) :=
  s.currentThread.map fun thread =>
    let old := (s.threads thread).sigmask
    let store := fun sigmask =>
      { s with
        threads := update s.threads thread { s.threads thread with sigmask := sigmask } }
    match set, how with
    | none, _ => (0, old, s)
    | some set, 0 => (0, old, store (old ||| set))
    | some set, 1 => (0, old, store (old &&& ~~~set))
    | some set, 2 => (0, old, store set)
    | some _, _ => (-1, old, s.setErrno errnoEINVAL)

def signalCheckPermissions (sender target : SchedTask) : ℤ :=
  if sender.realUid = 0#32 ∨ sender.effectiveUid = 0#32 then 0
  else if sender.realUid = target.realUid ∨ sender.realUid = target.effectiveUid then 0
  else if sender.effectiveUid = target.realUid ∨ sender.effectiveUid = target.effectiveUid then 0
  else -1

def SignalQueue.add (q : SignalQueue) (task : ℕ) (sig : ℤ) : SignalQueue where
  queue := match signalIndex sig with
    | none => q.queue
    | some i => update q.queue i { q.queue i with sigaction := some (task, i) }
  sigpending := q.sigpending ||| sigMask sig

def signalSend (sender target : ℕ) (sig : ℤ) (s : SchedState) : Option (ℤ × SchedState) :=
  if signalIsValid sig = -1 ∧ sig ≠ 0 then some (-1, s.setErrno errnoEINVAL)
  else
    match schedTranslatePid s (s.threads sender).pid, schedTranslatePid s (s.threads target).pid with
    | some senderTask, some targetTask =>
      if signalCheckPermissions (s.tasks senderTask) (s.tasks targetTask) = -1 then
        some (-1, s.setErrno errnoEPERM)
      else
        let thread := s.threads target
        some (0,
          { s with
            threads := update s.threads target
              { thread with signalQueue := thread.signalQueue.add targetTask sig } })
    | _, _ => none

/-! ## The index the loop takes -/

section NextSignal

variable {sigpending : BitVec 64}

def Lowest (sigpending : BitVec 64) (k : ℕ) : Prop :=
  sigpending.getLsbD k = true ∧ ∀ j < k, sigpending.getLsbD j = false

instance (sigpending : BitVec 64) (k : ℕ) : Decidable (Lowest sigpending k) :=
  inferInstanceAs (Decidable
    (sigpending.getLsbD k = true ∧ ∀ j < k, sigpending.getLsbD j = false))

theorem intShift_eq_twoPow : ∀ i : Fin 31, intShift i = BitVec.twoPow 64 i := by decide

theorem and_intShift_eq_zero_iff {i : ℕ} (hi : i < 31) :
    sigpending &&& intShift i = 0#64 ↔ sigpending.getLsbD i = false := by
  rw [intShift_eq_twoPow ⟨i, hi⟩]
  exact and_twoPow_eq_zero_iff sigpending (by dsimp only; omega)

theorem getLsbD_intShift_31 {j : ℕ} (hj : j < 64) : (intShift 31).getLsbD j = decide (31 ≤ j) := by
  have hall : ∀ j : Fin 64, (intShift 31).getLsbD j = decide (31 ≤ (j : ℕ)) := by decide
  exact hall ⟨j, hj⟩

theorem and_intShift_31_eq_zero_iff :
    sigpending &&& intShift 31 = 0#64 ↔ ∀ j, 31 ≤ j → sigpending.getLsbD j = false := by
  constructor
  · intro hzero j hj
    by_cases hlt : j < 64
    · have hbit := congrArg (fun b => BitVec.getLsbD b j) hzero
      simpa [getLsbD_intShift_31 hlt, hj] using hbit
    · exact BitVec.getLsbD_of_ge _ _ (by omega)
  · intro hhigh
    refine BitVec.eq_of_getLsbD_eq fun j hj => ?_
    rw [BitVec.getLsbD_and, getLsbD_intShift_31 hj]
    by_cases h31 : 31 ≤ j
    · simp [hhigh j h31]
    · simp [h31]

theorem nextSignal_eq_some {i : Fin signalMax} (h : nextSignal sigpending = some i) :
    sigpending &&& intShift i ≠ 0#64 ∧ ∀ j < i, sigpending &&& intShift j = 0#64 := by
  obtain ⟨htest, n, hn, hget, hbefore⟩ := List.find?_eq_some_iff_getElem.mp h
  refine ⟨of_decide_eq_true htest, fun j hj => ?_⟩
  have hi : (i : ℕ) = n := by
    rw [← hget]
    simp
  have hfail := hbefore j (by omega)
  simpa using hfail

theorem nextSignal_cases (sigpending : BitVec 64) :
    (sigpending = 0#64 ∧ nextSignal sigpending = none) ∨ ∃ i, nextSignal sigpending = some i ∧
        ((i.val < 31 ∧ Lowest sigpending i) ∨
          (i.val = 31 ∧ sigpending ≠ 0#64 ∧ ∀ j < 31, sigpending.getLsbD j = false)) := by
  cases hnext : nextSignal sigpending with
  | none =>
    -- Every test has failed, and together the tests cover all bits.
    have hall : ∀ i : Fin signalMax, sigpending &&& intShift i = 0#64 := by
      intro i
      have hfail := List.find?_eq_none.mp hnext i (List.mem_finRange i)
      simpa using hfail
    refine .inl ⟨BitVec.eq_of_getLsbD_eq fun j hj => ?_, rfl⟩
    rw [BitVec.getLsbD_zero]
    by_cases hlow : j < 31
    · exact (and_intShift_eq_zero_iff hlow).mp (hall ⟨j, by simp only [signalMax]; omega⟩)
    · exact and_intShift_31_eq_zero_iff.mp (hall ⟨31, by decide⟩) j (by omega)
  | some i =>
    obtain ⟨htest, hbefore⟩ := nextSignal_eq_some hnext
    have hlow : ∀ j < 31, j < i.val → sigpending.getLsbD j = false := fun j hj hlt =>
      (and_intShift_eq_zero_iff hj).mp (hbefore ⟨j, by omega⟩ hlt)
    refine .inr ⟨i, rfl, ?_⟩
    rcases lt_trichotomy i.val 31 with hi | hi | hi
    · refine .inl ⟨hi, ?_, fun j hj => hlow j (by omega) hj⟩
      rwa [Ne, and_intShift_eq_zero_iff hi, Bool.not_eq_false] at htest
    · refine .inr ⟨hi, ?_, fun j hj => hlow j hj (by omega)⟩
      rintro rfl
      exact htest (by simp)
    · -- The test of index 32 or 33 is one that has failed before.
      have hsame : intShift i = intShift (i - 32) := by
        unfold intShift
        congr 2
        omega
      rw [hsame] at htest
      exact absurd (hbefore ⟨i - 32, by omega⟩ (by rw [Fin.lt_def]; dsimp only; omega)) htest

theorem clear_low {i : ℕ} (hi : i < 31) :
    sigpending &&& ~~~intShift i = sigpending &&& ~~~BitVec.twoPow 64 i := by
  rw [intShift_eq_twoPow ⟨i, hi⟩]

theorem clear_high (hlow : ∀ j < 31, sigpending.getLsbD j = false) :
    sigpending &&& ~~~intShift 31 = 0#64 := by
  refine BitVec.eq_of_getLsbD_eq fun j hj => ?_
  rw [BitVec.getLsbD_and, BitVec.getLsbD_not, getLsbD_intShift_31 hj]
  by_cases h31 : 31 ≤ j
  · simp [h31]
  · simp [hlow j (by omega)]

end NextSignal

/-! ## What a switch does to the chosen thread -/

section Switch

variable {regs : Registers} {s s' : SchedState} {task thread : ℕ}

def resumeRegs (regs : Registers) (s : SchedState) (thread : ℕ) : Registers :=
  if s.core.Busy ∧ s.currentThread = some thread then regs else (s.threads thread).regs

theorem Registers.enterHandler_rip (regs : Registers) (action : Sigaction) (signum : BitVec 32) :
    (regs.enterHandler action signum).rip = action.handler := by
  unfold Registers.enterHandler
  split_ifs <;> rfl

theorem Registers.enterHandler_rdi (regs : Registers) (action : Sigaction) (signum : BitVec 32) :
    (regs.enterHandler action signum).rdi = signum.signExtend 64 := by
  unfold Registers.enterHandler
  split_ifs <;> rfl

theorem Left.thread_eq {s₁ s₂ : SchedState} (haged : Aged s s₁) (h : Left regs s₁ s₂) (thread : ℕ) :
    (s₂.threads thread).regs = resumeRegs regs s thread ∧
      (s₂.threads thread).signalQueue = (s.threads thread).signalQueue := by
  obtain ⟨n, hn⟩ := haged.threads thread
  unfold resumeRegs
  rcases h with ⟨hidle, rfl⟩ | ⟨hbusy, lastTask, lastThread, -, hlast, rfl⟩
  · rw [haged.core] at hidle
    rw [if_neg fun hboth => hidle hboth.1, hn]
    exact ⟨rfl, rfl⟩
  · rw [haged.core] at hbusy
    rw [haged.currentThread] at hlast
    by_cases hthread : thread = lastThread
    · subst hthread
      rw [if_pos ⟨hbusy, hlast⟩]
      simp [saveLast, hn]
    · have hne : s.currentThread ≠ some thread := by
        rw [hlast]
        exact fun heq => hthread (some.inj heq).symm
      rw [if_neg fun hboth => hne hboth.2]
      simp [saveLast, hthread, hn]

theorem switched_thread (h : reschedule regs s = some (.switched task thread, s')) :
    Chosen s task thread ∧ match nextSignal (s.threads thread).signalQueue.sigpending with
      | none => (s'.threads thread).regs = resumeRegs regs s thread ∧
          (s'.threads thread).signalQueue = (s.threads thread).signalQueue
      | some i => ∃ owner j, ((s.threads thread).signalQueue.queue i).sigaction = some (owner, j) ∧
          (s'.threads thread).regs.rip = ((s.tasks owner).sigactions j).handler ∧
          (s'.threads thread).regs.rdi =
            ((s.threads thread).signalQueue.queue i).signum.signExtend 64 ∧
          (s'.threads thread).signalQueue.sigpending =
            (s.threads thread).signalQueue.sigpending &&& ~~~intShift i := by
  rcases reschedule_cases h with ⟨-, hne⟩ | ⟨task', thread', s₁, s₂, heq, haged, hchosen, hleft, hin⟩
  · exact absurd rfl (hne task thread)
  obtain ⟨rfl, rfl⟩ := Resumed.switched.inj heq
  refine ⟨hchosen, ?_⟩
  obtain ⟨hregs, hqueue⟩ := hleft.thread_eq haged thread
  obtain ⟨next, hdeliver, rfl⟩ := map_eq_some_iff.mp hin
  unfold deliverSignal at hdeliver
  rw [hqueue] at hdeliver
  cases hnext : nextSignal (s.threads thread).signalQueue.sigpending with
  | none =>
    rw [hnext] at hdeliver
    cases hdeliver
    simpa using hregs
  | some i =>
    rw [hnext] at hdeliver
    obtain ⟨⟨owner, j⟩, haction, rfl⟩ := map_eq_some_iff.mp hdeliver
    refine ⟨owner, j, haction, ?_, ?_, ?_⟩
    · obtain ⟨n, status, hsaved, -⟩ := hleft.task_eq haged owner
      simp [Registers.enterHandler_rip, hsaved]
    · simp [Registers.enterHandler_rdi]
    · simp

end Switch

/-! ## Tasks that register, block and send -/

structure SignalState where
  sched : SchedState
  registered : ℕ → Fin signalMax → BitVec 64

inductive SignalOp
  | sigaction (sig : ℤ) (act : Option Sigaction)
  | sigprocmask (how : ℤ) (set : Option (BitVec 64))
  | send (sender target : ℕ) (sig : ℤ)
  | tick (regs : Registers)

def register (registered : ℕ → Fin signalMax → BitVec 64) (task : Option ℕ) (ret sig : ℤ)
    (act : Option Sigaction) : ℕ → Fin signalMax → BitVec 64 :=
  match task, signalIndex sig, act with
  | some task, some i, some act =>
    if ret = 0 then
      update registered task (update (registered task) i act.handler)
    else registered
  | _, _, _ => registered

def signalNext (s : SignalState) : SignalOp → Option SignalState
  | .sigaction sig act => (sigaction sig act s.sched).map fun r =>
      { sched := r.2.2
        registered := register s.registered s.sched.currentTask r.1 sig act }
  | .sigprocmask how set => (sigprocmask how set s.sched).map fun r => { s with sched := r.2.2 }
  | .send sender target sig => (signalSend sender target sig s.sched).map fun r =>
      { s with sched := r.2 }
  | .tick regs => (reschedule regs s.sched).map fun r => { s with sched := r.2 }

/-- One step. -/
def signalStep (s : SignalState) (op : SignalOp) (s' : SignalState) : Prop :=
  signalNext s op = some s'

def Belongs (s : SchedState) (task thread : ℕ) : Prop :=
  task ∈ tablePointers s.taskList ∧ thread ∈ tablePointers (s.tasks task).threadList

/-- The invariant of the queues: a thread finds its task by its `pid`, the entry of a pending
signal points to the action of that task, and the actions are the ones registered. -/
structure SignalInv (s : SignalState) : Prop where
  home : ∀ task thread, Belongs s.sched task thread →
    schedTranslatePid s.sched (s.sched.threads thread).pid = some task
  entry : ∀ task thread, Belongs s.sched task thread → ∀ i : Fin signalMax,
    (s.sched.threads thread).signalQueue.sigpending.getLsbD i = true →
      ((s.sched.threads thread).signalQueue.queue i).sigaction = some (task, i)
  action : ∀ task i, ((s.sched.tasks task).sigactions i).handler = s.registered task i

section Frames

variable {s s' s'' : SchedState}

structure LeavesSignals (s s' : SchedState) : Prop where
  taskList : s'.taskList = s.taskList
  threadList : ∀ p, (s'.tasks p).threadList = (s.tasks p).threadList
  pid : ∀ p, (s'.threads p).pid = (s.threads p).pid
  queue : ∀ p, (s'.threads p).signalQueue.queue = (s.threads p).signalQueue.queue
  pending : ∀ p i, (s'.threads p).signalQueue.sigpending.getLsbD i = true →
    (s.threads p).signalQueue.sigpending.getLsbD i = true
  actions : ∀ p, (s'.tasks p).sigactions = (s.tasks p).sigactions

theorem LeavesSignals.trans (h : LeavesSignals s s') (h' : LeavesSignals s' s'') :
    LeavesSignals s s'' :=
  ⟨h'.taskList.trans h.taskList, fun p => (h'.threadList p).trans (h.threadList p),
    fun p => (h'.pid p).trans (h.pid p), fun p => (h'.queue p).trans (h.queue p),
    fun p i hi => h.pending p i (h'.pending p i hi), fun p => (h'.actions p).trans (h.actions p)⟩

theorem Aged.leavesSignals (h : Aged s s') : LeavesSignals s s' := by
  refine ⟨h.taskList, h.threadList, fun p => ?_, fun p => ?_, fun p i => ?_, fun p => ?_⟩
  · obtain ⟨n, hn⟩ := h.threads p
    rw [hn]
  · obtain ⟨n, hn⟩ := h.threads p
    rw [hn]
  · obtain ⟨n, hn⟩ := h.threads p
    rw [hn]
    exact id
  · obtain ⟨n, hn⟩ := h.tasks p
    rw [hn]

theorem leavesSignals_update {task thread : ℕ} (t : SchedTask) (th : SchedThread) (core : CpuLocal)
    (hlist : t.threadList = (s.tasks task).threadList)
    (hactions : t.sigactions = (s.tasks task).sigactions)
    (hpid : th.pid = (s.threads thread).pid)
    (hqueue : th.signalQueue.queue = (s.threads thread).signalQueue.queue)
    (hpending : ∀ i, th.signalQueue.sigpending.getLsbD i = true →
      (s.threads thread).signalQueue.sigpending.getLsbD i = true) :
    LeavesSignals s { s with
      tasks := update s.tasks task t
      threads := update s.threads thread th
      core := core } := by
  refine ⟨rfl, fun p => ?_, fun p => ?_, fun p => ?_, fun p i => ?_, fun p => ?_⟩
  · by_cases hp : p = task
    · simpa [hp] using hlist
    · simp [hp]
  · by_cases hp : p = thread
    · simpa [hp] using hpid
    · simp [hp]
  · by_cases hp : p = thread
    · simpa [hp] using hqueue
    · simp [hp]
  · by_cases hp : p = thread
    · simpa [hp] using hpending i
    · simp [hp]
  · by_cases hp : p = task
    · simpa [hp] using hactions
    · simp [hp]

theorem leavesSignals_switchIn {task thread : ℕ} (h : switchIn task thread s = some s') :
    LeavesSignals s s' := by
  obtain ⟨next, hdeliver, rfl⟩ := map_eq_some_iff.mp h
  -- The loop changes the registers, and `sigpending` by clearing bits.
  have hnext : next.pid = (s.threads thread).pid ∧
      next.signalQueue.queue = (s.threads thread).signalQueue.queue ∧
      ∀ i, next.signalQueue.sigpending.getLsbD i = true →
        (s.threads thread).signalQueue.sigpending.getLsbD i = true := by
    unfold deliverSignal at hdeliver
    split at hdeliver
    · cases hdeliver
      exact ⟨rfl, rfl, fun _ => id⟩
    · obtain ⟨⟨owner, j⟩, -, rfl⟩ := map_eq_some_iff.mp hdeliver
      refine ⟨rfl, rfl, fun i hi => ?_⟩
      rw [BitVec.getLsbD_and, Bool.and_eq_true] at hi
      exact hi.1
  exact leavesSignals_update _ next _ rfl rfl hnext.1 hnext.2.1 hnext.2.2

theorem leavesSignals_reschedule {regs : Registers} {r : Resumed}
    (h : reschedule regs s = some (r, s')) : LeavesSignals s s' := by
  rcases reschedule_cases h with ⟨haged, -⟩ | ⟨task, thread, s₁, s₂, -, haged, -, hleft, hin⟩
  · exact haged.leavesSignals
  · have hsaved : LeavesSignals s₁ s₂ := by
      rcases hleft with ⟨-, rfl⟩ | ⟨-, lastTask, lastThread, -, -, rfl⟩
      · exact ⟨rfl, fun _ => rfl, fun _ => rfl, fun _ => rfl, fun _ _ => id, fun _ => rfl⟩
      · exact leavesSignals_update _ _ _ rfl rfl rfl rfl fun _ => id
    exact (haged.leavesSignals.trans hsaved).trans (leavesSignals_switchIn hin)

end Frames

section Steps

variable {s s' : SignalState} {op : SignalOp}

theorem SignalInv.of_leaves {sched : SchedState} (h : SignalInv s)
    (hleaves : LeavesSignals s.sched sched) : SignalInv { s with sched := sched } := by
  have hbelongs : ∀ task thread, Belongs sched task thread → Belongs s.sched task thread := by
    intro task thread hb
    unfold Belongs at hb ⊢
    rwa [hleaves.taskList, hleaves.threadList] at hb
  refine ⟨fun task thread hb => ?_, fun task thread hb i hi => ?_, fun task i => ?_⟩
  · have hhome := h.home task thread (hbelongs task thread hb)
    unfold schedTranslatePid at hhome ⊢
    rwa [hleaves.taskList, hleaves.pid]
  · rw [hleaves.queue]
    exact h.entry task thread (hbelongs task thread hb) i (hleaves.pending thread i hi)
  · rw [hleaves.actions]
    exact h.action task i

theorem leavesSignals_setErrno (s : SchedState) (code : BitVec 64) :
    LeavesSignals s (s.setErrno code) :=
  ⟨rfl, fun _ => rfl, fun _ => rfl, fun _ => rfl, fun _ _ => id, fun _ => rfl⟩

theorem leavesSignals_refl (s : SchedState) : LeavesSignals s s :=
  ⟨rfl, fun _ => rfl, fun _ => rfl, fun _ => rfl, fun _ _ => id, fun _ => rfl⟩

theorem leavesSignals_sigprocmask {how : ℤ} {set : Option (BitVec 64)} {s : SchedState}
    {r : ℤ × BitVec 64 × SchedState} (h : sigprocmask how set s = some r) :
    LeavesSignals s r.2.2 := by
  obtain ⟨thread, -, rfl⟩ := map_eq_some_iff.mp h
  have hstore : ∀ sigmask, LeavesSignals s { s with
        threads := update s.threads thread { s.threads thread with sigmask := sigmask } } := by
    intro sigmask
    refine ⟨rfl, fun _ => rfl, fun p => ?_, fun p => ?_, fun p i => ?_, fun _ => rfl⟩
    · by_cases hp : p = thread <;> simp [hp]
    · by_cases hp : p = thread <;> simp [hp]
    · by_cases hp : p = thread <;> simp [hp]
  split
  · exact leavesSignals_refl s
  · exact hstore _
  · exact hstore _
  · exact hstore _
  · exact leavesSignals_setErrno s _

variable {sig : ℤ}

theorem sigaction_cases {act : Option Sigaction} {s : SchedState}
    {r : ℤ × Option Sigaction × SchedState} (h : sigaction sig act s = some r) :
    ∃ task, s.currentTask = some task ∧ ((r.1 = -1 ∧ r.2.2 = s.setErrno errnoEINVAL) ∨
        (act = none ∧ r.2.2 = s) ∨
        ∃ i new action, r.1 = 0 ∧ signalIndex sig = some i ∧ act = some new ∧
          action.handler = new.handler ∧
          r.2.2 = { s with
            tasks := update s.tasks task
              { s.tasks task with
                sigactions := update (s.tasks task).sigactions i action } }) := by
  obtain ⟨task, htask, rfl⟩ := map_eq_some_iff.mp h
  refine ⟨task, htask, ?_⟩
  cases hindex : signalIndex sig with
  | none => exact .inl ⟨rfl, rfl⟩
  | some i =>
    split_ifs with hspecial
    · exact .inl ⟨rfl, rfl⟩
    · cases act with
      | none => exact .inr (.inl ⟨rfl, rfl⟩)
      | some new =>
        exact .inr (.inr ⟨i, new,
          { new with saMask := new.saMask &&& ~~~(sigMask sigkill ||| sigMask sigstop) },
          rfl, rfl, rfl, rfl, rfl⟩)

theorem SignalInv.sigaction {act : Option Sigaction}
    {r : ℤ × Option Sigaction × SchedState} (h : SignalInv s)
    (hr : Pastoral.sigaction sig act s.sched = some r) :
    SignalInv { sched := r.2.2
                registered := register s.registered s.sched.currentTask r.1 sig act } := by
  obtain ⟨task, htask, ⟨hret, hsched⟩ | ⟨rfl, hsched⟩ |
    ⟨i, new, action, hret, hindex, rfl, hhandler, hsched⟩⟩ := sigaction_cases hr
  · have hsame : register s.registered s.sched.currentTask r.1 sig act = s.registered := by
      unfold register
      rw [hret]
      split <;> rfl
    rw [hsame, hsched]
    exact h.of_leaves (leavesSignals_setErrno _ _)
  · have hsame : register s.registered s.sched.currentTask r.1 sig none = s.registered := by
      unfold register
      split <;> trivial
    rw [hsame, hsched]
    exact h
  · rw [hsched, htask, hret]
    unfold register
    rw [hindex]
    dsimp only
    -- The lists and queues are as before; one action of one task is replaced.
    have hbelongs : ∀ t p, Belongs { s.sched with
        tasks := update s.sched.tasks task
          { s.sched.tasks task with
            sigactions := update (s.sched.tasks task).sigactions i action } } t p →
        Belongs s.sched t p := by
      rintro t p ⟨hlist, hthread⟩
      refine ⟨hlist, ?_⟩
      by_cases ht : t = task
      · subst ht
        simpa using hthread
      · simpa [ht] using hthread
    refine ⟨fun t p hb => h.home t p (hbelongs t p hb),
      fun t p hb => h.entry t p (hbelongs t p hb), fun t j => ?_⟩
    by_cases ht : t = task
    · subst ht
      by_cases hj : j = i
      · simp [hj, hhandler]
      · simp [hj, h.action]
    · simp [ht, h.action]

theorem signalIndex_of_sigMask (hvalid : signalIsValid sig ≠ -1 ∨ sig = 0)
    {i : Fin signalMax} (hbit : (sigMask sig).getLsbD i = true) : signalIndex sig = some i := by
  have hrange : 0 ≤ sig ∧ sig ≤ 34 := by
    rcases hvalid with hvalid | rfl
    · unfold signalIsValid at hvalid
      split_ifs at hvalid with hout
      · exact absurd rfl hvalid
      · simp only [signalMax] at hout
        omega
    · omega
  have hi : (i : ℕ) = ((sig - 1) % 64).toNat := by
    unfold sigMask at hbit
    rw [BitVec.getLsbD_shiftLeft, BitVec.getLsbD_one] at hbit
    simp only [Bool.and_eq_true, decide_eq_true_eq, Bool.not_eq_true',
      decide_eq_false_iff_not] at hbit
    omega
  have hlt : (i : ℕ) < 34 := i.isLt
  unfold signalIndex
  rw [dif_pos (by omega)]
  exact congrArg some (Fin.ext (by dsimp only; omega))

theorem SignalQueue.add_sigaction (q : SignalQueue) (task : ℕ) (sig : ℤ) (i : Fin signalMax) :
    ((q.add task sig).queue i).sigaction =
      if signalIndex sig = some i then some (task, i) else (q.queue i).sigaction := by
  unfold SignalQueue.add
  cases signalIndex sig with
  | none => simp
  | some j =>
    by_cases hij : i = j
    · simp [hij]
    · simp [hij, Ne.symm hij]

theorem SignalInv.send {sender target : ℕ} {r : ℤ × SchedState} (h : SignalInv s)
    (hr : signalSend sender target sig s.sched = some r) :
    SignalInv { s with sched := r.2 } := by
  unfold signalSend at hr
  split_ifs at hr with hinvalid
  · cases hr
    exact h.of_leaves (leavesSignals_setErrno _ _)
  split at hr
  · next senderTask targetTask _ htarget =>
    split_ifs at hr with hperm
    · cases hr
      exact h.of_leaves (leavesSignals_setErrno _ _)
    · cases hr
      refine ⟨fun t p hb => ?_, fun t p hb i hi => ?_, h.action⟩
      · have hhome := h.home t p hb
        unfold schedTranslatePid at hhome ⊢
        by_cases hp : p = target
        · subst hp
          simpa using hhome
        · simpa [hp] using hhome
      · have hentry := h.entry t p hb i
        by_cases hp : p = target
        · subst hp
          simp only [update_self] at hi ⊢
          -- The target belongs to the task that its `pid` names.
          have howner := some.inj ((h.home t p hb).symm.trans htarget)
          rw [SignalQueue.add, BitVec.getLsbD_or, Bool.or_eq_true] at hi
          have hvalid : signalIsValid sig ≠ -1 ∨ sig = 0 := by
            by_contra hnot
            rw [not_or, not_not] at hnot
            exact hinvalid hnot
          rw [SignalQueue.add_sigaction]
          split_ifs with hindex
          · rw [howner]
          · refine hentry (hi.resolve_right fun hbit => hindex ?_)
            exact signalIndex_of_sigMask hvalid hbit
        · simp only [update_of_ne hp] at hi ⊢
          exact hentry hi
  · simp at hr

theorem SignalInv.step (h : SignalInv s) (hstep : signalStep s op s') : SignalInv s' := by
  cases op with
  | sigaction sig act =>
    obtain ⟨r, hr, rfl⟩ := map_eq_some_iff.mp hstep
    exact h.sigaction hr
  | sigprocmask how set =>
    obtain ⟨r, hr, rfl⟩ := map_eq_some_iff.mp hstep
    exact h.of_leaves (leavesSignals_sigprocmask hr)
  | send sender target sig =>
    obtain ⟨r, hr, rfl⟩ := map_eq_some_iff.mp hstep
    exact h.send hr
  | tick regs =>
    obtain ⟨⟨r, sched⟩, hr, rfl⟩ := map_eq_some_iff.mp hstep
    exact h.of_leaves (leavesSignals_reschedule hr)

end Steps

/-! ## What a switch should do -/

section Delivery

variable {s s' : SignalState} {op : SignalOp}

def SwitchRight (regs : Registers) (s : SignalState) (task thread : ℕ) (s' : SchedState) : Prop :=
  let S := (s.sched.threads thread).signalQueue.sigpending
  let M := (s.sched.threads thread).sigmask
  let next := s'.threads thread
  if S &&& ~~~M = 0#64 then
    next.regs = resumeRegs regs s.sched thread ∧ next.signalQueue.sigpending = S
  else ∃ k : Fin signalMax, S.getLsbD k = true ∧ M.getLsbD k = false ∧
    next.regs.rip = s.registered task k ∧ next.regs.rdi = BitVec.ofNat 64 (k + 1) ∧
    next.signalQueue.sigpending = S &&& ~~~BitVec.twoPow 64 k

/-- If the step is a switch, it delivers as it should. -/
def DeliversRight (s : SignalState) : SignalOp → Prop
  | .tick regs =>
    match reschedule regs s.sched with
    | some (.switched task thread, s') => SwitchRight regs s task thread s'
    | _ => True
  | _ => True

def entryFor (k : Fin signalMax) : Fin signalMax := if k.val < 31 then k else 31

def LoopSuits (s : SignalState) (task thread : ℕ) : Prop :=
  let S := (s.sched.threads thread).signalQueue.sigpending
  let M := (s.sched.threads thread).sigmask
  let signal := fun k => (s.sched.threads thread).signalQueue.queue (entryFor k)
  S = 0#64 ∨ ∃ k : Fin signalMax, Lowest S k ∧ M.getLsbD k = false ∧
    (31 ≤ k.val → S = BitVec.twoPow 64 k) ∧
    (signal k).signum.signExtend 64 = BitVec.ofNat 64 (k + 1) ∧
    (32 ≤ k.val → ((signal k).sigaction.map fun a =>
      ((s.sched.tasks a.1).sigactions a.2).handler) = some (s.registered task k))
  deriving Decidable

/-- If the step is a switch, the loop's conditions hold for the thread. -/
def LoopRight (s : SignalState) : SignalOp → Prop
  | .tick regs =>
    match reschedule regs s.sched with
    | some (.switched task thread, _) => LoopSuits s task thread
    | _ => True
  | _ => True

instance (s : SignalState) : DecidablePred (LoopRight s)
  | .tick regs => by
    unfold LoopRight
    dsimp only
    split
    · infer_instance
    · infer_instance
  | .sigaction _ _ => .isTrue trivial
  | .sigprocmask _ _ => .isTrue trivial
  | .send _ _ _ => .isTrue trivial

variable {S : BitVec 64} {k : ℕ}

theorem twoPow_clear_inj {i : ℕ} (hi : i < 64) (hbit : S.getLsbD i = true)
    (h : S &&& ~~~BitVec.twoPow 64 i = S &&& ~~~BitVec.twoPow 64 k) : i = k := by
  have hget := congrArg (fun b => BitVec.getLsbD b i) h
  simpa [hi, hbit] using hget

theorem eq_twoPow_of_clear_eq_zero (hk : S.getLsbD k = true)
    (h : S &&& ~~~BitVec.twoPow 64 k = 0#64) : S = BitVec.twoPow 64 k := by
  refine BitVec.eq_of_getLsbD_eq fun j hj => ?_
  have hget := congrArg (fun b => BitVec.getLsbD b j) h
  by_cases hjk : k = j
  · subst hjk
    simp [hk, hj]
  · simp only [BitVec.getLsbD_and, BitVec.getLsbD_not, BitVec.getLsbD_twoPow, hj, hjk,
      decide_true, decide_false, Bool.and_false, Bool.not_false, Bool.and_true,
      BitVec.getLsbD_zero] at hget ⊢
    exact hget

theorem clear_ne {m : BitVec 64} (h : S &&& m ≠ 0#64) : S &&& ~~~m ≠ S := by
  intro heq
  refine h ?_
  calc S &&& m = (S &&& ~~~m) &&& m := by rw [heq]
    _ = S &&& (~~~m &&& m) := BitVec.and_assoc ..
    _ = 0#64 := by simp

theorem Lowest.unique {i : ℕ} (hi : Lowest S i) (hk : Lowest S k) : i = k := by
  rcases lt_trichotomy i k with hlt | heq | hlt
  · have hnot := hk.2 i hlt
    rw [hi.1] at hnot
    simp at hnot
  · exact heq
  · have hnot := hi.2 k hlt
    rw [hk.1] at hnot
    simp at hnot

theorem lowest_twoPow (hk : k < 64) : Lowest (BitVec.twoPow 64 k) k := by
  refine ⟨by simp [hk], fun j hj => ?_⟩
  simp [show ¬ k = j by omega]

variable {regs : Registers} {task thread : ℕ} {sched : SchedState}

theorem loopSuits_of_switchRight
    (hresch : reschedule regs s.sched = some (.switched task thread, sched))
    (hP : SwitchRight regs s task thread sched) : LoopSuits s task thread := by
  obtain ⟨-, hthread⟩ := switched_thread hresch
  unfold SwitchRight at hP
  unfold LoopSuits
  dsimp only at hP ⊢
  rcases nextSignal_cases (s.sched.threads thread).signalQueue.sigpending with
    ⟨hzero, -⟩ | ⟨i, hi, hcase⟩
  · exact .inl hzero
  rw [hi] at hthread
  obtain ⟨owner, j, haction, hrip, hrdi, hpending⟩ := hthread
  -- Something was cleared, so the delivery was one.
  have hchanged := clear_ne (nextSignal_eq_some hi).1
  split_ifs at hP with hempty
  · exact absurd (hpending.symm.trans hP.2) hchanged
  obtain ⟨k, hkS, hkM, hkrip, hkrdi, hkpending⟩ := hP
  refine .inr ⟨k, ?_⟩
  rcases hcase with ⟨hlow, hlowest⟩ | ⟨hhigh, -, hbelow⟩
  · rw [hpending, clear_low hlow] at hkpending
    obtain rfl : i = k := Fin.ext (twoPow_clear_inj (by omega) hlowest.1 hkpending)
    rw [entryFor, if_pos hlow]
    exact ⟨hlowest, hkM, by omega, hrdi.symm.trans hkrdi, by omega⟩
  · -- All bits from 31 on were cleared at once, so there was only one.
    obtain rfl : i = 31 := Fin.ext hhigh
    have hk : 31 ≤ k.val := by
      by_contra hlt
      rw [hbelow k (by omega)] at hkS
      simp at hkS
    rw [hpending] at hkpending
    have halone := eq_twoPow_of_clear_eq_zero hkS (hkpending.symm.trans (clear_high hbelow))
    rw [entryFor, if_neg (by omega), haction, map_some, ← hrip, ← hkrip]
    refine ⟨?_, hkM, fun _ => halone, hrdi.symm.trans hkrdi, fun _ => rfl⟩
    rw [halone]
    exact lowest_twoPow (lt_trans k.isLt (by decide))

theorem switchRight_of_loopSuits (h : SignalInv s)
    (hresch : reschedule regs s.sched = some (.switched task thread, sched))
    (hQ : LoopSuits s task thread) : SwitchRight regs s task thread sched := by
  obtain ⟨hchosen, hthread⟩ := switched_thread hresch
  unfold LoopSuits at hQ
  unfold SwitchRight
  dsimp only at hQ ⊢
  rcases hQ with hzero | ⟨k, hlowest, hkM, halone, hsignum, hhandler⟩
  · -- Nothing is pending, and the loop finds nothing.
    have hnone : nextSignal (s.sched.threads thread).signalQueue.sigpending = none := by
      rw [hzero]
      decide
    rw [hnone] at hthread
    rw [if_pos (by rw [hzero]; simp), hthread.1, hthread.2]
    exact ⟨rfl, rfl⟩
  have hbelongs : Belongs s.sched task thread := ⟨hchosen.task_mem, hchosen.thread_mem⟩
  have hentry := h.entry task thread hbelongs
  have hout : ¬ (s.sched.threads thread).signalQueue.sigpending &&&
      ~~~(s.sched.threads thread).sigmask = 0#64 := by
    intro hempty
    have hbit := congrArg (fun b => BitVec.getLsbD b k) hempty
    have hk : k.val < 64 := lt_trans k.isLt (by decide)
    simp only [BitVec.getLsbD_and, BitVec.getLsbD_not, hlowest.1, hkM, hk] at hbit
    simp at hbit
  rw [if_neg hout]
  rcases nextSignal_cases (s.sched.threads thread).signalQueue.sigpending with
    ⟨hzero, -⟩ | ⟨i, hi, hcase⟩
  · rw [hzero] at hlowest
    exact absurd hlowest.1 (by simp)
  rw [hi] at hthread
  obtain ⟨owner, j, haction, hrip, hrdi, hpending⟩ := hthread
  refine ⟨k, hlowest.1, hkM, ?_⟩
  rcases hcase with ⟨hlow, hlowest'⟩ | ⟨hhigh, -, hbelow⟩
  · obtain rfl : i = k := Fin.ext (hlowest'.unique hlowest)
    rw [entryFor, if_pos hlow] at hsignum
    rw [hentry i hlowest.1] at haction
    cases haction
    exact ⟨hrip.trans (h.action task i), hrdi.trans hsignum, hpending.trans (clear_low hlow)⟩
  · obtain rfl : i = 31 := Fin.ext hhigh
    have hk : 31 ≤ k.val := by
      by_contra hlt
      have hnot := hbelow k (by omega)
      rw [hlowest.1] at hnot
      simp at hnot
    rw [entryFor, if_neg (by omega)] at hsignum hhandler
    have hempty : (s.sched.threads thread).signalQueue.sigpending &&& ~~~BitVec.twoPow 64 k =
        0#64 := by
      rw [halone hk]
      simp
    refine ⟨?_, hrdi.trans hsignum, hpending.trans ((clear_high hbelow).trans hempty.symm)⟩
    -- Signal 32 has the entry to itself; for 33 and 34 the conditions say what it holds.
    by_cases h31 : k.val = 31
    · obtain rfl : k = 31 := Fin.ext h31
      rw [hentry 31 hlowest.1] at haction
      cases haction
      exact hrip.trans (h.action task 31)
    · have hmap := hhandler (by omega)
      rw [haction] at hmap
      exact hrip.trans (some.inj hmap)

theorem deliversRight_iff (h : SignalInv s) (op : SignalOp) :
    DeliversRight s op ↔ LoopRight s op := by
  cases op with
  | tick regs =>
    unfold DeliversRight LoopRight
    dsimp only
    split
    · next task thread sched hresch =>
      exact ⟨loopSuits_of_switchRight hresch, switchRight_of_loopSuits h hresch⟩
    · exact Iff.rfl
  | sigaction sig act => exact Iff.rfl
  | sigprocmask how set => exact Iff.rfl
  | send sender target sig => exact Iff.rfl

/-- **Delivery along every run**: from a state whose queues are in order, every switch of a run
delivers as it should if and only if the loop's conditions hold at every switch. -/
theorem delivers_iff {s₀ : SignalState} {tr : List (Event SignalState SignalOp)}
    (run : Run signalStep s₀ tr s) (h₀ : SignalInv s₀) :
    (∀ e ∈ tr, DeliversRight e.pre e.act) ↔ ∀ e ∈ tr, LoopRight e.pre e.act := by
  refine run.every_iff (I := SignalInv) h₀ (fun _ _ _ h hstep _ => h.step hstep) ?_
  intro s a s' h _
  exact deliversRight_iff h a

def twoTaskList : HashTable (BitVec 64) ℕ :=
  hashTablePush addressHash (hashTablePush addressHash HashTable.empty 1#64 0) 2#64 1

def twoTaskSched : SchedState where
  tasks p := { SchedTask.zeroed with
    pid := BitVec.ofNat 64 (p + 1)
    status := if p = 0 then .running else .waiting
    threadList := hashTablePush addressHash HashTable.empty 0#64 p }
  threads p := { SchedThread.zeroed with
    pid := BitVec.ofNat 64 (p + 1)
    status := if p = 0 then .running else .waiting }
  events _ := ⟨0, 0, 0#32⟩
  triggers _ := ⟨0, none, .procExit⟩
  taskList := twoTaskList
  core := ⟨0#64, 0#64, 0#64, 1#64, 0#64, 0, 0#64, 0#64⟩

def twoTasks : SignalState := ⟨twoTaskSched, fun _ _ => 0#64⟩

theorem signalInv_twoTasks : SignalInv twoTasks := by
  have htasks : ∀ task ∈ tablePointers twoTaskList,
      hashTableSearch addressHash twoTaskList (BitVec.ofNat 64 (task + 1)) = some task := by
    decide +kernel
  have hthreads : ∀ task, tablePointers (twoTaskSched.tasks task).threadList = [task] :=
    fun _ => rfl
  refine ⟨fun task thread hb => ?_, fun task thread hb i hi => ?_, fun task i => rfl⟩
  · have hmem := hb.2
    rw [twoTasks, hthreads, List.mem_singleton] at hmem
    rw [hmem]
    exact htasks task hb.1
  · exact absurd hi (by simp [twoTasks, twoTaskSched, SchedThread.zeroed])

def sendLate : List SignalOp :=
  [.sigaction 10 (some ⟨0x4000#64, 0#64, 0#32, 0#64⟩), .tick default, .tick default, .send 0 0 10]

/-- **Two switches with nothing pending** leave the registers as they were. A switch with a signal
pending would be right only with its number in the queue entry, which no code writes. -/
theorem delivers_iff_none_pending : ∃ tr s, Run signalStep twoTasks tr s ∧
    tr.map Event.act = sendLate ∧ (s.sched.threads 0).signalQueue.sigpending = sigMask 10 ∧
    ∀ e ∈ tr, DeliversRight e.pre e.act := by
  obtain ⟨tr, s, run, hacts, hpending, hloop⟩ := Run.computed (f := signalNext)
    (P := fun tr s => (s.sched.threads 0).signalQueue.sigpending = sigMask 10 ∧
      ∀ e ∈ tr, LoopRight e.pre e.act) twoTasks sendLate (by decide +kernel)
  exact ⟨tr, s, run, hacts, hpending, (delivers_iff run signalInv_twoTasks).mpr hloop⟩

def sendBlocked : List SignalOp :=
  [.sigaction 10 (some ⟨0x4000#64, 0#64, 0#32, 0#64⟩), .sigprocmask 0 (some (sigMask 10)),
    .send 0 0 10, .tick default]

/-- **A blocked signal is delivered**: the only signal pending is in the mask, but the switch
back to the thread redirects it and removes the signal. -/
theorem blocked_signal_delivered : ∃ tr s s', Run signalStep twoTasks tr s ∧
    tr.map Event.act = sendBlocked ∧
    reschedule default s.sched = some (.switched 0 0, s') ∧
    (s.sched.threads 0).signalQueue.sigpending = sigMask 10 ∧
    (s.sched.threads 0).sigmask = sigMask 10 ∧
    (s'.threads 0).regs.rip = 0x4000#64 ∧ (s'.threads 0).signalQueue.sigpending = 0#64 ∧
    ¬ DeliversRight s (.tick default) := by
  obtain ⟨tr, s, run, hacts, hpending, hmask, hmap⟩ := Run.computed (f := signalNext)
    (P := fun _ s => (s.sched.threads 0).signalQueue.sigpending = sigMask 10 ∧
      (s.sched.threads 0).sigmask = sigMask 10 ∧ ((reschedule default s.sched).map fun r =>
        (r.1, (r.2.threads 0).regs.rip, (r.2.threads 0).signalQueue.sigpending)) =
          some (.switched 0 0, 0x4000#64, 0#64)) twoTasks sendBlocked (by decide +kernel)
  obtain ⟨⟨resumed, s'⟩, hresch, hvalues⟩ := map_eq_some_iff.mp hmap
  simp only [Prod.mk.injEq] at hvalues
  obtain ⟨rfl, hrip, hpending'⟩ := hvalues
  refine ⟨tr, s, s', run, hacts, hresch, hpending, hmask, hrip, hpending', ?_⟩
  -- Nothing outside the mask is pending, so the pending set should have stayed.
  intro hright
  rw [DeliversRight, hresch] at hright
  dsimp only at hright
  rw [SwitchRight, hpending, hmask, hpending'] at hright
  exact absurd hright.2 (by decide)

end Delivery

end Pastoral
