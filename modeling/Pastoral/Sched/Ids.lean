import Pastoral.Sched.Fork

/-!
# User and group ids

`setuid`, `seteuid`, `setgid` and `setegid` write the six ids of the task that calls them.

## Main results

* `ids_contained`: privilege that was given up is not regained
-/

namespace Pastoral

open Option Transition

/-! ## The calls -/

structure Credentials where
  real : BitVec 32
  effective : BitVec 32
  saved : BitVec 32
  deriving DecidableEq, Repr

/-- One of the three is `id`. -/
def Credentials.Has (c : Credentials) (id : BitVec 32) : Prop :=
  c.real = id ∨ c.effective = id ∨ c.saved = id
  deriving Decidable

def Credentials.setEffective (c : Credentials) (id : BitVec 32) : Option Credentials :=
  if c.Has id then some { c with effective := id } else none

def Credentials.setAll (c : Credentials) (privileged : Bool) (id : BitVec 32) :
    Option Credentials :=
  if privileged then some ⟨id, id, id⟩ else c.setEffective id

def SchedTask.uids (t : SchedTask) : Credentials := ⟨t.realUid, t.effectiveUid, t.savedUid⟩

def SchedTask.gids (t : SchedTask) : Credentials := ⟨t.realGid, t.effectiveGid, t.savedGid⟩

def SchedTask.setUids (t : SchedTask) (c : Credentials) : SchedTask :=
  { t with realUid := c.real, effectiveUid := c.effective, savedUid := c.saved }

def SchedTask.setGids (t : SchedTask) (c : Credentials) : SchedTask :=
  { t with realGid := c.real, effectiveGid := c.effective, savedGid := c.saved }

@[simp] theorem SchedTask.uids_setUids (t : SchedTask) (c : Credentials) :
    (t.setUids c).uids = c := rfl

@[simp] theorem SchedTask.gids_setUids (t : SchedTask) (c : Credentials) :
    (t.setUids c).gids = t.gids := rfl

@[simp] theorem SchedTask.uids_setGids (t : SchedTask) (c : Credentials) :
    (t.setGids c).uids = t.uids := rfl

@[simp] theorem SchedTask.gids_setGids (t : SchedTask) (c : Credentials) :
    (t.setGids c).gids = c := rfl

def SchedState.answer (s : SchedState) (regs : Registers) (task : ℕ) :
    Option SchedTask → Registers × SchedState
  | some t => ({ regs with rax := 0#64 }, { s with tasks := Function.update s.tasks task t })
  | none => ({ regs with rax := -1#64 }, s.setErrno errnoEPERM)

/-- The four calls, by what they set. -/
def idSyscall (set : SchedTask → BitVec 32 → Option SchedTask) (regs : Registers) (s : SchedState) :
    Option (Registers × SchedState) :=
  s.currentTask.map fun task => s.answer regs task (set (s.tasks task) (regs.rdi.setWidth 32))

def syscallSetuid : Registers → SchedState → Option (Registers × SchedState) :=
  idSyscall fun t id => (t.uids.setAll (decide (t.effectiveUid = 0#32)) id).map t.setUids

def syscallSeteuid : Registers → SchedState → Option (Registers × SchedState) :=
  idSyscall fun t id => (t.uids.setEffective id).map t.setUids

def syscallSetgid : Registers → SchedState → Option (Registers × SchedState) :=
  idSyscall fun t id => (t.gids.setAll (decide (t.effectiveUid = 0#32)) id).map t.setGids

def syscallSetegid : Registers → SchedState → Option (Registers × SchedState) :=
  idSyscall fun t id => (t.gids.setEffective id).map t.setGids

inductive IdCall
  | setuid
  | seteuid
  | setgid
  | setegid
  deriving DecidableEq, Repr

def IdCall.syscall : IdCall → Registers → SchedState → Option (Registers × SchedState)
  | .setuid => syscallSetuid
  | .seteuid => syscallSeteuid
  | .setgid => syscallSetgid
  | .setegid => syscallSetegid

inductive IdOp
  | call (c : IdCall) (regs : Registers)
  | tick (regs : Registers)

def idNext (s : SchedState) : IdOp → Option SchedState
  | .call c regs => (c.syscall regs s).map Prod.snd
  | .tick regs => (reschedule regs s).map Prod.snd

/-- One step. -/
def idStep (s : SchedState) (op : IdOp) (s' : SchedState) : Prop := idNext s op = some s'

/-! ## What a step does to the ids -/

section Narrow

variable {c c' : Credentials} {id : BitVec 32}

structure Credentials.Narrows (c c' : Credentials) : Prop where
  real : c'.real = c.real
  saved : c'.saved = c.saved
  effective : c.Has c'.effective

theorem Credentials.Narrows.refl (c : Credentials) : c.Narrows c := ⟨rfl, rfl, Or.inr (Or.inl rfl)⟩

theorem Credentials.Narrows.has (h : c.Narrows c') (hid : c'.Has id) : c.Has id := by
  rcases hid with hreal | heffective | hsaved
  · rw [h.real] at hreal
    exact .inl hreal
  · have hmoved := h.effective
    rwa [heffective] at hmoved
  · rw [h.saved] at hsaved
    exact .inr (.inr hsaved)

theorem Credentials.narrows_setEffective (h : c.setEffective id = some c') : c.Narrows c' := by
  unfold Credentials.setEffective at h
  split_ifs at h with hhas
  cases h
  exact ⟨rfl, rfl, hhas⟩

/-- The ids of a task narrow. -/
def SchedTask.Narrows (t t' : SchedTask) : Prop := t.uids.Narrows t'.uids ∧ t.gids.Narrows t'.gids

theorem SchedTask.Narrows.refl (t : SchedTask) : t.Narrows t := ⟨.refl _, .refl _⟩

end Narrow

section Step

variable {s s' : SchedState} {regs regs' : Registers} {call : IdCall} {task p : ℕ}

/-- What a call does: it narrows the ids of a task without privilege, or fails. -/
def IdAnswered (regs' : Registers) (s s' : SchedState) (task : ℕ) : Prop :=
  (∃ t, regs'.rax = 0#64 ∧ s'.tasks = Function.update s.tasks task t ∧
      ((s.tasks task).effectiveUid ≠ 0#32 → (s.tasks task).Narrows t)) ∨
    (regs'.rax = -1#64 ∧ s'.tasks = s.tasks)

theorem idSyscall_answered {set : SchedTask → BitVec 32 → Option SchedTask}
    (hset : ∀ t id t', set t id = some t' → t.effectiveUid ≠ 0#32 → t.Narrows t')
    (h : idSyscall set regs s = some (regs', s')) :
    ∃ task, s.currentTask = some task ∧ IdAnswered regs' s s' task := by
  obtain ⟨task, htask, hanswer⟩ := map_eq_some_iff.mp h
  refine ⟨task, htask, ?_⟩
  cases hcall : set (s.tasks task) (regs.rdi.setWidth 32) with
  | some t =>
    rw [hcall] at hanswer
    cases hanswer
    exact .inl ⟨t, rfl, rfl, hset _ _ t hcall⟩
  | none =>
    rw [hcall] at hanswer
    cases hanswer
    exact .inr ⟨rfl, rfl⟩

theorem syscall_answered (h : call.syscall regs s = some (regs', s')) :
    ∃ task, s.currentTask = some task ∧ IdAnswered regs' s s' task := by
  cases call with
  | setuid =>
    unfold IdCall.syscall syscallSetuid at h
    refine idSyscall_answered (fun t id t' ht hne => ?_) h
    obtain ⟨c, hc, rfl⟩ := map_eq_some_iff.mp ht
    rw [decide_eq_false hne] at hc
    exact ⟨Credentials.narrows_setEffective hc, .refl _⟩
  | seteuid =>
    unfold IdCall.syscall syscallSeteuid at h
    refine idSyscall_answered (fun t id t' ht hne => ?_) h
    obtain ⟨c, hc, rfl⟩ := map_eq_some_iff.mp ht
    exact ⟨Credentials.narrows_setEffective hc, .refl _⟩
  | setgid =>
    unfold IdCall.syscall syscallSetgid at h
    refine idSyscall_answered (fun t id t' ht hne => ?_) h
    obtain ⟨c, hc, rfl⟩ := map_eq_some_iff.mp ht
    rw [decide_eq_false hne] at hc
    exact ⟨.refl _, Credentials.narrows_setEffective hc⟩
  | setegid =>
    unfold IdCall.syscall syscallSetegid at h
    refine idSyscall_answered (fun t id t' ht hne => ?_) h
    obtain ⟨c, hc, rfl⟩ := map_eq_some_iff.mp ht
    exact ⟨.refl _, Credentials.narrows_setEffective hc⟩

theorem idStep_narrows {op : IdOp} (h : idStep s op s') (hne : (s.tasks p).effectiveUid ≠ 0#32) :
    (s.tasks p).Narrows (s'.tasks p) := by
  cases op with
  | call c regs =>
    obtain ⟨⟨regs', s''⟩, hcall, rfl⟩ := map_eq_some_iff.mp h
    obtain ⟨task, -, ⟨t, -, htasks, hnarrow⟩ | ⟨-, htasks⟩⟩ := syscall_answered hcall
    · by_cases hp : p = task
      · subst hp
        rw [htasks, Function.update_self]
        exact hnarrow hne
      · rw [htasks, Function.update_of_ne hp]
        exact .refl _
    · rw [htasks]
      exact .refl _
  | tick regs =>
    obtain ⟨⟨r, s''⟩, hresch, rfl⟩ := map_eq_some_iff.mp h
    obtain ⟨n, status, waiting, heq, -⟩ := reschedule_task hresch p
    rw [heq]
    exact .refl _

theorem syscallSetuid_privileged (h : syscallSetuid regs s = some (regs', s'))
    (hcurrent : s.currentTask = some p) (hroot : (s.tasks p).effectiveUid = 0#32) :
    (s'.tasks p).uids = ⟨regs.rdi.setWidth 32, regs.rdi.setWidth 32, regs.rdi.setWidth 32⟩ := by
  unfold syscallSetuid idSyscall at h
  rw [hcurrent] at h
  obtain ⟨-, rfl⟩ := Prod.mk.inj (some.inj h)
  simp [Credentials.setAll, hroot]

end Step

/-! ## Every sequence of calls -/

section Runs

variable {s₀ s : SchedState} {tr : List (Event SchedState IdOp)} {p : ℕ}

theorem run_narrows (run : Run idStep s₀ tr s) (hzero : ¬ (s₀.tasks p).uids.Has 0#32) :
    ¬ (s.tasks p).uids.Has 0#32 ∧ (∀ id, (s.tasks p).uids.Has id → (s₀.tasks p).uids.Has id) ∧
      ∀ id, (s.tasks p).gids.Has id → (s₀.tasks p).gids.Has id := by
  refine run.invariant (I := fun _ s => ¬ (s.tasks p).uids.Has 0#32 ∧
      (∀ id, (s.tasks p).uids.Has id → (s₀.tasks p).uids.Has id) ∧
      ∀ id, (s.tasks p).gids.Has id → (s₀.tasks p).gids.Has id)
    ⟨hzero, fun _ => id, fun _ => id⟩ ?_
  rintro tr s op s' ⟨hnot, huids, hgids⟩ hstep
  -- No user id is 0, so the effective one is not, and the step narrows.
  have hne : (s.tasks p).effectiveUid ≠ 0#32 := fun heq => hnot (.inr (.inl heq))
  obtain ⟨hnarrow, hnarrow'⟩ := idStep_narrows hstep hne
  exact ⟨fun hid => hnot (hnarrow.has hid), fun id hid => huids id (hnarrow.has hid),
    fun id hid => hgids id (hnarrow'.has hid)⟩

/-- **The ids are contained.** A task without a user id of 0 keeps to the ids it has, whatever is
called; a task that gives its privilege up with `setuid` does not get it back; and a call that
returns -1 changes no id of any task. -/
theorem ids_contained (s₀ : SchedState) (p : ℕ) :
    (¬ (s₀.tasks p).uids.Has 0#32 → ∀ tr s, Run idStep s₀ tr s →
      (∀ id, (s.tasks p).uids.Has id → (s₀.tasks p).uids.Has id) ∧
        ∀ id, (s.tasks p).gids.Has id → (s₀.tasks p).gids.Has id) ∧
    ((s₀.tasks p).effectiveUid = 0#32 → s₀.currentTask = some p →
      ∀ regs s₁, regs.rdi.setWidth 32 ≠ 0#32 → idStep s₀ (.call .setuid regs) s₁ →
        ∀ tr s, Run idStep s₁ tr s → ¬ (s.tasks p).uids.Has 0#32) ∧
    ∀ (call : IdCall) regs regs' s', call.syscall regs s₀ = some (regs', s') →
      regs'.rax = -1#64 → ∀ q, (s'.tasks q).uids = (s₀.tasks q).uids ∧
        (s'.tasks q).gids = (s₀.tasks q).gids := by
  refine ⟨fun hzero tr s run => (run_narrows run hzero).2, ?_, ?_⟩
  · intro hroot hcurrent regs s₁ hne hstep tr s run
    obtain ⟨⟨regs', s₁'⟩, hcall, rfl⟩ := map_eq_some_iff.mp hstep
    refine (run_narrows run ?_).1
    rw [syscallSetuid_privileged hcall hcurrent hroot]
    rintro (heq | heq | heq) <;> exact hne heq
  · intro call regs regs' s' hcall hfailed q
    obtain ⟨task, -, ⟨t, hdone, -⟩ | ⟨-, htasks⟩⟩ := syscall_answered hcall
    · rw [hdone] at hfailed
      exact absurd hfailed (by decide)
    · rw [htasks]
      exact ⟨rfl, rfl⟩

/-- The registers of a call with the argument `id`. -/
def idRegs (id : BitVec 64) : Registers := { (default : Registers) with rdi := id }

/-- The first task after `setuid(1000)`. -/
def droppedSched : SchedState :=
  bootSched.setTask 2 ((bootSched.tasks 2).setUids ⟨1000#32, 1000#32, 1000#32⟩)

/-- **Privilege is given up**: after `setuid(1000)` the two calls that ask for it again fail. -/
theorem ids_contained_given_up :
    idStep bootSched (.call .setuid (idRegs 1000#64)) droppedSched ∧
    (∃ tr s, Run idStep droppedSched tr s ∧
      tr.map Event.act = [.call .setuid (idRegs 0#64), .call .seteuid (idRegs 0#64)] ∧
      ¬ (s.tasks 2).uids.Has 0#32 ∧
      ∀ id, (s.tasks 2).uids.Has id → (droppedSched.tasks 2).uids.Has id) ∧
    ∃ regs' s', syscallSetuid (idRegs 0#64) droppedSched = some (regs', s') ∧
      regs'.rax = -1#64 ∧ ∀ q, (s'.tasks q).uids = (droppedSched.tasks q).uids := by
  have hstep : idStep bootSched (.call .setuid (idRegs 1000#64)) droppedSched := rfl
  obtain ⟨tr, s, run, hacts, -⟩ := Run.computed (f := idNext) (P := fun _ _ => True) droppedSched
    [.call .setuid (idRegs 0#64), .call .seteuid (idRegs 0#64)] (by decide +kernel)
  refine ⟨hstep, ⟨tr, s, run, hacts, ?_, ?_⟩, _, _, rfl, rfl, fun q => ?_⟩
  · exact (ids_contained bootSched 2).2.1 rfl (by decide +kernel) _ _ (by decide) hstep _ _ run
  · exact ((ids_contained droppedSched 2).1 (by decide) _ _ run).1
  · exact ((ids_contained droppedSched 2).2.2 .setuid (idRegs 0#64) _ _ rfl rfl q).1

end Runs

end Pastoral
