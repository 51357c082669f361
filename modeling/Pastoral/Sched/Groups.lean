import Pastoral.Sched.Fork

/-!
# Sessions and process groups

`task_create_session` and `task_setpgid` of `sched.c`, together with `fork`.

## Main results

* `coherent_iff_refused`: the lists are right only as long as all calls are refused
-/

open Function List Option Probe Transition

namespace Pastoral

/-! ## Records -/

structure ProcessGroup where
  pgid : BitVec 64
  sid : BitVec 64
  pidLeader : BitVec 64
  leader : ℕ
  processList : List ℕ

structure Session where
  sid : BitVec 64
  pgidLeader : BitVec 64
  pgidBitmap : Bitmap
  groupList : HashTable (BitVec 64) ℕ

structure GroupState where
  fds : FdState
  groups : ℕ → Option ProcessGroup
  sessions : ℕ → Option Session
  sidBitmap : Bitmap
  sessionList : HashTable (BitVec 64) ℕ

def GroupState.task (s : GroupState) (p : ℕ) : SchedTask := s.fds.sched.tasks p

def GroupState.live (s : GroupState) : List ℕ := tablePointers s.fds.sched.taskList

def GroupState.setTask (s : GroupState) (p : ℕ) (t : SchedTask) : GroupState :=
  { s with fds := { s.fds with sched := s.fds.sched.setTask p t } }

def GroupState.setErrno (s : GroupState) (code : BitVec 64) : GroupState :=
  { s with fds := { s.fds with sched := s.fds.sched.setErrno code } }

abbrev errnoESRCH : BitVec 64 := 1070#64

/-! ## The functions -/

def GroupState.Leads (s : GroupState) (p : ℕ) : Prop :=
  (s.groups (s.task p).group).map ProcessGroup.pidLeader = some (s.task p).pid
  deriving Decidable

def taskCreateSession (task session group : ℕ) (s : GroupState) :
    Option (BitVec 32 × GroupState) :=
  if s.Leads task then some (-1#32, s.setErrno errnoEPERM)
  else do
    let (sid, sidBitmap) ← s.sidBitmap.alloc
    let (pgid, pgidBitmap) ← Bitmap.empty.alloc
    let t := s.task task
    let sid := BitVec.ofNat 64 sid
    let pgid := BitVec.ofNat 64 pgid
    let newSession : Session :=
      { sid := sid
        pgidLeader := pgid
        pgidBitmap := pgidBitmap
        groupList := hashTablePush addressHash HashTable.empty pgid group }
    let newGroup : ProcessGroup :=
      { pgid := pgid, sid := sid, pidLeader := t.pid, leader := task, processList := [task] }
    some (sid.setWidth 32,
      { s.setTask task { t with sid := sid, session := session, pgid := pgid, group := group } with
        groups := update s.groups group (some newGroup)
        sessions := update s.sessions session (some newSession)
        sidBitmap := sidBitmap
        sessionList := hashTablePush addressHash s.sessionList sid session })

def targetGroup (task : ℕ) (t : SchedTask) (pgid : BitVec 64) (group : ℕ) (session : Session)
    (s : GroupState) : Option (ℕ × GroupState) :=
  if pgid.toNat < 8 * session.pgidBitmap.data.length then
    if session.pgidBitmap.test pgid.toNat then
      (hashTableSearch addressHash session.groupList pgid).map fun g => (g, s)
    else
      let newGroup : ProcessGroup :=
        { pgid := pgid, sid := t.sid, pidLeader := t.pid, leader := task, processList := [task] }
      let bitmap := session.pgidBitmap
      let newSession : Session :=
        { session with
          groupList := hashTablePush addressHash session.groupList pgid group
          pgidBitmap := { bitmap with data := BitArray.set bitmap.data pgid.toNat } }
      some (group,
        { s with
          groups := update s.groups group (some newGroup)
          sessions := update s.sessions t.session (some newSession) })
  else none

def taskSetpgid (current task : ℕ) (pgid : BitVec 64) (group : ℕ) (s : GroupState) :
    Option (BitVec 32 × GroupState) :=
  let t := s.task task
  if t.pgid = pgid then some (0#32, s)
  else if (s.task current).sid ≠ t.sid ∨ s.Leads task ∨ t.hasExecved = true then
    some (-1#32, s.setErrno errnoEPERM)
  else do
    -- The test reads `task->group->pid_leader`.
    let _ ← s.groups t.group
    let session ← s.sessions t.session
    let (target, s) ← targetGroup task t pgid group session s
    let g ← s.groups target
    -- The task is pushed once more, and `task->group` is not written.
    some (0#32,
      { s.setTask task { t with pgid := pgid } with
        groups := update s.groups target
          (some { g with processList := g.processList ++ [task] }) })

def syscallSetpgid (current : ℕ) (pid pgid : BitVec 64) (group : ℕ) (s : GroupState) :
    Option (BitVec 32 × GroupState) :=
  match schedTranslatePid s.fds.sched pid with
  | none => some (-1#32, s.setErrno errnoESRCH)
  | some task => taskSetpgid current task pgid group s

/-! ## Runs -/

inductive GroupOp
  | fork (c : ForkCall)
  | setsid (task session group : ℕ)
  | setpgid (current : ℕ) (pid pgid : BitVec 64) (group : ℕ)

/-- The operation is one of a live task, and what is allocated is fresh. -/
def GroupOp.Valid (s : GroupState) : GroupOp → Prop
  | .fork c => c.current ∈ s.live ∧ c.task ∉ s.live ∧ c.pid ∉ keys s.fds.sched.taskList.slots
  | .setsid task session group =>
    task ∈ s.live ∧ s.sessions session = none ∧ s.groups group = none
  | .setpgid current _ _ group => current ∈ s.live ∧ s.groups group = none

def groupNext (s : GroupState) : GroupOp → Option GroupState
  | .fork c => (syscallFork c s.fds).map fun r => { s with fds := r.2 }
  | .setsid task session group => (taskCreateSession task session group s).map Prod.snd
  | .setpgid current pid pgid group => (syscallSetpgid current pid pgid group s).map Prod.snd

/-- One operation. -/
def groupStep (s : GroupState) (op : GroupOp) (s' : GroupState) : Prop :=
  op.Valid s ∧ groupNext s op = some s'

/-- **The membership is right**: every live task occurs once in the list of its group and in no
other list, and its fields agree with its group and its session. -/
def Coherent (s : GroupState) : Prop :=
  ∀ p ∈ s.live, ∃ g se, s.groups (s.task p).group = some g ∧
    s.sessions (s.task p).session = some se ∧ g.processList.count p = 1 ∧
    (∀ a g', s.groups a = some g' → p ∈ g'.processList → a = (s.task p).group) ∧
    g.pgid = (s.task p).pgid ∧ g.sid = (s.task p).sid ∧ se.sid = (s.task p).sid

/-- The operation changes no membership: it is refused, or it moves the task to the group whose
number it has. -/
def Refused (s : GroupState) : GroupOp → Prop
  | .fork _ => False
  | .setsid task _ _ => s.Leads task
  | .setpgid current pid pgid _ => ∀ task, schedTranslatePid s.fds.sched pid = some task →
      (s.task task).pgid = pgid ∨ (s.task current).sid ≠ (s.task task).sid ∨ s.Leads task ∨
        (s.task task).hasExecved = true

/-- What is known of a coherent state: the table of tasks is good, and the lists hold live tasks
only. -/
structure GroupInv (s : GroupState) : Prop where
  good : s.fds.sched.taskList.Good addressHash
  listed : ∀ a g, s.groups a = some g → ∀ p ∈ g.processList, p ∈ s.live
  coherent : Coherent s

section Steps

variable {s s' : GroupState} {op : GroupOp}

def SameGroups (s s' : GroupState) : Prop := s' = s ∨ ∃ code, s' = s.setErrno code

theorem SameGroups.inv (h : SameGroups s s') (hinv : GroupInv s) : GroupInv s' := by
  rcases h with rfl | ⟨code, rfl⟩
  · exact hinv
  · exact ⟨hinv.good, hinv.listed, hinv.coherent⟩

theorem refused_same (h : groupStep s op s') (hrefused : Refused s op) : SameGroups s s' := by
  obtain ⟨-, hnext⟩ := h
  cases op with
  | fork c => exact absurd hrefused id
  | setsid task session group =>
    obtain ⟨r, hr, rfl⟩ := map_eq_some_iff.mp hnext
    have hleads : s.Leads task := hrefused
    rw [taskCreateSession, if_pos hleads] at hr
    cases hr
    exact .inr ⟨_, rfl⟩
  | setpgid current pid pgid group =>
    obtain ⟨r, hr, rfl⟩ := map_eq_some_iff.mp hnext
    unfold syscallSetpgid at hr
    split at hr
    · cases hr
      exact .inr ⟨_, rfl⟩
    · next task htask =>
      unfold taskSetpgid at hr
      dsimp only at hr
      split_ifs at hr with hsame hperm
      · cases hr
        exact .inl rfl
      · cases hr
        exact .inr ⟨_, rfl⟩
      · rcases hrefused task htask with heq | hrest
        · exact absurd heq hsame
        · exact absurd hrest hperm

theorem fork_incoherent {c : ForkCall} (hinv : GroupInv s) (h : groupStep s (.fork c) s') :
    ¬ Coherent s' := by
  intro hcoherent
  obtain ⟨⟨-, hfresh, hpid⟩, hnext⟩ := h
  obtain ⟨r, hr, rfl⟩ := map_eq_some_iff.mp hnext
  obtain ⟨x, -, rfl⟩ := map_eq_some_iff.mp hr
  -- The child is live, and no list has changed.
  have hlive : c.task ∈
      tablePointers (hashTablePush addressHash s.fds.sched.taskList c.pid c.task) := by
    rw [mem_tablePointers_iff]
    refine ⟨c.pid, (hashTablePush_fresh hinv.good hpid).2.mem_iff.mpr ?_⟩
    exact mem_cons_self
  obtain ⟨g, se, hg, -, hcount, -⟩ := hcoherent c.task hlive
  have hmem : c.task ∈ g.processList := count_pos_iff.mp (by omega)
  exact hfresh (hinv.listed _ g hg c.task hmem)

theorem setsid_incoherent {task session group : ℕ} (hinv : GroupInv s)
    (h : groupStep s (.setsid task session group) s') (hleads : ¬ s.Leads task) :
    ¬ Coherent s' := by
  intro hcoherent
  obtain ⟨⟨hlive, -, hgroup⟩, hnext⟩ := h
  obtain ⟨r, hr, rfl⟩ := map_eq_some_iff.mp hnext
  rw [taskCreateSession, if_neg hleads] at hr
  obtain ⟨⟨sid, sidBitmap⟩, -, hr⟩ := bind_eq_some_iff.mp hr
  obtain ⟨⟨pgid, pgidBitmap⟩, -, hr⟩ := bind_eq_some_iff.mp hr
  cases hr
  obtain ⟨g, -, hg, -, hcount, -⟩ := hinv.coherent task hlive
  have hmem : task ∈ g.processList := count_pos_iff.mp (by omega)
  have hne : (s.task task).group ≠ group := by
    rintro heq
    rw [heq, hgroup] at hg
    simp at hg
  -- The old group is still there, but the task points to the new one.
  obtain ⟨-, -, -, -, -, honly, -⟩ := hcoherent task hlive
  have hnew := honly (s.task task).group g (by
    dsimp only
    rw [update_of_ne hne]
    exact hg) hmem
  simp only [GroupState.task, GroupState.setTask, setTask_self] at hnew
  exact hne hnew

theorem targetGroup_keeps {task target group : ℕ} {t : SchedTask} {pgid : BitVec 64}
    {session : Session} (h : targetGroup task t pgid group session s = some (target, s'))
    (hgroup : s.groups group = none) :
    s'.fds = s.fds ∧ ∀ a g, s.groups a = some g → s'.groups a = some g := by
  unfold targetGroup at h
  split_ifs at h with hbit hset
  · obtain ⟨g, -, heq⟩ := map_eq_some_iff.mp h
    cases heq
    exact ⟨rfl, fun _ _ hg => hg⟩
  · obtain ⟨-, rfl⟩ := Prod.mk.inj (some.inj h)
    refine ⟨rfl, fun a g hg => ?_⟩
    have hne : a ≠ group := by
      rintro rfl
      rw [hgroup] at hg
      simp at hg
    dsimp only
    rw [update_of_ne hne]
    exact hg

theorem setpgid_incoherent {current group : ℕ} {pid pgid : BitVec 64} (hinv : GroupInv s)
    (h : groupStep s (.setpgid current pid pgid group) s')
    (hmoves : ¬ Refused s (.setpgid current pid pgid group)) : ¬ Coherent s' := by
  intro hcoherent
  obtain ⟨⟨-, hgroup⟩, hnext⟩ := h
  obtain ⟨r, hr, rfl⟩ := map_eq_some_iff.mp hnext
  simp only [Refused, not_forall, not_or] at hmoves
  obtain ⟨task, htask, hpgid, hsid, hleads, hexec⟩ := hmoves
  unfold syscallSetpgid at hr
  rw [htask] at hr
  unfold taskSetpgid at hr
  dsimp only at hr
  rw [if_neg hpgid, if_neg (by tauto)] at hr
  obtain ⟨g, hg, hr⟩ := bind_eq_some_iff.mp hr
  obtain ⟨session, -, hr⟩ := bind_eq_some_iff.mp hr
  obtain ⟨⟨target, s₁⟩, htarget, hr⟩ := bind_eq_some_iff.mp hr
  obtain ⟨hfds, hkept⟩ := targetGroup_keeps htarget hgroup
  obtain ⟨g₁, hg₁, hr⟩ := bind_eq_some_iff.mp hr
  cases hr
  have hlive := mem_tablePointers_iff.mpr ⟨pid, (hashTableSearch_eq_some_iff hinv.good).mp htask⟩
  -- The task points to its old group, whose number is the old one.
  obtain ⟨g₀, -, hg₀, -, -, -, hnumber, -⟩ := hinv.coherent task hlive
  obtain ⟨g', -, hg', -, -, -, hnumber', -⟩ := hcoherent task (by
    simpa [GroupState.live, GroupState.setTask, SchedState.setTask, hfds] using hlive)
  simp only [GroupState.task, GroupState.setTask, setTask_self] at hg' hnumber'
  have hold := hkept _ _ hg₀
  have hsame : g'.pgid = g₀.pgid := by
    by_cases htgt : (s.task task).group = target
    · rw [← htgt] at hg₁ hg'
      rw [hold] at hg₁
      cases hg₁
      simp only [GroupState.task, update_self] at hg'
      cases hg'
      rfl
    · have hne : (s.fds.sched.tasks task).group ≠ target := htgt
      rw [update_of_ne hne] at hg'
      rw [show s₁.groups (s.fds.sched.tasks task).group = some g₀ from hold] at hg'
      cases hg'
      rfl
  rw [hsame, hnumber] at hnumber'
  exact hpgid hnumber'

theorem coherent_step_iff (hinv : GroupInv s) (h : groupStep s op s') :
    Coherent s' ↔ Refused s op := by
  refine ⟨fun hcoherent => ?_, fun hrefused => ((refused_same h hrefused).inv hinv).coherent⟩
  by_contra hmoves
  cases op with
  | fork c => exact fork_incoherent hinv h hcoherent
  | setsid task session group => exact setsid_incoherent hinv h hmoves hcoherent
  | setpgid current pid pgid group => exact setpgid_incoherent hinv h hmoves hcoherent

/-- **Along every run** the membership is right in all states exactly if every operation is
refused. -/
theorem coherent_iff_refused {s₀ s : GroupState} {tr : List (Event GroupState GroupOp)}
    (hinv : GroupInv s₀) (run : Run groupStep s₀ tr s) :
    (∀ e ∈ tr, Coherent e.post) ↔ ∀ e ∈ tr, Refused e.pre e.act :=
  run.every_iff (I := GroupInv) (P := fun e => Coherent e.post)
    (Q := fun e => Refused e.pre e.act) hinv
    (fun _ _ _ hinv hstep hrefused => (refused_same hstep hrefused).inv hinv)
    fun _ _ _ hinv hstep => coherent_step_iff hinv hstep

end Steps

/-! ## From the boot on -/

def bootGroups : GroupState where
  fds := ⟨bootSched, fun _ => none, fun _ => none⟩
  groups a := if a = 7 then some ⟨0#64, 0#64, 0#64, 1, [1, 2]⟩ else none
  sessions a := if a = 8 then some ⟨0#64, 0#64, ⟨1#8 :: List.replicate 511 0#8, 512⟩,
    hashTablePush addressHash HashTable.empty 0#64 7⟩ else none
  sidBitmap := ⟨1#8 :: List.replicate 511 0#8, 512⟩
  sessionList := hashTablePush addressHash HashTable.empty 0#64 8

theorem groupInv_boot : GroupInv bootGroups := by
  have hlive : bootGroups.live = [2, 1] := by decide +kernel
  have hone : (hashTablePush addressHash HashTable.empty 0#64 1).Good addressHash :=
    (hashTablePush_fresh good_empty (by decide)).1
  refine ⟨(hashTablePush_fresh hone (by decide +kernel)).1, ?_, ?_⟩
  · intro a g hg p hp
    simp only [bootGroups] at hg
    split_ifs at hg
    cases hg
    rw [hlive]
    simp only [mem_cons, not_mem_nil, or_false] at hp ⊢
    exact hp.symm
  · intro p hp
    rw [hlive] at hp
    refine ⟨⟨0#64, 0#64, 0#64, 1, [1, 2]⟩, _, rfl, rfl, ?_, ?_, rfl, rfl, rfl⟩
    · simp only [mem_cons, not_mem_nil, or_false] at hp
      rcases hp with rfl | rfl <;> rfl
    · intro a g hg hmem
      simp only [bootGroups] at hg
      split_ifs at hg with ha
      exact ha

theorem coherent_iff_refused_kernel_task : ∃ tr s, Run groupStep bootGroups tr s ∧
    tr.map Event.act = [.setsid 1 9 9, .setpgid 1 0#64 5#64 9] ∧ ∀ e ∈ tr, Coherent e.post := by
  have hlive : 1 ∈ bootGroups.live := by decide +kernel
  have hleads : bootGroups.Leads 1 := by decide
  have hkernel : schedTranslatePid bootSched 0#64 = some 1 := by decide +kernel
  have hsetsid : groupStep bootGroups (.setsid 1 9 9) (bootGroups.setErrno errnoEPERM) := by
    refine ⟨⟨hlive, rfl, rfl⟩, ?_⟩
    rfl
  have hsetpgid : groupStep (bootGroups.setErrno errnoEPERM) (.setpgid 1 0#64 5#64 9)
      ((bootGroups.setErrno errnoEPERM).setErrno errnoEPERM) := by
    refine ⟨⟨hlive, rfl⟩, ?_⟩
    have htranslate :
        schedTranslatePid (bootGroups.setErrno errnoEPERM).fds.sched 0#64 = some 1 := hkernel
    have hleads' : (bootGroups.setErrno errnoEPERM).Leads 1 := hleads
    rw [groupNext, syscallSetpgid, htranslate]
    dsimp only
    rfl
  have run := (Run.nil.snoc hsetsid).snoc hsetpgid
  refine ⟨_, _, run, rfl, (coherent_iff_refused groupInv_boot run).mpr ?_⟩
  intro e he
  simp only [nil_append, cons_append, mem_cons, not_mem_nil, or_false] at he
  rcases he with rfl | rfl
  · exact hleads
  · intro task htask
    obtain rfl := Option.some.inj (hkernel.symm.trans htask)
    exact .inr (.inr (.inl hleads))

/-- **A forked child is in no group**: from the boot on, one `fork` of the init process leaves a
live task that is in no `process_list`. -/
theorem forked_child_in_no_group : ∃ s, groupStep bootGroups (.fork bootFork) s ∧
    3 ∈ s.live ∧ (∀ a g, s.groups a = some g → 3 ∉ g.processList) ∧ ¬ Coherent s := by
  obtain ⟨s, hs⟩ : ∃ s, groupNext bootGroups (.fork bootFork) = some s := ⟨_, rfl⟩
  have hstep : groupStep bootGroups (.fork bootFork) s :=
    ⟨⟨by decide +kernel, by decide +kernel, by decide +kernel⟩, hs⟩
  refine ⟨s, hstep, ?_, ?_, fork_incoherent groupInv_boot hstep⟩
  · cases hs
    decide +kernel
  · cases hs
    intro a g hg hmem
    have hlive := groupInv_boot.listed a g hg 3 hmem
    exact absurd hlive (by decide +kernel)

end Pastoral
