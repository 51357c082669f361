import Pastoral.Sched.Event

/-!
# The timers of the PIT

`pit.c`: a thousand times a second, `pit_handler` takes a millisecond off every timer of
`timer_list` and fires the triggers of those that have nothing left.

## Main results

* `timer_on_time_iff`: a timer is late exactly if the loop steps over it
-/

open List Transition

namespace Pastoral

/-! ## Functions -/

structure Timespec where
  tvSec : ℤ
  tvNsec : ℤ
  deriving DecidableEq, Repr

abbrev timerHz : ℤ := 1000000000

abbrev pitFreq : ℤ := 1000

/-- A value of `time_t` or `long`. -/
def int64 (x : ℤ) : ℤ := (x + 2 ^ 63) % 2 ^ 64 - 2 ^ 63

def timespecAdd (a b : Timespec) : Timespec :=
  let ret : Timespec := ⟨int64 (a.tvSec + b.tvSec), int64 (a.tvNsec + b.tvNsec)⟩
  if ret.tvNsec > timerHz then ⟨int64 (ret.tvSec + 1), ret.tvNsec - timerHz⟩ else ret

def timespecSub (a b : Timespec) : Timespec :=
  let ret : Timespec := ⟨a.tvSec - b.tvSec, a.tvNsec - b.tvNsec⟩
  let ret := if ret.tvNsec < 0 then ⟨ret.tvSec - 1, ret.tvNsec + timerHz⟩ else ret
  if ret.tvSec < 0 then ⟨0, 0⟩ else ret

def pitInterval : Timespec := ⟨0, timerHz / pitFreq⟩

structure Timer where
  timespec : Timespec
  triggers : List ℕ
  deriving DecidableEq, Repr

structure PitState where
  clockRealtime : Timespec
  clockMonotonic : Timespec
  timerList : List Timer
  triggerCnt : ℕ
  sched : SchedState

def eventCreateTimer (event : ℕ) (timespec : Timespec) (s : PitState) : PitState :=
  { s with
    timerList := s.timerList ++ [⟨timespec, [s.triggerCnt]⟩]
    triggerCnt := s.triggerCnt + 1
    sched := { s.sched with
      triggers := Function.update s.sched.triggers s.triggerCnt ⟨0, some event, .timerTrigger⟩ } }

def fireTrigger (sched : SchedState) (trigger : ℕ) : SchedState :=
  eventFire trigger { sched with
    triggers := Function.update sched.triggers trigger
      { sched.triggers trigger with agentTask := sched.currentTask.getD 0 } }

def Timer.tick (t : Timer) : Timer := { t with timespec := timespecSub t.timespec pitInterval }

def Timer.Expires (t : Timer) : Prop := t.tick.timespec.tvNsec = 0 ∧ t.tick.timespec.tvSec = 0

instance (t : Timer) : Decidable t.Expires := inferInstanceAs (Decidable (_ ∧ _))

def pitLoop : ℕ → ℕ → List Timer → SchedState → List ℕ → List Timer × SchedState × List ℕ
  | 0, _, timers, sched, fired => (timers, sched, fired)
  | n + 1, i, timers, sched, fired =>
    match timers[i]? with
    | none => (timers, sched, fired)
    | some t =>
      if t.Expires then
        pitLoop n (i + 1) ((timers.set i t.tick).eraseIdx i) (t.triggers.foldl fireTrigger sched)
          (fired ++ t.triggers)
      else pitLoop n (i + 1) (timers.set i t.tick) sched fired

def pitHandler (s : PitState) : PitState × List ℕ :=
  let (timers, sched, fired) := pitLoop s.timerList.length 0 s.timerList s.sched []
  ({ s with
      clockRealtime := timespecAdd s.clockRealtime pitInterval
      clockMonotonic := timespecAdd s.clockMonotonic pitInterval
      timerList := timers
      sched := sched }, fired)

/-! ## The passes of the loop -/

def passTimers : List Timer → List Timer × List Timer
  | [] => ([], [])
  | [t] => if t.Expires then ([], [t]) else ([t.tick], [])
  | t :: u :: rest =>
    if t.Expires then (u :: (passTimers rest).1, t :: (passTimers rest).2)
    else (t.tick :: (passTimers (u :: rest)).1, (passTimers (u :: rest)).2)

def steppedOver : List Timer → List Timer
  | [] => []
  | [_] => []
  | t :: u :: rest => if t.Expires then u :: steppedOver rest else steppedOver (u :: rest)

def SteppedOver (s : PitState) (trigger : ℕ) : Prop :=
  ∃ t ∈ steppedOver s.timerList, trigger ∈ t.triggers
  deriving Decidable

section Loop

variable {t : Timer} {done rest : List Timer} {sched : SchedState} {fired : List ℕ}

theorem pitLoop_expires (n : ℕ) (h : t.Expires) :
    pitLoop (n + 1) done.length (done ++ t :: rest) sched fired =
      pitLoop n (done.length + 1) (done ++ rest) (t.triggers.foldl fireTrigger sched)
        (fired ++ t.triggers) := by
  have hget : (done ++ t :: rest)[done.length]? = some t := by simp
  have herase :
      ((done ++ t :: rest).set done.length t.tick).eraseIdx done.length = done ++ rest := by
    rw [set_append_right _ _ (le_refl _), eraseIdx_append_of_length_le (le_refl _), Nat.sub_self]
    rfl
  rw [pitLoop, hget]
  dsimp only
  rw [if_pos h, herase]

theorem pitLoop_waits (n : ℕ) (h : ¬ t.Expires) :
    pitLoop (n + 1) done.length (done ++ t :: rest) sched fired =
      pitLoop n (done ++ [t.tick]).length (done ++ [t.tick] ++ rest) sched fired := by
  have hget : (done ++ t :: rest)[done.length]? = some t := by simp
  have hset : (done ++ t :: rest).set done.length t.tick = done ++ [t.tick] ++ rest := by
    rw [set_append_right _ _ (le_refl _), Nat.sub_self, append_assoc]
    rfl
  rw [pitLoop, hget]
  dsimp only
  rw [if_neg h, hset, length_append, length_singleton]

theorem pitLoop_end (n : ℕ) {timers : List Timer} {i : ℕ} (h : timers.length ≤ i) :
    pitLoop n i timers sched fired = (timers, sched, fired) := by
  cases n with
  | zero => rfl
  | succ n => rw [pitLoop, getElem?_eq_none h]

end Loop

theorem pitLoop_eq (n : ℕ) (done rest : List Timer) (sched : SchedState) (fired : List ℕ)
    (hn : rest.length ≤ n) :
    pitLoop n done.length (done ++ rest) sched fired =
      (done ++ (passTimers rest).1,
        ((passTimers rest).2.flatMap Timer.triggers).foldl fireTrigger sched,
        fired ++ (passTimers rest).2.flatMap Timer.triggers) := by
  induction rest using passTimers.induct generalizing n done sched fired with
  | case1 =>
    rw [pitLoop_end n (by simp), passTimers]
    simp
  | case2 t hexp =>
    obtain ⟨n, rfl⟩ := Nat.exists_eq_add_one_of_ne_zero (ne_zero_of_lt hn)
    rw [pitLoop_expires n hexp, pitLoop_end n (by simp), passTimers, if_pos hexp]
    simp
  | case3 t hexp =>
    obtain ⟨n, rfl⟩ := Nat.exists_eq_add_one_of_ne_zero (ne_zero_of_lt hn)
    rw [pitLoop_waits n hexp, pitLoop_end n (by simp), passTimers, if_neg hexp]
    simp
  | case4 t u rest hexp ih =>
    -- The timer behind has moved to the index, and the index goes on.
    obtain ⟨n, rfl⟩ := Nat.exists_eq_add_one_of_ne_zero (ne_zero_of_lt hn)
    simp only [length_cons] at hn
    have hrest := ih n (done ++ [u]) (t.triggers.foldl fireTrigger sched) (fired ++ t.triggers)
      (by omega)
    rw [length_append, length_singleton, append_assoc, singleton_append]
      at hrest
    rw [pitLoop_expires n hexp, hrest, passTimers, if_pos hexp]
    simp
  | case5 t u rest hexp ih =>
    obtain ⟨n, rfl⟩ := Nat.exists_eq_add_one_of_ne_zero (ne_zero_of_lt hn)
    simp only [length_cons] at hn
    rw [pitLoop_waits n hexp, ih n (done ++ [t.tick]) sched fired (by simp; omega), passTimers,
      if_neg hexp]
    simp

theorem passTimers_perm (l : List Timer) : ∃ rest,
    l.Perm (steppedOver l ++ ((passTimers l).2 ++ rest)) ∧
      (passTimers l).1.Perm (steppedOver l ++ rest.map Timer.tick) ∧
      (∀ t ∈ (passTimers l).2, t.Expires) ∧ ∀ t ∈ rest, ¬ t.Expires := by
  induction l using passTimers.induct with
  | case1 => exact ⟨[], by simp [steppedOver, passTimers]⟩
  | case2 t hexp => exact ⟨[], by simp [steppedOver, passTimers, hexp]⟩
  | case3 t hexp => exact ⟨[t], by simp [steppedOver, passTimers, hexp]⟩
  | case4 t u rest hexp ih =>
    obtain ⟨kept, hall, hleft, hexpired, hkept⟩ := ih
    rw [steppedOver, passTimers, if_pos hexp, if_pos hexp]
    refine ⟨kept, ?_, hleft.cons u, ?_, hkept⟩
    · refine (Perm.swap u t rest).trans (Perm.cons u ?_)
      exact (hall.cons t).trans perm_middle.symm
    · intro v hv
      rcases mem_cons.mp hv with rfl | hv
      · exact hexp
      · exact hexpired v hv
  | case5 t u rest hexp ih =>
    obtain ⟨kept, hall, hleft, hexpired, hkept⟩ := ih
    rw [steppedOver, passTimers, if_neg hexp, if_neg hexp]
    refine ⟨t :: kept, ?_, ?_, hexpired, ?_⟩
    · rw [← append_assoc] at hall ⊢
      exact (hall.cons t).trans perm_middle.symm
    · exact (hleft.cons t.tick).trans perm_middle.symm
    · intro v hv
      rcases mem_cons.mp hv with rfl | hv
      · exact hexp
      · exact hkept v hv

/-! ## Durations -/

namespace Timespec

/-- A duration that is normalized and not negative. -/
def Normalized (d : Timespec) : Prop := 0 ≤ d.tvSec ∧ 0 ≤ d.tvNsec ∧ d.tvNsec < timerHz

instance (d : Timespec) : Decidable d.Normalized := inferInstanceAs (Decidable (_ ∧ _ ∧ _))

def nanoseconds (d : Timespec) : ℤ := d.tvSec * timerHz + d.tvNsec

def ticks (d : Timespec) : ℕ := max 1 ((d.nanoseconds + 999999) / 1000000).toNat

variable {d : Timespec}

theorem sub_interval (hd : d.Normalized) :
    (timespecSub d pitInterval).Normalized ∧
      (timespecSub d pitInterval).nanoseconds = max 0 (d.nanoseconds - 1000000) := by
  obtain ⟨hsec, hlow, hhigh⟩ := hd
  unfold timespecSub pitInterval Normalized nanoseconds
  simp only [timerHz, pitFreq] at hhigh ⊢
  split_ifs <;> dsimp only at * <;> omega

theorem expires_iff (hd : d.Normalized) (triggers : List ℕ) :
    (⟨d, triggers⟩ : Timer).Expires ↔ d.ticks = 1 := by
  obtain ⟨⟨hsec, hlow, hhigh⟩, hns⟩ := sub_interval hd
  have hzero : (⟨d, triggers⟩ : Timer).Expires ↔ (timespecSub d pitInterval).nanoseconds = 0 := by
    unfold Timer.Expires Timer.tick nanoseconds
    simp only [timerHz] at hhigh ⊢
    omega
  rw [hzero, ticks]
  omega

theorem ticks_sub_interval (hd : d.Normalized) (hmore : d.ticks ≠ 1) :
    (timespecSub d pitInterval).ticks = d.ticks - 1 := by
  have hns := (sub_interval hd).2
  unfold ticks at hmore ⊢
  omega

end Timespec

/-! ## The timer of a trigger -/

def firedBy (s : PitState) : List ℕ := (pitHandler s).2

theorem pitHandler_eq (s : PitState) :
    (pitHandler s).1.timerList = (passTimers s.timerList).1 ∧
      (pitHandler s).1.triggerCnt = s.triggerCnt ∧
      firedBy s = (passTimers s.timerList).2.flatMap Timer.triggers := by
  have hloop := pitLoop_eq s.timerList.length [] s.timerList s.sched [] (le_refl _)
  rw [length_nil, nil_append] at hloop
  unfold firedBy pitHandler
  rw [hloop]
  exact ⟨rfl, rfl, rfl⟩

section Fates

variable {l : List Timer} {t : Timer} {trigger : ℕ}

theorem flatMap_tick (l : List Timer) :
    (l.map Timer.tick).flatMap Timer.triggers = l.flatMap Timer.triggers :=
  flatMap_map Timer.tick Timer.triggers l

theorem passTimers_triggers (hnodup : (l.flatMap Timer.triggers).Nodup) :
    ((passTimers l).1.flatMap Timer.triggers).Nodup ∧
      ∀ trigger ∈ (passTimers l).1.flatMap Timer.triggers, trigger ∈ l.flatMap Timer.triggers := by
  obtain ⟨rest, hall, hleft, -⟩ := passTimers_perm l
  have hbefore := hall.flatMap_right Timer.triggers
  have hafter := hleft.flatMap_right Timer.triggers
  rw [flatMap_append, flatMap_append] at hbefore
  rw [flatMap_append, flatMap_tick] at hafter
  refine ⟨?_, fun trigger hmem => ?_⟩
  · rw [hafter.nodup_iff]
    refine Nodup.sublist ?_ (hbefore.nodup_iff.mp hnodup)
    exact (Sublist.refl _).append (sublist_append_right _ _)
  · rw [hbefore.mem_iff]
    rcases mem_append.mp (hafter.mem_iff.mp hmem) with hover | hrest
    · exact mem_append_left _ hover
    · exact mem_append_right _ (mem_append_right _ hrest)

theorem timer_cases (hnodup : (l.flatMap Timer.triggers).Nodup) (ht : t ∈ l)
    (htrigger : t.triggers = [trigger]) :
    ((∃ u ∈ steppedOver l, trigger ∈ u.triggers) ∧ t ∈ (passTimers l).1 ∧
        ((passTimers l).2.flatMap Timer.triggers).count trigger = 0) ∨
      ((¬ ∃ u ∈ steppedOver l, trigger ∈ u.triggers) ∧ t.Expires ∧
        ((passTimers l).2.flatMap Timer.triggers).count trigger = 1 ∧
        trigger ∉ (passTimers l).1.flatMap Timer.triggers) ∨
      ((¬ ∃ u ∈ steppedOver l, trigger ∈ u.triggers) ∧ ¬ t.Expires ∧ t.tick ∈ (passTimers l).1 ∧
        ((passTimers l).2.flatMap Timer.triggers).count trigger = 0) := by
  obtain ⟨rest, hall, hleft, hexpired, hwaits⟩ := passTimers_perm l
  have hmem : ∀ {l' : List Timer}, t ∈ l' → trigger ∈ l'.flatMap Timer.triggers := fun h =>
    mem_flatMap.mpr ⟨t, h, by rw [htrigger]; exact mem_singleton_self _⟩
  -- The trigger belongs to one part of the list only.
  have hparts := (hall.flatMap_right Timer.triggers).nodup_iff.mp hnodup
  rw [flatMap_append, flatMap_append] at hparts
  obtain ⟨-, htail, hover⟩ := nodup_append.mp hparts
  obtain ⟨hfired, -, hrest⟩ := nodup_append.mp htail
  rcases mem_append.mp (hall.mem_iff.mp ht) with hin | hin
  · refine .inl ⟨mem_flatMap.mp (hmem hin), ?_, count_eq_zero.mpr fun hf => ?_⟩
    · exact hleft.mem_iff.mpr (mem_append_left _ hin)
    · exact hover trigger (hmem hin) trigger (mem_append_left _ hf) rfl
  · have hnot : ¬ ∃ u ∈ steppedOver l, trigger ∈ u.triggers := fun h => by
      refine hover trigger (mem_flatMap.mpr h) trigger ?_ rfl
      rw [← flatMap_append]
      exact hmem hin
    refine .inr ?_
    rcases mem_append.mp hin with hin | hin
    · refine .inl ⟨hnot, hexpired t hin, count_eq_one_of_mem hfired (hmem hin), fun hk => ?_⟩
      have hafter := (hleft.flatMap_right Timer.triggers).mem_iff.mp hk
      rw [flatMap_append, flatMap_tick] at hafter
      rcases mem_append.mp hafter with hk | hk
      · exact hnot (mem_flatMap.mp hk)
      · exact hrest trigger (hmem hin) trigger hk rfl
    · refine .inr ⟨hnot, hwaits t hin, ?_, count_eq_zero.mpr fun hf => ?_⟩
      · exact hleft.mem_iff.mpr (mem_append_right _ (mem_map_of_mem hin))
      · exact hrest trigger hf trigger (hmem hin) rfl

theorem count_of_notMem (h : trigger ∉ l.flatMap Timer.triggers) :
    ((passTimers l).2.flatMap Timer.triggers).count trigger = 0 := by
  obtain ⟨rest, hall, -⟩ := passTimers_perm l
  refine count_eq_zero.mpr fun hf => h ?_
  have hbefore := hall.flatMap_right Timer.triggers
  rw [flatMap_append, flatMap_append] at hbefore
  exact hbefore.mem_iff.mpr (mem_append_right _ (mem_append_left _ hf))

end Fates

/-! ## Runs -/

inductive PitOp where
  | arm (event : ℕ) (timespec : Timespec)
  | tick
  deriving DecidableEq, Repr

def pitNext (s : PitState) : PitOp → PitState
  | .arm event timespec => eventCreateTimer event timespec s
  | .tick => (pitHandler s).1

/-- The steps of a run. -/
def pitStep (s : PitState) (op : PitOp) (s' : PitState) : Prop := s' = pitNext s op

def pitInit (clock : Timespec) (sched : SchedState) : PitState := ⟨clock, clock, [], 0, sched⟩

def ticksOf (tr : List (Event PitState PitOp)) : List PitState :=
  tr.filterMap fun e => if e.act = .tick then some e.pre else none

/-- **A trigger is fired on time**: once, by the call with the number `n`. -/
def OnTime (trigger : ℕ) (ticks : List PitState) (n : ℕ) : Prop :=
  ∀ j s, ticks[j]? = some s → (firedBy s).count trigger = if j + 1 = n then 1 else 0

/-- The timer of a trigger is not stepped over, by any of the calls up to the one with the number
`n`, if there is this one. -/
def NotSteppedOver (trigger : ℕ) (ticks : List PitState) (n : ℕ) : Prop :=
  n ≤ ticks.length → ∀ j < n, ∀ s, ticks[j]? = some s → ¬ SteppedOver s trigger

structure PitInv (s : PitState) : Prop where
  nodup : (s.timerList.flatMap Timer.triggers).Nodup
  allocated : ∀ trigger ∈ s.timerList.flatMap Timer.triggers, trigger < s.triggerCnt

section Runs

variable {s s' : PitState} {tr : List (Event PitState PitOp)} {trigger n : ℕ} {d : Timespec}

theorem triggers_arm (s : PitState) (event : ℕ) (d : Timespec) :
    (eventCreateTimer event d s).timerList.flatMap Timer.triggers =
      s.timerList.flatMap Timer.triggers ++ [s.triggerCnt] := by
  rw [eventCreateTimer, flatMap_append]
  rfl

theorem PitInv.arm (h : PitInv s) (event : ℕ) (d : Timespec) :
    PitInv (eventCreateTimer event d s) := by
  have htriggers := triggers_arm s event d
  refine ⟨?_, fun trigger hmem => ?_⟩
  · rw [htriggers, nodup_append]
    refine ⟨h.nodup, nodup_singleton _, fun a ha b hb heq => ?_⟩
    have hlt := h.allocated a ha
    rw [heq, mem_singleton.mp hb] at hlt
    exact absurd hlt (lt_irrefl _)
  · rw [htriggers] at hmem
    rcases mem_append.mp hmem with hold | hnew
    · exact Nat.lt_succ_of_lt (h.allocated trigger hold)
    · rw [mem_singleton.mp hnew]
      exact Nat.lt_succ_self _

theorem PitInv.tick (h : PitInv s) : PitInv (pitHandler s).1 := by
  obtain ⟨hlist, hcnt, -⟩ := pitHandler_eq s
  obtain ⟨hnodup, hsub⟩ := passTimers_triggers h.nodup
  refine ⟨by rw [hlist]; exact hnodup, fun trigger hmem => ?_⟩
  rw [hlist] at hmem
  exact h.allocated trigger (hsub trigger hmem)

theorem PitInv.step {op : PitOp} (h : PitInv s) (hstep : pitStep s op s') : PitInv s' := by
  obtain rfl : s' = pitNext s op := hstep
  cases op with
  | arm event d => exact h.arm event d
  | tick => exact h.tick

theorem onTime_cons {ticks : List PitState} (hn : 0 < n) :
    OnTime trigger (s :: ticks) n ↔
      (firedBy s).count trigger = (if n = 1 then 1 else 0) ∧ OnTime trigger ticks (n - 1) := by
  constructor
  · intro h
    refine ⟨(h 0 s rfl).trans (if_congr (by omega) rfl rfl), fun j u hj => ?_⟩
    exact (h (j + 1) u hj).trans (if_congr (by omega) rfl rfl)
  · rintro ⟨hfirst, hrest⟩ j u hj
    cases j with
    | zero =>
      cases hj
      exact hfirst.trans (if_congr (by omega) rfl rfl)
    | succ j => exact (hrest j u hj).trans (if_congr (by omega) rfl rfl)

theorem notSteppedOver_cons {ticks : List PitState} (hn : 0 < n) (hs : ¬ SteppedOver s trigger) :
    NotSteppedOver trigger (s :: ticks) n ↔ NotSteppedOver trigger ticks (n - 1) := by
  constructor
  · intro h hle j hj u hu
    exact h (by rw [length_cons]; omega) (j + 1) (by omega) u hu
  · intro h hle j hj u hu
    rw [length_cons] at hle
    cases j with
    | zero =>
      cases hu
      exact hs
    | succ j => exact h (by omega) j (by omega) u hu

theorem onTime_gone (run : Run pitStep s tr s') (hinv : PitInv s)
    (hgone : trigger ∉ s.timerList.flatMap Timer.triggers) (hold : trigger < s.triggerCnt) :
    OnTime trigger (ticksOf tr) 0 := by
  induction tr generalizing s with
  | nil => exact fun j u hj => absurd hj (by simp [ticksOf])
  | cons e tr ih =>
    obtain ⟨rfl, hstep, rest⟩ := run.of_cons
    have hinv' := hinv.step hstep
    obtain ⟨pre, op, post⟩ := e
    obtain rfl : post = pitNext pre op := hstep
    cases op with
    | arm event d =>
      refine ih rest hinv' (fun hmem => ?_) (Nat.lt_succ_of_lt hold)
      have htriggers := triggers_arm pre event d
      rcases mem_append.mp (htriggers ▸ hmem) with hmem | hmem
      · exact hgone hmem
      · exact absurd (mem_singleton.mp hmem) (ne_of_lt hold)
    | tick =>
      obtain ⟨hlist, hcnt, hfired⟩ := pitHandler_eq pre
      have hrest := ih rest hinv' (fun hmem => hgone ((passTimers_triggers hinv.nodup).2 trigger
        (hlist ▸ hmem))) (hcnt.symm ▸ hold)
      intro j u hj
      cases j with
      | zero =>
        cases hj
        rw [hfired]
        exact count_of_notMem hgone
      | succ j => exact (hrest j u hj).trans (if_congr (by omega) rfl rfl)

theorem not_early (run : Run pitStep s tr s') (hinv : PitInv s)
    (ht : ⟨d, [trigger]⟩ ∈ s.timerList) (hd : d.Normalized) {j : ℕ} (hj : j + 1 < d.ticks)
    {u : PitState} (hu : (ticksOf tr)[j]? = some u) : (firedBy u).count trigger = 0 := by
  induction tr generalizing s d j with
  | nil => exact absurd hu (by simp [ticksOf])
  | cons e tr ih =>
    obtain ⟨rfl, hstep, rest⟩ := run.of_cons
    have hinv' := hinv.step hstep
    obtain ⟨pre, op, post⟩ := e
    obtain rfl : post = pitNext pre op := hstep
    cases op with
    | arm event d' => exact ih rest hinv' (mem_append_left _ ht) hd hj hu
    | tick =>
      obtain ⟨hlist, -, hfired⟩ := pitHandler_eq pre
      rcases timer_cases hinv.nodup ht rfl with ⟨-, hkept, hcount⟩ | ⟨-, hexp, -⟩ |
        ⟨-, hexp, hkept, hcount⟩
      · cases j with
        | zero =>
          cases hu
          rw [hfired]
          exact hcount
        | succ j => exact ih rest hinv' (hlist ▸ hkept) hd (by omega) hu
      · rw [Timespec.expires_iff hd] at hexp
        omega
      · rw [Timespec.expires_iff hd] at hexp
        cases j with
        | zero =>
          cases hu
          rw [hfired]
          exact hcount
        | succ j =>
          refine ih rest hinv' (hlist ▸ hkept) (Timespec.sub_interval hd).1 ?_ hu
          rw [Timespec.ticks_sub_interval hd hexp]
          omega

theorem onTime_iff (run : Run pitStep s tr s') (hinv : PitInv s)
    (ht : ⟨d, [trigger]⟩ ∈ s.timerList) (hd : d.Normalized) :
    OnTime trigger (ticksOf tr) d.ticks ↔ NotSteppedOver trigger (ticksOf tr) d.ticks := by
  induction tr generalizing s d with
  | nil =>
    have hpos : 0 < d.ticks := lt_of_lt_of_le zero_lt_one (le_max_left _ _)
    refine iff_of_true (fun j u hu => absurd hu (by simp [ticksOf])) fun hle => ?_
    exact absurd hle (Nat.not_le_of_lt hpos)
  | cons e tr ih =>
    have hearly := fun j u => not_early run hinv ht hd (j := j) (u := u)
    obtain ⟨rfl, hstep, rest⟩ := run.of_cons
    have hinv' := hinv.step hstep
    obtain ⟨pre, op, post⟩ := e
    obtain rfl : post = pitNext pre op := hstep
    have hpos : 0 < d.ticks := lt_of_lt_of_le zero_lt_one (le_max_left _ _)
    cases op with
    | arm event d' => exact ih rest hinv' (mem_append_left _ ht) hd
    | tick =>
      obtain ⟨hlist, hcnt, hfired⟩ := pitHandler_eq pre
      have hticks : ticksOf (⟨pre, .tick, pitNext pre .tick⟩ :: tr) = pre :: ticksOf tr := rfl
      rcases timer_cases hinv.nodup ht rfl with ⟨hover, hkept, hcount⟩ |
        ⟨hover, hexp, hcount, hgone⟩ | ⟨hover, hexp, hkept, hcount⟩
      · -- Stepped over: the timer still has all its ticks, one call too late for them.
        rw [hticks] at hearly ⊢
        by_cases hle : d.ticks ≤ (pre :: ticksOf tr).length
        · refine iff_of_false (fun htime => ?_) fun hnot => hnot hle 0 hpos pre rfl hover
          obtain ⟨hfirst, hlater⟩ := (onTime_cons hpos).mp htime
          by_cases hone : d.ticks = 1
          · rw [if_pos hone, hfired, hcount] at hfirst
            exact absurd hfirst zero_ne_one
          · rw [length_cons] at hle
            obtain ⟨u, hu⟩ : ∃ u, (ticksOf tr)[d.ticks - 2]? = some u :=
              ⟨_, getElem?_eq_getElem (by omega)⟩
            have hlast := hlater _ u hu
            rw [if_pos (by omega), not_early rest hinv' (hlist ▸ hkept) hd (by omega) hu] at hlast
            exact absurd hlast zero_ne_one
        · refine iff_of_true (fun j u hu => ?_) fun h => absurd h hle
          have hlt := (List.getElem?_eq_some_iff.mp hu).1
          rw [if_neg (by omega)]
          exact hearly j u (by omega) hu
      · rw [Timespec.expires_iff hd] at hexp
        have hold := hinv.allocated trigger (mem_flatMap.mpr ⟨_, ht, mem_singleton_self _⟩)
        have hafter := onTime_gone rest hinv' (hlist ▸ hgone) (hcnt.symm ▸ hold)
        rw [hticks, hexp]
        refine iff_of_true ?_ ?_
        · rw [onTime_cons zero_lt_one, hfired]
          exact ⟨hcount, hafter⟩
        · rw [notSteppedOver_cons zero_lt_one hover]
          exact fun _ j hj => absurd hj (Nat.not_lt_zero j)
      · rw [Timespec.expires_iff hd] at hexp
        have hrest := ih rest hinv' (hlist ▸ hkept) (Timespec.sub_interval hd).1
        rw [Timespec.ticks_sub_interval hd hexp] at hrest
        rw [hticks, onTime_cons hpos, notSteppedOver_cons hpos hover, if_neg hexp, hfired, hrest]
        exact and_iff_right hcount

def pitTrace : PitState → List PitOp → List (Event PitState PitOp)
  | _, [] => []
  | s, op :: ops => ⟨s, op, pitNext s op⟩ :: pitTrace (pitNext s op) ops

theorem pitTrace_run (s : PitState) (ops : List PitOp) :
    Run pitStep s (pitTrace s ops) (ops.foldl pitNext s) := by
  induction ops generalizing s with
  | nil => exact Run.nil
  | cons op ops ih =>
    have hfirst : Run pitStep s [⟨s, op, pitNext s op⟩] (pitNext s op) := Run.nil.snoc rfl
    exact hfirst.append (ih (pitNext s op))

def pitBoot : PitState := pitInit ⟨0, 0⟩ oneTaskSched

end Runs

end Pastoral
