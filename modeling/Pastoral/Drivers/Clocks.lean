import Pastoral.Drivers.Pit

/-!
# The clocks

`pit_handler` adds a millisecond to `clock_realtime` and `clock_monotonic`.

## Main definitions

* `Timespec.afterTicks`: what the clocks are to show after `n` ticks
* `Timespec.shown`: what they show

## Main results

* `clocks_normalized_iff`: the two are the same but for every thousandth tick, as long as the seconds
  fit in a `time_t`; and when `timespec_add` is exact
-/

open Transition

namespace Pastoral

theorem int64_add (x y : ℤ) : int64 (int64 x + y) = int64 (x + y) := by
  unfold int64
  omega

theorem int64_eq_self_iff {x : ℤ} : int64 x = x ↔ -2 ^ 63 ≤ x ∧ x < 2 ^ 63 := by
  unfold int64
  omega

namespace Timespec

def InSecond (d : Timespec) : Prop := 0 ≤ d.tvNsec ∧ d.tvNsec < timerHz

def afterTicks (epoch : ℤ) (n : ℕ) : Timespec :=
  ⟨epoch + (n / 1000 : ℕ), (n % 1000 : ℕ) * 1000000⟩

def shown (epoch : ℤ) : ℕ → Timespec
  | 0 => ⟨epoch, 0⟩
  | n + 1 => ⟨int64 (epoch + (n / 1000 : ℕ)), ((n % 1000 : ℕ) + 1) * 1000000⟩

theorem add_interval_shown (epoch : ℤ) (n : ℕ) :
    timespecAdd (shown epoch n) pitInterval = shown epoch (n + 1) := by
  cases n with
  | zero => simp [shown, timespecAdd, pitInterval, timerHz, pitFreq, int64]
  | succ n =>
    have hhz : timerHz = 1000000000 := rfl
    have hnsec : int64 (((n % 1000 : ℕ) + 1) * 1000000 + 1000000) =
        ((n % 1000 : ℕ) + 1) * 1000000 + 1000000 := int64_eq_self_iff.mpr (by omega)
    have hinterval : pitInterval = ⟨0, 1000000⟩ := rfl
    unfold timespecAdd shown
    rw [hinterval]
    dsimp only
    rw [hnsec, int64_add, int64_add, add_zero]
    -- The carry is made by the tick after the full second.
    split_ifs with hcarry
    · have hnext : ((n + 1) / 1000 : ℕ) = n / 1000 + 1 := by omega
      rw [mk.injEq, hnext, Nat.cast_add, Nat.cast_one, ← add_assoc]
      exact ⟨rfl, by omega⟩
    · have hnext : ((n + 1) / 1000 : ℕ) = n / 1000 := by omega
      rw [mk.injEq, hnext]
      exact ⟨rfl, by omega⟩

theorem shown_eq_iff {epoch : ℤ} (hepoch : -2 ^ 63 ≤ epoch ∧ epoch < 2 ^ 63) (n : ℕ) :
    shown epoch n = afterTicks epoch n ↔
      (n = 0 ∨ n % 1000 ≠ 0) ∧ epoch + (n / 1000 : ℕ) < 2 ^ 63 := by
  cases n with
  | zero => simpa [shown, afterTicks] using hepoch.2
  | succ n =>
    have hself := int64_eq_self_iff (x := epoch + (n / 1000 : ℕ))
    simp only [shown, afterTicks, mk.injEq]
    omega

/-- The seconds of a sum, with the carry. -/
def secondsOf (a b : Timespec) : ℤ :=
  a.tvSec + b.tvSec + if a.tvNsec + b.tvNsec > timerHz then 1 else 0

theorem add_inSecond_iff {a b : Timespec} (ha : a.InSecond) (hb : b.InSecond) :
    (timespecAdd a b).InSecond ∧ (timespecAdd a b).nanoseconds = a.nanoseconds + b.nanoseconds ↔
      a.tvNsec + b.tvNsec ≠ timerHz ∧ -2 ^ 63 ≤ secondsOf a b ∧ secondsOf a b < 2 ^ 63 := by
  have hnsec : int64 (a.tvNsec + b.tvNsec) = a.tvNsec + b.tvNsec := by
    simp only [InSecond, timerHz] at ha hb
    exact int64_eq_self_iff.mpr (by omega)
  have hplain := int64_eq_self_iff (x := a.tvSec + b.tvSec)
  have hcarried := int64_eq_self_iff (x := a.tvSec + b.tvSec + 1)
  simp only [timespecAdd, InSecond, nanoseconds, secondsOf, timerHz, hnsec, int64_add] at *
  split_ifs with hcarry <;> dsimp only <;> omega

end Timespec

section Clocks

variable {epoch : ℤ} {s₀ s s' : PitState} {tr : List (Event PitState PitOp)} {op : PitOp}

def PitState.Shows (epoch : ℤ) (n : ℕ) (s : PitState) : Prop :=
  s.clockRealtime = .shown epoch n ∧ s.clockMonotonic = .shown epoch n

theorem PitState.Shows.step (h : s.Shows epoch (ticksOf tr).length) (hstep : pitStep s op s') :
    s'.Shows epoch (ticksOf (tr ++ [⟨s, op, s'⟩])).length := by
  obtain ⟨hreal, hmono⟩ := h
  rw [ticksOf, List.filterMap_append, List.length_append]
  cases op with
  | arm event timespec =>
    obtain rfl : s' = eventCreateTimer event timespec s := hstep
    exact ⟨hreal, hmono⟩
  | tick =>
    obtain rfl : s' = (pitHandler s).1 := hstep
    have hnext := Timespec.add_interval_shown epoch (ticksOf tr).length
    exact ⟨(congrArg (timespecAdd · pitInterval) hreal).trans hnext,
      (congrArg (timespecAdd · pitInterval) hmono).trans hnext⟩

/-- **When the clocks are normalized**: after `n` ticks if `n` is not a multiple of a thousand; and
after `timespec_add` if the nanoseconds do not make up a second. In both cases the seconds have to
fit. -/
theorem clocks_normalized_iff (run : Run pitStep s₀ tr s) (hreal : s₀.clockRealtime = ⟨epoch, 0⟩)
    (hmono : s₀.clockMonotonic = ⟨epoch, 0⟩) (hepoch : -2 ^ 63 ≤ epoch ∧ epoch < 2 ^ 63) :
    (s.clockRealtime = .afterTicks epoch (ticksOf tr).length ∧
        s.clockMonotonic = .afterTicks epoch (ticksOf tr).length ↔
      ((ticksOf tr).length = 0 ∨ (ticksOf tr).length % 1000 ≠ 0) ∧
        epoch + ((ticksOf tr).length / 1000 : ℕ) < 2 ^ 63) ∧
    ∀ a b : Timespec, a.InSecond → b.InSecond →
      ((timespecAdd a b).InSecond ∧
          (timespecAdd a b).nanoseconds = a.nanoseconds + b.nanoseconds ↔
        a.tvNsec + b.tvNsec ≠ timerHz ∧ -2 ^ 63 ≤ a.secondsOf b ∧ a.secondsOf b < 2 ^ 63) := by
  have hshows : s.Shows epoch (ticksOf tr).length :=
    run.invariant (I := fun tr s => s.Shows epoch (ticksOf tr).length) ⟨hreal, hmono⟩
      fun _ _ _ _ h hstep => h.step hstep
  refine ⟨?_, fun a b ha hb => Timespec.add_inSecond_iff ha hb⟩
  rw [hshows.1, hshows.2, and_self, Timespec.shown_eq_iff hepoch]

theorem length_ticksOf_pitTrace (s : PitState) (n : ℕ) :
    (ticksOf (pitTrace s (List.replicate n .tick))).length = n := by
  induction n generalizing s with
  | zero => rfl
  | succ n ih => exact congrArg (· + 1) (ih (pitNext s .tick))

/-- **A second and a tick.** -/
theorem clocks_normalized_iff_second : ∃ tr s, Run pitStep pitBoot tr s ∧
    (ticksOf tr).length = 1001 ∧ s.clockRealtime = ⟨1, 1000000⟩ := by
  have run := pitTrace_run pitBoot (List.replicate 1001 .tick)
  have hticks := length_ticksOf_pitTrace pitBoot 1001
  have hclocks := (clocks_normalized_iff run rfl rfl (by decide)).1
  rw [hticks] at hclocks
  exact ⟨_, _, run, hticks, (hclocks.mpr (by decide)).1⟩

/-- **A second that is not carried**: after a thousand ticks. -/
theorem thousandth_tick_not_carried : ∃ tr s, Run pitStep pitBoot tr s ∧
    (ticksOf tr).length = 1000 ∧ s.clockRealtime = ⟨0, 1000000000⟩ ∧
    Timespec.afterTicks 0 1000 = ⟨1, 0⟩ ∧
    timespecAdd ⟨0, 999000000⟩ pitInterval = ⟨0, 1000000000⟩ := by
  have run := pitTrace_run pitBoot (List.replicate 1000 .tick)
  have hticks := length_ticksOf_pitTrace pitBoot 1000
  have hshows := run.invariant (I := fun tr s => s.Shows 0 (ticksOf tr).length) ⟨rfl, rfl⟩
    fun _ _ _ _ h hstep => h.step hstep
  rw [hticks] at hshows
  exact ⟨_, _, run, hticks, hshows.1, by decide, by decide⟩

end Clocks

end Pastoral
