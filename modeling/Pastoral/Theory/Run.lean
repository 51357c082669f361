import Mathlib.Data.List.Basic
import Mathlib.Data.List.Induction

/-!
# Runs of a transition relation

A run from a state is the list of its events: the state before, the label and the state after
of every step, in order.

## Main definitions

* `Event`, `Run`

## Main results

* `Run.invariant`, `Run.guarded`: an invariant along a run, and one under a guard
* `Run.every_iff`: a property of the events is equivalent to a guard on them
* `Run.computed`: a run by evaluation
-/

open List Option

namespace Transition

variable {S A : Type*}

structure Event (S A : Type*) where
  pre : S
  act : A
  post : S

/-- The events `tr` of a run from `s₀` to the last state. -/
inductive Run (step : S → A → S → Prop) (s₀ : S) : List (Event S A) → S → Prop
  | nil : Run step s₀ [] s₀
  | snoc {tr : List (Event S A)} {s : S} {a : A} {s' : S} (run : Run step s₀ tr s)
      (hstep : step s a s') : Run step s₀ (tr ++ [⟨s, a, s'⟩]) s'

variable {step : S → A → S → Prop} {s₀ s : S} {tr : List (Event S A)}

/-- **Guarded invariance**: an invariant of the trace and the state that holds at the start and
is kept by every step meeting the guard `Q` holds at the end of a run whose events meet `Q`. -/
theorem Run.guarded {I : List (Event S A) → S → Prop} {Q : Event S A → Prop} (h₀ : I [] s₀)
    (hkeep : ∀ tr s a s', I tr s → step s a s' → Q ⟨s, a, s'⟩ → I (tr ++ [⟨s, a, s'⟩]) s')
    (run : Run step s₀ tr s) (hQ : ∀ e ∈ tr, Q e) : I tr s := by
  induction run with
  | nil => exact h₀
  | snoc run hstep ih =>
    refine hkeep _ _ _ _ (ih fun e he => hQ e ?_) hstep (hQ _ ?_)
    · exact mem_append_left _ he
    · exact mem_append_right _ (mem_singleton.mpr rfl)

/-- **Invariance**: an invariant of the trace and the state that holds at the start and is kept
by every step holds at the end of every run. -/
theorem Run.invariant {I : List (Event S A) → S → Prop} (h₀ : I [] s₀)
    (hkeep : ∀ tr s a s', I tr s → step s a s' → I (tr ++ [⟨s, a, s'⟩]) s')
    (run : Run step s₀ tr s) : I tr s :=
  run.guarded (Q := fun _ => True) h₀ (fun tr s a s' h hs _ => hkeep tr s a s' h hs)
    fun _ _ => trivial

theorem Run.append {tr' : List (Event S A)} {s' : S} (run : Run step s₀ tr s)
    (run' : Run step s tr' s') : Run step s₀ (tr ++ tr') s' := by
  induction run' with
  | nil => simpa using run
  | snoc run' hstep ih =>
    rw [← append_assoc]
    exact ih.snoc hstep

theorem Run.of_nil (run : Run step s₀ [] s) : s = s₀ := by
  generalize hnil : ([] : List (Event S A)) = tr at run
  cases run with
  | nil => rfl
  | snoc run hstep => exact absurd hnil (by simp)

theorem Run.of_snoc {e : Event S A} (run : Run step s₀ (tr ++ [e]) s) :
    Run step s₀ tr e.pre ∧ step e.pre e.act e.post ∧ e.post = s := by
  generalize hall : tr ++ [e] = all at run
  cases run with
  | nil => exact absurd hall (by simp)
  | snoc run hstep =>
    obtain ⟨rfl, rfl⟩ := append_singleton_inj.mp hall
    exact ⟨run, hstep, rfl⟩

theorem Run.of_append {tr' : List (Event S A)} {s' : S} (run : Run step s₀ (tr ++ tr') s') :
    ∃ s, Run step s₀ tr s ∧ Run step s tr' s' := by
  induction tr' using reverseRecOn generalizing s' with
  | nil =>
    rw [append_nil] at run
    exact ⟨s', run, Run.nil⟩
  | append_singleton tr' e ih =>
    rw [← append_assoc] at run
    obtain ⟨before, hstep, rfl⟩ := run.of_snoc
    obtain ⟨s, first, rest⟩ := ih before
    exact ⟨s, first, rest.snoc hstep⟩

theorem Run.of_cons {e : Event S A} {s' : S} (run : Run step s₀ (e :: tr) s') :
    e.pre = s₀ ∧ step e.pre e.act e.post ∧ Run step e.post tr s' := by
  have hcut : Run step s₀ ([e] ++ tr) s' := run
  obtain ⟨s, first, rest⟩ := hcut.of_append
  have hone : Run step s₀ ([] ++ [e]) s := first
  obtain ⟨none, hstep, rfl⟩ := hone.of_snoc
  exact ⟨none.of_nil, hstep, rest⟩

/-! ## Runs by evaluation -/

def trace (f : S → A → Option S) : S → List A → Option (List (Event S A) × S)
  | s, [] => some ([], s)
  | s, a :: l => (f s a).bind fun s' => (trace f s' l).map fun r => (⟨s, a, s'⟩ :: r.1, r.2)

theorem Run.of_trace {f : S → A → Option S} {l : List A} (h : trace f s₀ l = some (tr, s)) :
    Run (fun s a s' => f s a = some s') s₀ tr s ∧ tr.map Event.act = l := by
  induction l generalizing s₀ tr with
  | nil =>
    cases h
    exact ⟨Run.nil, rfl⟩
  | cons a l ih =>
    obtain ⟨s₁, hstep, hrest⟩ := bind_eq_some_iff.mp h
    obtain ⟨⟨tr', s'⟩, htrace, hr⟩ := map_eq_some_iff.mp hrest
    cases hr
    have hfirst : Run (fun s a s' => f s a = some s') s₀ [⟨s₀, a, s₁⟩] s₁ := Run.nil.snoc hstep
    obtain ⟨run, hacts⟩ := ih htrace
    exact ⟨hfirst.append run, congrArg (a :: ·) hacts⟩

/-- **A run by evaluation**, with what is computed of its events and its last state. -/
theorem Run.computed {f : S → A → Option S} {P : List (Event S A) → S → Prop}
    [∀ tr s, Decidable (P tr s)] (s₀ : S) (l : List A)
    (h : (trace f s₀ l).any fun r => decide (P r.1 r.2)) :
    ∃ tr s, Run (fun s a s' => f s a = some s') s₀ tr s ∧ tr.map Event.act = l ∧ P tr s := by
  obtain ⟨⟨tr, s⟩, htrace, hP⟩ := (Option.any_eq_true ..).mp h
  obtain ⟨run, hacts⟩ := Run.of_trace htrace
  exact ⟨tr, s, run, hacts, of_decide_eq_true hP⟩

theorem Run.mono {step' : S → A → S → Prop} (run : Run step s₀ tr s)
    (h : ∀ s a s', step s a s' → step' s a s') : Run step' s₀ tr s := by
  induction run with
  | nil => exact Run.nil
  | snoc run hstep ih => exact ih.snoc (h _ _ _ hstep)

theorem Run.restrict {Q : Event S A → Prop} (run : Run step s₀ tr s) (hQ : ∀ e ∈ tr, Q e) :
    Run (fun s a s' => step s a s' ∧ Q ⟨s, a, s'⟩) s₀ tr s := by
  induction run with
  | nil => exact Run.nil
  | snoc run hstep ih =>
    refine (ih fun e he => hQ e ?_).snoc ⟨hstep, hQ _ ?_⟩
    · exact mem_append_left _ he
    · exact mem_append_right _ (mem_singleton.mpr rfl)

theorem Run.forall_event {I : S → Prop} {P : Event S A → Prop} (h₀ : I s₀)
    (hkeep : ∀ s a s', I s → step s a s' → I s')
    (hP : ∀ s a s', I s → step s a s' → P ⟨s, a, s'⟩) (run : Run step s₀ tr s) :
    ∀ e ∈ tr, P e := by
  have key : I s ∧ ∀ e ∈ tr, P e := by
    refine run.invariant (I := fun tr s => I s ∧ ∀ e ∈ tr, P e) ⟨h₀, by simp⟩ ?_
    rintro tr s a s' ⟨hI, hall⟩ hs
    refine ⟨hkeep s a s' hI hs, fun e he => ?_⟩
    rcases mem_append.mp he with he | he
    · exact hall e he
    · rw [mem_singleton.mp he]
      exact hP s a s' hI hs
  exact key.2

/-- **Exactness of a guard**: if the invariant makes `P` and `Q` equivalent at every step, and
the steps meeting `Q` keep the invariant, then all events of a run have `P` exactly when all of
them have `Q`. The first event that fails one of the two fails the other. -/
theorem Run.every_iff {I : S → Prop} {P Q : Event S A → Prop} (h₀ : I s₀)
    (hkeep : ∀ s a s', I s → step s a s' → Q ⟨s, a, s'⟩ → I s')
    (hiff : ∀ s a s', I s → step s a s' → (P ⟨s, a, s'⟩ ↔ Q ⟨s, a, s'⟩))
    (run : Run step s₀ tr s) : (∀ e ∈ tr, P e) ↔ ∀ e ∈ tr, Q e := by
  induction run with
  | nil => simp
  | @snoc tr s a s' run hstep ih =>
    have hI : (∀ e ∈ tr, Q e) → I s := fun hQ =>
      run.guarded (I := fun _ s => I s) h₀ (fun _ s a s' h hs hq => hkeep s a s' h hs hq) hQ
    simp only [mem_append, mem_singleton, or_imp, forall_and, forall_eq, ih]
    exact and_congr_right fun hQ => hiff s a s' (hI hQ) hstep

end Transition
