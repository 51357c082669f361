import Mathlib.Data.List.Nodup
import Mathlib.Logic.Function.Basic

/-!
# Doubly linked lists

Nodes with a pointer to the next node and one to the node before, over any type of pointers.

## Main definitions

* `IsList`: what is met from a head on, each node pointing back to the one before it
* `unlink`, `pushFront`: two or three writes each

## Main results

* `IsList.unlink`, `IsList.pushFront`: the list after them
* `IsList.congr`: lists that share no node with them are not touched
-/

open Function List

namespace DoublyLinked

variable {α : Type*}

@[ext] structure Links (α : Type*) where
  next : α → Option α
  last : α → Option α

variable {L L' : Links α} {prev head : Option α} {a b : α} {l l₁ l₂ : List α}

/-- The list from a head on: the first node points back to `prev`. -/
def IsList (L : Links α) : Option α → Option α → List α → Prop
  | _, head, [] => head = none
  | prev, head, a :: l => head = some a ∧ L.last a = prev ∧ IsList L (some a) (L.next a) l

/-- **A list depends on the pointers of its nodes only.** -/
theorem IsList.congr (h : IsList L prev head l)
    (hsame : ∀ a ∈ l, L'.next a = L.next a ∧ L'.last a = L.last a) : IsList L' prev head l := by
  induction l generalizing prev head with
  | nil => exact h
  | cons a l ih =>
    obtain ⟨hhead, hlast, hrest⟩ := h
    obtain ⟨hnext', hlast'⟩ := hsame a mem_cons_self
    refine ⟨hhead, hlast'.trans hlast, ?_⟩
    rw [hnext']
    exact ih hrest fun b hb => hsame b (mem_cons_of_mem _ hb)

theorem IsList.head_eq (h : IsList L prev head l) : head = l.head? := by
  cases l with
  | nil => exact h
  | cons a l => exact h.1

theorem IsList.unique {prev' : Option α} {l' : List α} (h : IsList L prev head l)
    (h' : IsList L prev' head l') : l = l' := by
  induction l generalizing prev prev' head l' with
  | nil =>
    obtain rfl : head = none := h
    cases l' with
    | nil => rfl
    | cons a l' => exact absurd h'.1 (by simp)
  | cons a l ih =>
    obtain ⟨rfl, -, hrest⟩ := h
    cases l' with
    | nil =>
      have hnone : some a = none := h'
      simp at hnone
    | cons b l' =>
      obtain ⟨hb, -, hrest'⟩ := h'
      cases hb
      rw [ih hrest hrest']

theorem IsList.next_eq (h : IsList L prev head (l₁ ++ a :: l₂)) : L.next a = l₂.head? := by
  induction l₁ generalizing prev head with
  | nil => exact h.2.2.head_eq
  | cons b l₁ ih => exact ih h.2.2

theorem IsList.last_eq (h : IsList L prev head (l₁ ++ a :: l₂)) :
    L.last a = l₁.getLast?.or prev := by
  induction l₁ generalizing prev head with
  | nil => exact h.2.1
  | cons b l₁ ih =>
    rw [ih h.2.2, getLast?_cons]
    cases l₁.getLast? <;> rfl

/-! ## The walk from a head on -/

section Walk

variable {next next' : α → Option α} {p : α → Bool} {n : ℕ}

/-- The nodes from a head on, by the pointers to the next one only. -/
def Linked (next : α → Option α) : Option α → List α → Prop
  | head, [] => head = none
  | head, a :: l => head = some a ∧ Linked next (next a) l

theorem Linked.congr (h : Linked next head l) (hsame : ∀ a ∈ l, next' a = next a) :
    Linked next' head l := by
  induction l generalizing head with
  | nil => exact h
  | cons a l ih =>
    refine ⟨h.1, ?_⟩
    rw [hsame a mem_cons_self]
    exact ih h.2 fun b hb => hsame b (mem_cons_of_mem _ hb)

theorem IsList.linked (h : IsList L prev head l) : Linked L.next head l := by
  induction l generalizing prev head with
  | nil => exact h
  | cons a l ih => exact ⟨h.1, ih h.2.2⟩

/-- The first node that meets `p`, if the walk ends in so many steps. -/
def findNode (next : α → Option α) (p : α → Bool) : ℕ → Option α → Option (Option α)
  | _, none => some none
  | 0, some _ => none
  | n + 1, some a => if p a then some (some a) else findNode next p n (next a)

theorem findNode_eq (h : Linked next head l) (hn : l.length ≤ n) :
    findNode next p n head = some (l.find? p) := by
  induction l generalizing head n with
  | nil =>
    obtain rfl : head = none := h
    cases n <;> rfl
  | cons a l ih =>
    obtain ⟨rfl, hrest⟩ := h
    obtain ⟨n, rfl⟩ := Nat.exists_eq_add_one_of_ne_zero (Nat.ne_zero_of_lt hn)
    rw [findNode]
    by_cases ha : p a
    · rw [if_pos ha, find?_cons_of_pos ha]
    · rw [if_neg ha, find?_cons_of_neg ha]
      exact ih hrest (Nat.le_of_succ_le_succ hn)

end Walk

variable [DecidableEq α]

namespace Links

def setNext (L : Links α) (a : α) (p : Option α) : Links α :=
  { L with next := update L.next a p }

def setLast (L : Links α) (a : α) (p : Option α) : Links α :=
  { L with last := update L.last a p }

def unlink (L : Links α) (a : α) : Links α :=
  let L₁ := match L.next a with
    | some n => L.setLast n (L.last a)
    | none => L
  match L₁.last a with
  | some p => L₁.setNext p (L₁.next a)
  | none => L₁

def pushFront (L : Links α) (head : Option α) (a : α) : Links α :=
  let L₁ := (L.setNext a head).setLast a none
  match head with
  | some d => L₁.setLast d (some a)
  | none => L₁

end Links

/-! ## A node in front -/

theorem pushFront_next (L : Links α) (head : Option α) (a b : α) :
    (L.pushFront head a).next b = if b = a then head else L.next b := by
  cases head <;> exact update_apply _ _ _ _

theorem pushFront_last (L : Links α) (head : Option α) (a b : α) : (L.pushFront head a).last b =
      if head = some b then some a else if b = a then none else L.last b := by
  cases head with
  | none => exact update_apply _ _ _ _
  | some d =>
    by_cases hb : b = d
    · rw [if_pos (congrArg some hb.symm), hb]
      exact update_self _ _ _
    · rw [if_neg fun heq => hb (Option.some.inj heq).symm]
      exact (update_of_ne hb _ _).trans (update_apply _ _ _ _)

/-- **A node in front of a list.** -/
theorem IsList.pushFront (h : IsList L none head l) (hnodup : (a :: l).Nodup) :
    IsList (L.pushFront head a) none (some a) (a :: l) := by
  obtain ⟨hnot, hnodup⟩ := nodup_cons.mp hnodup
  have hhead : head ≠ some a := by
    rw [h.head_eq]
    exact fun heq => hnot (mem_of_head? heq)
  refine ⟨rfl, ?_, ?_⟩
  · rw [pushFront_last, if_neg hhead, if_pos rfl]
  rw [pushFront_next, if_pos rfl]
  cases l with
  | nil => exact h
  | cons d l =>
    obtain ⟨rfl, -, hrest⟩ := h
    have hne : d ≠ a := fun heq => hnot (heq ▸ mem_cons_self)
    refine ⟨rfl, by rw [pushFront_last, if_pos rfl], ?_⟩
    rw [pushFront_next, if_neg hne]
    -- The nodes behind the old head are not touched.
    refine hrest.congr fun b hb => ?_
    have hba : b ≠ a := fun heq => hnot (heq ▸ mem_cons_of_mem _ hb)
    have hdb : some d ≠ some b := fun heq =>
      (nodup_cons.mp hnodup).1 (Option.some.inj heq ▸ hb)
    rw [pushFront_next, if_neg hba, pushFront_last, if_neg hdb, if_neg hba]
    exact ⟨rfl, rfl⟩

/-! ## A node taken out -/

theorem setLast_back (L : Links α) (a n : α) : (L.setLast n (L.last a)).last a = L.last a := by
  refine (update_apply _ _ _ _).trans ?_
  split_ifs <;> rfl

theorem unlink_next (L : Links α) (a b : α) :
    (L.unlink a).next b = if L.last a = some b then L.next a else L.next b := by
  unfold Links.unlink
  cases hn : L.next a with
  | none => cases hp : L.last a <;> simp [hp, hn, Links.setNext, update_apply, eq_comm]
  | some n =>
    dsimp only
    rw [setLast_back]
    cases L.last a <;> simp [hn, Links.setNext, Links.setLast, update_apply, eq_comm]

theorem unlink_last (L : Links α) (a b : α) :
    (L.unlink a).last b = if L.next a = some b then L.last a else L.last b := by
  unfold Links.unlink
  cases hn : L.next a with
  | none => cases hp : L.last a <;> simp [hp, Links.setNext]
  | some n =>
    dsimp only
    rw [setLast_back]
    cases L.last a <;> simp [Links.setNext, Links.setLast, update_apply, eq_comm]

theorem IsList.unlink_head (h : IsList L prev (some a) (a :: l)) (hnodup : (a :: l).Nodup)
    (hprev : ∀ p ∈ prev, p ∉ l) : IsList (L.unlink a) prev (L.next a) l := by
  obtain ⟨-, hlast, hrest⟩ := h
  cases l with
  | nil => exact hrest
  | cons n l =>
    obtain ⟨hn, -, hrest⟩ := hrest
    have hnot : ∀ b ∈ n :: l, L.last a ≠ some b := by
      rw [hlast]
      exact fun b hb heq => hprev b heq hb
    obtain ⟨hnl, -⟩ := nodup_cons.mp (nodup_cons.mp hnodup).2
    refine ⟨hn, ?_, ?_⟩
    · rw [unlink_last, if_pos hn, hlast]
    · rw [unlink_next, if_neg (hnot n mem_cons_self)]
      refine hrest.congr fun b hb => ⟨?_, ?_⟩
      · rw [unlink_next, if_neg (hnot b (mem_cons_of_mem _ hb))]
      · have hnb : some n ≠ some b := fun heq => hnl (Option.some.inj heq ▸ hb)
        rw [unlink_last, hn, if_neg hnb]

/-- **A node taken out of a list**, whose head moves if it was the node. -/
theorem IsList.unlink (h : IsList L prev head (l₁ ++ a :: l₂)) (hnodup : (l₁ ++ a :: l₂).Nodup)
    (hprev : ∀ p ∈ prev, p ∉ l₁ ++ a :: l₂) :
    IsList (L.unlink a) prev (if head = some a then L.next a else head) (l₁ ++ l₂) := by
  -- The induction goes to the node; its neighbour before is the last one that is met.
  induction l₁ generalizing prev head with
  | nil =>
    obtain rfl : head = some a := h.1
    rw [if_pos rfl]
    exact h.unlink_head hnodup fun p hp hl => hprev p hp (mem_cons_of_mem _ hl)
  | cons b l₁ ih =>
    obtain ⟨rfl, hlast, hrest⟩ := h
    obtain ⟨hb, hnodup'⟩ := nodup_cons.mp hnodup
    have hba : b ≠ a := fun heq => hb (heq ▸ mem_append_right _ mem_cons_self)
    have htail := ih hrest hnodup' fun p hp hl => by
      rw [← Option.some.inj hp] at hl
      exact hb hl
    rw [if_neg fun heq => hba (Option.some.inj heq)]
    refine ⟨rfl, ?_, ?_⟩
    · -- The node behind `a` is none before it.
      rw [unlink_last, if_neg, hlast]
      rw [hrest.next_eq]
      exact fun hhead => hb (mem_append_right _
        (mem_cons_of_mem _ (mem_of_head? hhead)))
    · -- Only the node right before `a` gets another pointer.
      have hiff : L.last a = some b ↔ L.next b = some a := by
        rw [hrest.last_eq, hrest.head_eq]
        cases l₁ with
        | nil => simp
        | cons d l₁ =>
          refine iff_of_false (fun heq => ?_) fun heq => ?_
          · obtain ⟨c, hc⟩ := getLast?_isSome.mpr (cons_ne_nil d l₁) |>
              Option.isSome_iff_exists.mp
            rw [hc] at heq
            exact hb (mem_append_left _ (Option.some.inj heq ▸ mem_of_getLast? hc))
          · cases heq
            exact (nodup_cons.mp hnodup').1 (mem_append_right _ mem_cons_self)
      rw [unlink_next, if_congr hiff rfl rfl]
      exact htail

end DoublyLinked
