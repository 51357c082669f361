import Mathlib.Data.List.Basic
import Mathlib.Data.List.Find
import Mathlib.Data.List.Infix
import Mathlib.Data.List.Nodup

/-!
# Trees of named nodes

A tree in memory: the nodes below `size` have a name, a list of children and a pointer to their
parent.

## Main definitions

* `resolve`: a list of names, from a node downwards
* `Grows`: new nodes are made, and children are added at the end of the lists

## Main results

* `WF.resolve_inj`: different names lead to different nodes
* `Grows.resolve`: what was resolved stays
-/

open List Option

namespace NameTree

structure Tree (κ : Type*) where
  name : ℕ → κ
  children : ℕ → List ℕ
  parent : ℕ → Option ℕ
  size : ℕ

namespace Tree

variable {κ : Type*} [DecidableEq κ] {t t' : Tree κ} {p q c n root : ℕ} {k : κ} {ks ls : List κ}

def child (t : Tree κ) (p : ℕ) (k : κ) : Option ℕ := (t.children p).find? fun c => t.name c = k

def resolve (t : Tree κ) : ℕ → List κ → Option ℕ
  | p, [] => some p
  | p, k :: ks => (t.child p k).bind fun c => t.resolve c ks

structure WF (t : Tree κ) : Prop where
  inside : ∀ p < t.size, ∀ c ∈ t.children p, c < t.size
  back : ∀ p < t.size, ∀ c ∈ t.children p, t.parent c = some p
  distinct : ∀ p < t.size, ((t.children p).map t.name).Nodup

/-! ## Children -/

theorem child_eq_none_iff : t.child p k = none ↔ ∀ c ∈ t.children p, t.name c ≠ k := by
  simp [child]

theorem mem_of_child (h : t.child p k = some c) : c ∈ t.children p ∧ t.name c = k :=
  ⟨mem_of_find?_eq_some h, by simpa using find?_some h⟩

theorem WF.child_of_mem (h : t.WF) (hp : p < t.size) (hc : c ∈ t.children p)
    (hk : t.name c = k) : t.child p k = some c := by
  cases hchild : t.child p k with
  | none => exact absurd hk (child_eq_none_iff.mp hchild c hc)
  | some c' =>
    obtain ⟨hc', hk'⟩ := mem_of_child hchild
    rw [inj_on_of_nodup_map (h.distinct p hp) hc' hc (hk'.trans hk.symm)]

/-! ## Resolution -/

@[simp] theorem resolve_nil : t.resolve p [] = some p := rfl

theorem resolve_cons : t.resolve p (k :: ks) = (t.child p k).bind fun c => t.resolve c ks := rfl

theorem resolve_append : t.resolve p (ks ++ ls) = (t.resolve p ks).bind fun q => t.resolve q ls := by
  induction ks generalizing p with
  | nil => rfl
  | cons k ks ih =>
    rw [cons_append, resolve_cons, resolve_cons]
    cases t.child p k with
    | none => rfl
    | some c => exact ih

theorem resolve_snoc : t.resolve p (ks ++ [k]) = (t.resolve p ks).bind fun q => t.child q k := by
  rw [resolve_append]
  congr 1
  funext q
  rw [resolve_cons]
  cases t.child q k <;> rfl

theorem WF.child_lt (h : t.WF) (hp : p < t.size) (hchild : t.child p k = some c) : c < t.size :=
  h.inside p hp c (mem_of_child hchild).1

theorem WF.resolve_lt (h : t.WF) (hp : p < t.size) (hn : t.resolve p ks = some n) : n < t.size := by
  induction ks generalizing p with
  | nil => exact some.inj hn ▸ hp
  | cons k ks ih =>
    obtain ⟨c, hchild, hrest⟩ := bind_eq_some_iff.mp hn
    exact ih (h.child_lt hp hchild) hrest

/-- **Different names lead to different nodes**: a node knows its name and its parent, and the root
has none. -/
theorem WF.resolve_inj (h : t.WF) (hroot : root < t.size) (hnone : t.parent root = none)
    (hks : t.resolve root ks = some n) (hls : t.resolve root ls = some n) : ks = ls := by
  -- What is reached by a nonempty list has a parent.
  have hparent : ∀ {ms : List κ} {m : κ} {q : ℕ}, t.resolve root (ms ++ [m]) = some q →
      ∃ p, t.resolve root ms = some p ∧ t.parent q = some p ∧ t.name q = m := by
    intro ms m q hq
    rw [resolve_snoc] at hq
    obtain ⟨p, hp, hchild⟩ := bind_eq_some_iff.mp hq
    obtain ⟨hmem, hname⟩ := mem_of_child hchild
    exact ⟨p, hp, h.back p (h.resolve_lt hroot hp) q hmem, hname⟩
  induction ks using reverseRecOn generalizing ls n with
  | nil =>
    cases hks
    rcases eq_nil_or_concat' ls with rfl | ⟨ls, l, rfl⟩
    · rfl
    · obtain ⟨p, -, hback, -⟩ := hparent hls
      rw [hnone] at hback
      simp at hback
  | append_singleton ks k ih =>
    obtain ⟨p, hp, hback, hname⟩ := hparent hks
    rcases eq_nil_or_concat' ls with rfl | ⟨ls, l, rfl⟩
    · cases hls
      rw [hnone] at hback
      simp at hback
    · obtain ⟨q, hq, hback', hname'⟩ := hparent hls
      obtain rfl := some.inj (hback.symm.trans hback')
      rw [ih hp hq, ← hname, ← hname']

/-! ## Growth -/

structure Grows (t t' : Tree κ) : Prop where
  size : t.size ≤ t'.size
  name : ∀ p < t.size, t'.name p = t.name p
  parent : ∀ p < t.size, t'.parent p = t.parent p
  children : ∀ p < t.size, t.children p <+: t'.children p

omit [DecidableEq κ] in
theorem Grows.refl (t : Tree κ) : Grows t t :=
  ⟨le_refl _, fun _ _ => rfl, fun _ _ => rfl, fun _ _ => prefix_rfl⟩

omit [DecidableEq κ] in
theorem Grows.trans {t'' : Tree κ} (h : Grows t t') (h' : Grows t' t'') : Grows t t'' :=
  ⟨le_trans h.size h'.size,
    fun p hp => (h'.name p (lt_of_lt_of_le hp h.size)).trans (h.name p hp),
    fun p hp => (h'.parent p (lt_of_lt_of_le hp h.size)).trans (h.parent p hp),
    fun p hp => (h.children p hp).trans (h'.children p (lt_of_lt_of_le hp h.size))⟩

theorem Grows.child (h : Grows t t') (hwf : t.WF) (hp : p < t.size)
    (hchild : t.child p k = some c) : t'.child p k = some c := by
  obtain ⟨l, hl⟩ := h.children p hp
  have hsame : (t.children p).find? (fun c => t'.name c = k) = t.child p k :=
    find?_congr fun c hc => by rw [h.name c (hwf.inside p hp c hc)]
  unfold Tree.child
  rw [← hl, find?_append, hsame, hchild]
  rfl

/-- **Growth keeps what was resolved.** -/
theorem Grows.resolve (h : Grows t t') (hwf : t.WF) (hp : p < t.size)
    (hn : t.resolve p ks = some n) : t'.resolve p ks = some n := by
  induction ks generalizing p with
  | nil => exact hn
  | cons k ks ih =>
    obtain ⟨c, hchild, hrest⟩ := bind_eq_some_iff.mp hn
    rw [resolve_cons, h.child hwf hp hchild]
    exact ih (hwf.child_lt hp hchild) hrest

/-! ## One child more -/

/-- The node `c` with the name `k` has been added to the children of `p`. Its own children, if it
has any, have names that `hidden` marks. -/
structure Inserted (hidden : κ → Prop) (t t' : Tree κ) (p c : ℕ) (k : κ) : Prop where
  grows : Grows t t'
  inside : p < t.size
  fresh : c = t.size
  name : t'.name c = k
  added : t'.children p = t.children p ++ [c]
  others : ∀ q < t.size, q ≠ p → t'.children q = t.children q
  below : ∀ d ∈ t'.children c, hidden (t'.name d)

theorem Inserted.child_iff {hidden : κ → Prop} (h : Inserted hidden t t' p c k) (hwf : t.WF)
    (hclear : t.child p k = none) (hq : q < t.size) {l : κ} :
    t'.child q l = some n ↔ t.child q l = some n ∨ (q = p ∧ l = k ∧ n = c) := by
  have hsame : (t.children q).find? (fun c => t'.name c = l) = t.child q l :=
    find?_congr fun c hc => by rw [h.grows.name c (hwf.inside q hq c hc)]
  by_cases hqp : q = p
  · subst hqp
    unfold Tree.child at hsame ⊢
    rw [h.added, find?_append, hsame]
    by_cases hl : l = k
    · subst hl
      have hnone : (t.children q).find? (fun c => t.name c = l) = none := hclear
      rw [hnone]
      simpa [h.name] using eq_comm
    · have hne : ¬ k = l := fun heq => hl heq.symm
      simp [h.name, hl, hne]
  · unfold Tree.child at hsame ⊢
    rw [h.others q hq hqp, hsame]
    simp [hqp]

/-- **One child more is one list of names more**, among the lists without hidden names. -/
theorem Inserted.resolve_iff {hidden : κ → Prop} (h : Inserted hidden t t' p c k) (hwf : t.WF)
    (hclear : t.child p k = none) (hq : q < t.size) (hks : ∀ l ∈ ks, ¬ hidden l) :
    t'.resolve q ks = some n ↔
      t.resolve q ks = some n ∨ ∃ ls, ks = ls ++ [k] ∧ t.resolve q ls = some p ∧ n = c := by
  induction ks generalizing q with
  | nil => simp
  | cons l ks ih =>
    have hrest : ∀ m ∈ ks, ¬ hidden m := fun m hm => hks m (mem_cons_of_mem l hm)
    constructor
    · intro hn
      obtain ⟨d, hchild, hn⟩ := bind_eq_some_iff.mp hn
      rcases (h.child_iff hwf hclear hq).mp hchild with hold | ⟨rfl, rfl, rfl⟩
      · have hd := hwf.child_lt hq hold
        rcases (ih hd hrest).mp hn with hn | ⟨ls, rfl, hls, rfl⟩
        · exact .inl (bind_eq_some_iff.mpr ⟨d, hold, hn⟩)
        · refine .inr ⟨l :: ls, rfl, ?_, rfl⟩
          rw [resolve_cons, hold]
          exact hls
      · -- Below the new node there are hidden names only.
        cases ks with
        | nil =>
          cases hn
          exact .inr ⟨[], rfl, rfl, rfl⟩
        | cons m ms =>
          obtain ⟨e, hchild', -⟩ := bind_eq_some_iff.mp hn
          obtain ⟨he, hname⟩ := mem_of_child hchild'
          exact absurd (hname ▸ h.below e he) (hrest m (mem_cons_self))
    · rintro (hn | ⟨ls, hls, hp, rfl⟩)
      · obtain ⟨d, hchild, hn⟩ := bind_eq_some_iff.mp hn
        refine bind_eq_some_iff.mpr ⟨d, (h.child_iff hwf hclear hq).mpr (.inl hchild), ?_⟩
        exact h.grows.resolve hwf (hwf.child_lt hq hchild) hn
      · rcases ls with - | ⟨m, ls⟩
        · obtain ⟨rfl, rfl⟩ := cons.inj hls
          cases hp
          refine bind_eq_some_iff.mpr ⟨n, ?_, rfl⟩
          exact (h.child_iff hwf hclear hq).mpr (.inr ⟨rfl, rfl, rfl⟩)
        · obtain ⟨rfl, rfl⟩ := cons.inj hls
          obtain ⟨d, hchild, hrest'⟩ := bind_eq_some_iff.mp hp
          refine bind_eq_some_iff.mpr
            ⟨d, (h.child_iff hwf hclear hq).mpr (.inl hchild), ?_⟩
          exact (ih (hwf.child_lt hq hchild) hrest).mpr (.inr ⟨ls, rfl, hrest', rfl⟩)

end Tree

end NameTree
