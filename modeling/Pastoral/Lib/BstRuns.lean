import Mathlib.Data.List.Nodup
import Pastoral.Lib.Bst
import Pastoral.Theory.Run

/-!
# Runs of the search-tree macros

A tree is changed by insertions of nodes that are not in it and deletions of nodes that are.

## Main results

* `bst_kept_iff`: which deletions keep the parent pointers right
-/

namespace Pastoral

open List Option SearchTree Transition TreeHeap

/-- **A search tree**, with the parent pointers of its nodes. -/
structure CorrectTree {α : Type} (key : α → ℕ) (h : Heap α) (root : Option ℕ)
    (t : BinaryTree (ℕ × α)) : Prop where
  links : Links h (fun _ => True) none root t
  nodup : (pointers t).Nodup
  order : SearchOrder key t

def Node.Deletable {α : Type} (n : Node α) : Prop :=
  n.left = none ∧ n.right = none ∨ n.left ≠ none ∧ n.right ≠ none ∧ n.parent ≠ none
  deriving Decidable

/-! ## One operation -/

section Operations

variable {α : Type} {key : α → ℕ} {h : Heap α} {root : Option ℕ} {t : BinaryTree (ℕ × α)} {p : ℕ}

theorem CorrectTree.insert (ht : CorrectTree key h root t) (hp : p < h.length)
    (hfresh : p ∉ pointers t) (a : α) :
    ∃ h' root' t', bstGenericInsert key (h.set p ⟨a, none, none, none⟩) root (some p) =
        some (h', root') ∧ CorrectTree key h' root' t' ∧
      ∀ x, x ∈ inorder t' ↔ x ∈ inorder t ∨ x = (p, a) := by
  have hlinks : Links (h.set p ⟨a, none, none, none⟩) (fun _ => True) none root t := by
    refine ht.links.congr (fun q hq => ?_) fun _ _ => id
    have hne : p ≠ q := fun heq => hfresh (heq ▸ hq)
    exact getElem?_set_ne hne
  have hnode : Links (h.set p ⟨a, none, none, none⟩) (fun _ => True) none (some p)
      (.node (p, a) .nil .nil) :=
    ⟨rfl, ⟨a, none, none, none⟩, getElem?_set_self hp, rfl, fun _ => rfl, rfl, rfl⟩
  have hnodup : (pointers t ++ pointers (.node (p, a) .nil .nil)).Nodup := by
    rw [nodup_append]
    refine ⟨ht.nodup, by simp, ?_⟩
    rintro q hq q' hq' rfl
    obtain rfl := mem_singleton.mp hq'
    exact hfresh hq
  obtain ⟨h', root', hinsert, hlinks', -⟩ :=
    bstGenericInsert_spec key hlinks hnode hnodup fun q hq => .inl hq
  have hplug : plug (descend key (key a) t []) .nil = t := plug_descend t []
  have hlabels : inorder t =
      before (descend key (key a) t []) ++ after (descend key (key a) t []) := by
    conv_lhs => rw [← hplug, inorder_plug]
    simp
  have hpointers : (pointers t).Perm (ctxPointers (descend key (key a) t [])) := by
    conv_lhs => rw [← hplug]
    simpa using perm_pointers_plug (descend key (key a) t []) (.nil : BinaryTree (ℕ × α))
  refine ⟨h', root', _, hinsert, ⟨hlinks', ?_, ?_⟩, fun x => ?_⟩
  · refine (perm_pointers_plug ..).nodup_iff.mpr ?_
    exact ((hpointers.append_right _).nodup_iff).mp hnodup
  · -- the key of the node leads to the leaf
    refine searchOrder_plug.mpr ⟨hplug.symm ▸ ht.order, ⟨by simp, by simp, trivial, trivial⟩, ?_⟩
    intro f hf y hy
    obtain rfl : y = (p, a) := by simpa using hy
    rcases descend_passes hf with hf | ⟨-, hpass⟩
    · exact absurd hf not_mem_nil
    · exact hpass
  · rw [inorder_plug, hlabels]
    simp only [inorder_node, inorder_nil, mem_append, mem_singleton]
    tauto

theorem CorrectTree.position (ht : CorrectTree key h root t) (hp : p ∈ pointers t) {n : Node α}
    (hn : h[p]? = some n) : ∃ c l r, t = plug c (.node (p, n.val) l r) ∧ n.parent = parentOf c ∧
      n.left = rootPtr l ∧ n.right = rootPtr r := by
  obtain ⟨x, hx, rfl⟩ := mem_map.mp hp
  obtain ⟨c, l, r, rfl⟩ := exists_plug hx
  obtain ⟨hval, hparent, hleft, hright⟩ := ht.links.node_eq hn
  exact ⟨c, l, r, by rw [hval], hparent trivial, hleft, hright⟩

def DropsNode (key : α → ℕ) (h : Heap α) (root : Option ℕ) (t : BinaryTree (ℕ × α)) (p : ℕ) :
    Prop :=
  ∃ h' root' t', bstGenericDelete key h root p = some (h', root') ∧
    CorrectTree key h' root' t' ∧ ∀ x, x ∈ inorder t' ↔ x ∈ inorder t ∧ x.1 ≠ p

theorem rootPtr_eq_none {s : BinaryTree (ℕ × α)} : rootPtr s = none ↔ s = .nil := by
  cases s <;> simp [rootPtr]

section Position

variable {c : List (Frame α)} {a : α} {l r : BinaryTree (ℕ × α)} {x : ℕ}

theorem not_stale_iff : (∀ x, ¬ Stale l r x) ↔ (l = .nil ↔ r = .nil) := by
  cases l <;> cases r <;> simp [Stale, rootPtr]

theorem Stale.parent (hx : Stale l r x)
    (hl : Links h (fun _ => True) none root (plug c (.node (p, a) l r))) :
    ∃ m, h[x]? = some m ∧ m.parent = some p := by
  obtain ⟨hole, -, -, n, -, -, -, hleft, hright⟩ := links_plug.mp hl
  have hroot : ∀ {ptr s}, Links h (fun _ => True) (some p) ptr s → rootPtr s = some x →
      ∃ m, h[x]? = some m ∧ m.parent = some p := by
    intro ptr s hs hx
    cases s with
    | nil => exact absurd hx (by simp [rootPtr])
    | node v _ _ =>
      obtain rfl : v.1 = x := some.inj hx
      obtain ⟨-, m, hm, -, hparent, -⟩ := hs
      exact ⟨m, hm, hparent trivial⟩
  rcases hx with ⟨-, hx⟩ | ⟨-, hx⟩
  · exact hroot hleft hx
  · exact hroot hright hx

theorem CorrectTree.mem_others_iff (ht : CorrectTree key h root (plug c (.node (p, a) l r)))
    (y : ℕ × α) : y ∈ before c ++ (inorder l ++ inorder r) ++ after c ↔
      y ∈ inorder (plug c (.node (p, a) l r)) ∧ y.1 ≠ p := by
  have hnodup := inorder_nodup ht.nodup
  have hp : (p, a) ∈ inorder (plug c (.node (p, a) l r)) := by
    rw [inorder_plug]
    simp
  rw [inorder_plug] at hnodup
  rw [mem_removed_iff hnodup, ← inorder_node, ← inorder_plug]
  refine and_congr_right fun hy => not_congr ⟨fun heq => heq ▸ rfl, fun heq => ?_⟩
  exact inj_on_of_nodup_map ht.nodup hy hp heq

theorem CorrectTree.not_stale_of_drops (ht : CorrectTree key h root (plug c (.node (p, a) l r)))
    (hdel : c ≠ [] ∨ l = .nil ∧ r = .nil)
    (hdrops : DropsNode key h root (plug c (.node (p, a) l r)) p) (x : ℕ) : ¬ Stale l r x := by
  intro hx
  obtain ⟨h', root', t', hdelete, ht', hlabels⟩ := hdrops
  obtain ⟨h'', root'', t'', hdelete', hlinks, -, -, -, -, -, hstale⟩ :=
    bstGenericDelete_spec ht.links ht.nodup ht.order trivial hdel
  obtain ⟨rfl, rfl⟩ := Prod.mk.inj (some.inj (hdelete.symm.trans hdelete'))
  obtain rfl := ht'.links.unique hlinks
  obtain ⟨hkeep, f, c', y, z, w, rfl⟩ := hstale x hx
  obtain ⟨m, hm, hmparent⟩ := hx.parent ht.links
  -- the parent in the new tree is not the one that the child has
  obtain ⟨-, hparent, -⟩ := ht'.links.node_eq (x := (x, y)) (hkeep.trans hm)
  have hlabel := some.inj ((hparent trivial).symm.trans hmparent)
  have hmem : f.label ∈ inorder (plug (f :: c') (.node (x, y) z w)) := by
    have hcons := (perm_labels_cons f c').mem_iff.mpr (mem_cons_self ..)
    rw [inorder_plug]
    simp only [mem_append] at hcons ⊢
    tauto
  exact ((hlabels _).mp hmem).2 hlabel

end Position

theorem CorrectTree.delete_iff (ht : CorrectTree key h root t) (hp : p ∈ pointers t) {n : Node α}
    (hn : h[p]? = some n) : DropsNode key h root t p ↔ Node.Deletable n := by
  obtain ⟨c, l, r, rfl, hparent, hleft, hright⟩ := ht.position hp hn
  have hchildren : Node.Deletable n ↔ (c ≠ [] ∨ l = .nil ∧ r = .nil) ∧ ∀ x, ¬ Stale l r x := by
    rw [Node.Deletable, hleft, hright, hparent, ne_eq, ne_eq, rootPtr_eq_none, rootPtr_eq_none,
      not_stale_iff]
    cases c <;> simp only [parentOf] <;> tauto
  rw [hchildren]
  constructor
  · intro hdrops
    have hdel : c ≠ [] ∨ l = .nil ∧ r = .nil := by
      by_contra hnot
      rw [not_or, not_not] at hnot
      obtain ⟨rfl, hnot⟩ := hnot
      have hnone : bstGenericDelete key h root p = none := by
        refine bstGenericDelete_root hn hparent ?_
        rw [hleft, hright, ne_eq, ne_eq, rootPtr_eq_none, rootPtr_eq_none]
        tauto
      obtain ⟨h', root', t', hdelete, -⟩ := hdrops
      exact absurd (hdelete.symm.trans hnone) (by simp)
    exact ⟨hdel, ht.not_stale_of_drops hdel hdrops⟩
  · rintro ⟨hdel, hno⟩
    obtain ⟨h', root', t', hdelete, hlinks, horder, hlabels, -⟩ :=
      bstGenericDelete_spec ht.links ht.nodup ht.order trivial hdel
    refine ⟨h', root', t', hdelete, ⟨?_, ?_, horder⟩, fun x => ?_⟩
    · exact hlinks.congr (fun _ _ => rfl) fun q _ _ => ⟨trivial, hno q⟩
    · refine ht.nodup.sublist (Sublist.map _ ?_)
      rw [hlabels, inorder_plug]
      exact removed_sublist ..
    · rw [hlabels]
      exact ht.mem_others_iff x

end Operations

/-! ## Runs -/

inductive BstOp (α : Type)
  | insert (p : ℕ) (a : α)
  | delete (p : ℕ)
  deriving DecidableEq, Repr

abbrev BstState (α : Type) := Option (Heap α × Option ℕ)

def members {α : Type} (h : Heap α) (root : Option ℕ) : List ℕ :=
  (read h h.length root).map Prod.fst

def bstStep {α : Type} (key : α → ℕ) : BstState α → BstOp α → Option (BstState α)
  | none, _ => none
  | some (h, root), .insert p a =>
    if p < h.length ∧ p ∉ members h root then
      some (bstGenericInsert key (h.set p ⟨a, none, none, none⟩) root (some p))
    else none
  | some (h, root), .delete p =>
    if p ∈ members h root then some (bstGenericDelete key h root p) else none

/-- **The operation keeps the tree**: it leads from a correct tree to a correct tree, with the node
that is inserted or without the one that is deleted. -/
def Kept {α : Type} (key : α → ℕ) (ev : Event (BstState α) (BstOp α)) : Prop :=
  ∃ h root t h' root' t', ev.pre = some (h, root) ∧ CorrectTree key h root t ∧
    ev.post = some (h', root') ∧ CorrectTree key h' root' t' ∧
    match ev.act with
    | .insert p a => ∀ x, x ∈ inorder t' ↔ x ∈ inorder t ∨ x = (p, a)
    | .delete p => ∀ x, x ∈ inorder t' ↔ x ∈ inorder t ∧ x.1 ≠ p

/-- A node that is deleted is a leaf, or has two children and a parent. -/
def DeletesDeletable {α : Type} (ev : Event (BstState α) (BstOp α)) : Prop :=
  match ev.pre, ev.act with
  | some (h, _), .delete p => ∀ n ∈ h[p]?, Node.Deletable n
  | _, _ => True

section Runs

variable {α : Type} {key : α → ℕ} {h : Heap α} {root : Option ℕ} {t : BinaryTree (ℕ × α)}
  {tr : List (Event (BstState α) (BstOp α))} {s : BstState α}

theorem CorrectTree.members_eq (ht : CorrectTree key h root t) : members h root = pointers t := by
  rw [members, read_eq ht.links (ht.links.length_le ht.nodup)]
  rfl

theorem CorrectTree.kept_iff (ht : CorrectTree key h root t) {op : BstOp α}
    (hstep : bstStep key (some (h, root)) op = some s) :
    Kept key ⟨some (h, root), op, s⟩ ↔ DeletesDeletable ⟨some (h, root), op, s⟩ := by
  cases op with
  | insert p a =>
    rw [bstStep, ite_none_right_eq_some, ht.members_eq] at hstep
    obtain ⟨⟨hp, hfresh⟩, hstep⟩ := hstep
    obtain ⟨h', root', t', hinsert, ht', hlabels⟩ := ht.insert hp hfresh a
    refine iff_of_true ?_ trivial
    exact ⟨h, root, t, h', root', t', rfl, ht, (some.inj hstep).symm.trans hinsert, ht',
      hlabels⟩
  | delete p =>
    rw [bstStep, ite_none_right_eq_some, ht.members_eq] at hstep
    obtain ⟨hp, hstep⟩ := hstep
    cases hstep
    obtain ⟨n, hn⟩ : ∃ n, h[p]? = some n := ⟨_, getElem?_eq_getElem (ht.links.lt_length p hp)⟩
    have hdeletable : DeletesDeletable ⟨some (h, root), .delete p, bstGenericDelete key h root p⟩ ↔
        Node.Deletable n := by
      simp [DeletesDeletable, hn]
    rw [hdeletable, ← ht.delete_iff hp hn]
    constructor
    · rintro ⟨h₀, root₀, t₀, h', root', t', heq, ht₀, hdelete, ht', hlabels⟩
      cases heq
      obtain rfl := ht.links.unique ht₀.links
      exact ⟨h', root', t', hdelete, ht', hlabels⟩
    · rintro ⟨h', root', t', hdelete, ht', hlabels⟩
      exact ⟨h, root, t, h', root', t', rfl, ht, hdelete, ht', hlabels⟩

/-- **Search trees under insertions and deletions**: from every correct tree, every operation of a
run keeps the tree if and only if every node that is deleted is a leaf, or has two children and a
parent. -/
theorem bst_kept_iff (ht : CorrectTree key h root t)
    (run : Run (fun s op s' => bstStep key s op = some s') (some (h, root)) tr s) :
    (∀ ev ∈ tr, Kept key ev) ↔ ∀ ev ∈ tr, DeletesDeletable ev := by
  refine run.every_iff (I := fun s => ∃ h root t, s = some (h, root) ∧ CorrectTree key h root t)
    ⟨h, root, t, rfl, ht⟩ ?_ ?_
  · rintro _ op s' ⟨h, root, t, rfl, ht⟩ hstep hdeletable
    obtain ⟨-, -, -, h', root', t', -, -, hpost, ht', -⟩ := (ht.kept_iff hstep).mpr hdeletable
    exact ⟨h', root', t', hpost, ht'⟩
  · rintro _ op s' ⟨h, root, t, rfl, ht⟩ hstep
    exact ht.kept_iff hstep

end Runs

instance {α : Type} (ev : Event (BstState α) (BstOp α)) : Decidable (DeletesDeletable ev) := by
  unfold DeletesDeletable
  split <;> infer_instance

def spareNodes : Heap ℕ := List.replicate 6 ⟨0, none, none, none⟩

theorem correctTree_empty : CorrectTree id spareNodes none .nil := ⟨rfl, by simp, trivial⟩

def leafAndTwoChildren : List (BstOp ℕ) :=
  [.insert 0 8, .insert 1 4, .insert 2 2, .insert 3 6, .insert 4 9, .delete 1, .delete 2,
    .insert 2 5]

theorem bst_kept_iff_leaf_and_two_children : ∃ tr s,
    Run (fun s op s' => bstStep id s op = some s') (some (spareNodes, none)) tr s ∧
      tr.map Event.act = leafAndTwoChildren ∧ ∀ ev ∈ tr, Kept id ev := by
  obtain ⟨tr, s, run, hacts, hdeletable⟩ := Run.computed (f := bstStep id)
    (P := fun tr _ => ∀ ev ∈ tr, DeletesDeletable ev) (some (spareNodes, none)) leafAndTwoChildren
    (by decide +kernel)
  exact ⟨tr, s, run, hacts, (bst_kept_iff correctTree_empty run).mpr hdeletable⟩

theorem not_kept_of_member {α : Type} {key : α → ℕ} {ev : Event (BstState α) (BstOp α)} {p : ℕ}
    {h : Heap α} {root : Option ℕ} (hact : ev.act = .delete p) (hpost : ev.post = some (h, root))
    (hmem : p ∈ members h root) : ¬ Kept key ev := by
  rintro ⟨-, -, t, h', root', t', -, -, hpost', ht', hlabels⟩
  obtain ⟨rfl, rfl⟩ := Prod.mk.inj (some.inj (hpost.symm.trans hpost'))
  rw [hact] at hlabels
  rw [ht'.members_eq] at hmem
  obtain ⟨x, hx, rfl⟩ := mem_map.mp hmem
  exact ((hlabels x).mp hx).2 rfl

def parentThenChild : List (BstOp ℕ) :=
  [.insert 0 4, .insert 1 2, .insert 2 1, .delete 1, .delete 2]

/-- **A node that is deleted and stays**: after its parent is deleted, the node at 2 has a parent
that is gone. -/
theorem bst_delete_breaks :
    (∃ tr s, Run (fun s op s' => bstStep id s op = some s') (some (spareNodes, none)) tr s ∧
      tr.map Event.act = parentThenChild ∧ ¬ ∀ ev ∈ tr, Kept id ev) ∧
    ∃ tr, Run (fun s op s' => bstStep id s op = some s') (some (spareNodes, none)) tr none ∧
      tr.map Event.act = [.insert 0 4, .insert 1 2, .delete 0] := by
  constructor
  · obtain ⟨tr, s, run, hacts, ev, hev, hact, hpost⟩ := Run.computed (f := bstStep id)
      (P := fun tr _ => ∃ ev ∈ tr, ev.act = .delete 2 ∧
        (ev.post.map fun s => decide (2 ∈ members s.1 s.2)) = some true)
      (some (spareNodes, none)) parentThenChild (by decide +kernel)
    obtain ⟨⟨h, root⟩, hpost, hmem⟩ := map_eq_some_iff.mp hpost
    exact ⟨tr, s, run, hacts, fun hkept =>
      not_kept_of_member hact hpost (of_decide_eq_true hmem) (hkept ev hev)⟩
  · obtain ⟨tr, s, run, hacts, hnone⟩ := Run.computed (f := bstStep id) (P := fun _ s => s.isNone)
      (some (spareNodes, none)) [.insert 0 4, .insert 1 2, .delete 0] (by decide +kernel)
    obtain rfl : s = none := isNone_iff_eq_none.mp hnone
    exact ⟨tr, run, hacts⟩

end Pastoral
