import Pastoral.Theory.SearchTree
import Mathlib.Data.List.Perm.Subperm

/-!
# Binary trees in a heap

A heap is a list of nodes with two child pointers and a parent pointer, and a pointer is an index.
A program that splices a node out may leave the parent pointer of its child behind.

## Main definitions

* `Links`: what is below a pointer, as a tree labelled by pointers and values, with parent pointers
  that are trusted at some nodes only
* `plug`: a position in a tree is a context, the list of frames from there up to the root

## Main results

* `links_plug`: a tree is a context and the tree in its hole
* `LinksCtx.write`: writing a child pointer is filling the hole
-/

namespace TreeHeap

open List SearchTree

variable {α : Type*}

structure Node (α : Type*) where
  val : α
  left : Option ℕ
  right : Option ℕ
  parent : Option ℕ
  deriving DecidableEq, Repr

abbrev Heap (α : Type*) := List (Node α)

inductive Side
  | left
  | right
  deriving DecidableEq, Repr

def Side.other : Side → Side
  | .left => .right
  | .right => .left

def Node.child (n : Node α) : Side → Option ℕ
  | .left => n.left
  | .right => n.right

def Node.setChild (n : Node α) (ptr : Option ℕ) : Side → Node α
  | .left => { n with left := ptr }
  | .right => { n with right := ptr }

@[simp] theorem setChild_child (n : Node α) (ptr : Option ℕ) (s : Side) :
    (n.setChild ptr s).child s = ptr := by cases s <;> rfl

@[simp] theorem setChild_other (n : Node α) (ptr : Option ℕ) (s : Side) :
    (n.setChild ptr s).child s.other = n.child s.other := by cases s <;> rfl

@[simp] theorem setChild_val (n : Node α) (ptr : Option ℕ) (s : Side) :
    (n.setChild ptr s).val = n.val := by cases s <;> rfl

@[simp] theorem setChild_parent (n : Node α) (ptr : Option ℕ) (s : Side) :
    (n.setChild ptr s).parent = n.parent := by cases s <;> rfl

/-! ## Trees -/

section Trees

variable {h h' : Heap α} {ok ok' : ℕ → Prop} {parent parent' ptr : Option ℕ}
  {t : BinaryTree (ℕ × α)}

def pointers (t : BinaryTree (ℕ × α)) : List ℕ := (inorder t).map Prod.fst

@[simp] theorem pointers_nil : pointers (.nil : BinaryTree (ℕ × α)) = [] := rfl

@[simp] theorem pointers_node (x : ℕ × α) (l r : BinaryTree (ℕ × α)) :
    pointers (.node x l r) = pointers l ++ x.1 :: pointers r := by
  simp [pointers]

theorem mem_pointers {x : ℕ × α} (hx : x ∈ inorder t) : x.1 ∈ pointers t := List.mem_map_of_mem hx

def rootPtr : BinaryTree (ℕ × α) → Option ℕ
  | .nil => none
  | .node x _ _ => some x.1

/-- **Below `ptr` is the tree `t`**, and the parent pointers of its nodes in `ok` are right. -/
def Links (h : Heap α) (ok : ℕ → Prop) :
    Option ℕ → Option ℕ → BinaryTree (ℕ × α) → Prop
  | _, ptr, .nil => ptr = none
  | parent, ptr, .node x l r =>
    ptr = some x.1 ∧ ∃ n, h[x.1]? = some n ∧ n.val = x.2 ∧ (ok x.1 → n.parent = parent) ∧
      Links h ok (some x.1) n.left l ∧ Links h ok (some x.1) n.right r

theorem Links.ptr_eq (hl : Links h ok parent ptr t) : ptr = rootPtr t := by
  cases t with
  | nil => exact hl
  | node x l r => exact hl.1

/-- **The frame rule**: a tree stays where its nodes stay. -/
theorem Links.congr (hl : Links h ok parent ptr t)
    (hsame : ∀ p ∈ pointers t, h'[p]? = h[p]?) (hok : ∀ p ∈ pointers t, ok' p → ok p) :
    Links h' ok' parent ptr t := by
  induction t generalizing parent ptr with
  | nil => exact hl
  | node x l r ihl ihr =>
    obtain ⟨hptr, n, hn, hval, hparent, hleft, hright⟩ := hl
    have hmem : x.1 ∈ pointers (.node x l r) := by simp
    refine ⟨hptr, n, (hsame _ hmem).trans hn, hval, fun h => hparent (hok _ hmem h), ?_, ?_⟩
    · exact ihl hleft (fun p hp => hsame p (by simp [hp])) fun p hp => hok p (by simp [hp])
    · exact ihr hright (fun p hp => hsame p (by simp [hp])) fun p hp => hok p (by simp [hp])

theorem Links.unique {t' : BinaryTree (ℕ × α)} (hl : Links h ok parent ptr t)
    (hl' : Links h ok' parent' ptr t') : t = t' := by
  induction t generalizing parent parent' ptr t' with
  | nil =>
    cases t' with
    | nil => rfl
    | node y l r => exact absurd (hl.symm.trans hl'.1) (by simp)
  | node x l r ihl ihr =>
    obtain ⟨hptr, n, hn, hval, -, hleft, hright⟩ := hl
    cases t' with
    | nil => exact absurd (hptr.symm.trans hl') (by simp)
    | node y l' r' =>
      obtain ⟨hptr', n', hn', hval', -, hleft', hright'⟩ := hl'
      have hxy := Option.some.inj (hptr.symm.trans hptr')
      rw [← hxy, hn] at hn'
      cases hn'
      rw [ihl hleft hleft', ihr hright hright', Prod.ext hxy (hval.symm.trans hval')]

theorem Links.reroot (hl : Links h ok parent ptr t) (parent' : Option ℕ)
    (hok : ∀ p ∈ pointers t, ok' p → ok p ∧ rootPtr t ≠ some p) :
    Links h ok' parent' ptr t := by
  cases t with
  | nil => exact hl
  | node x l r =>
    obtain ⟨hptr, n, hn, hval, -, hleft, hright⟩ := hl
    refine ⟨hptr, n, hn, hval, fun h => absurd rfl (hok x.1 (by simp) h).2, ?_, ?_⟩
    · exact hleft.congr (fun _ _ => rfl) fun p hp h => (hok p (by simp [hp]) h).1
    · exact hright.congr (fun _ _ => rfl) fun p hp h => (hok p (by simp [hp]) h).1

/-- **Writing the parent pointer of the root** makes it trusted. -/
theorem Links.reparent {p : ℕ} {a : α} {l r : BinaryTree (ℕ × α)} {n : Node α}
    (hl : Links h ok parent ptr (.node (p, a) l r)) (hn : h[p]? = some n)
    (hnodup : (pointers (.node (p, a) l r)).Nodup) (parent' : Option ℕ)
    (hok : ∀ q ∈ pointers (.node (p, a) l r), ok' q → ok q ∨ q = p) :
    Links (h.set p { n with parent := parent' }) ok' parent' ptr (.node (p, a) l r) := by
  obtain ⟨hptr, n', hn', hval, -, hleft, hright⟩ := hl
  obtain rfl : n = n' := Option.some.inj (hn.symm.trans hn')
  rw [pointers_node, nodup_append, nodup_cons] at hnodup
  obtain ⟨-, ⟨hpr, -⟩, hdisjoint⟩ := hnodup
  -- the pointer of the root is not in a subtree
  have hpl : p ∉ pointers l := fun hp => hdisjoint p hp p (mem_cons_self ..) rfl
  have hframe : ∀ {s : BinaryTree (ℕ × α)} {ptr : Option ℕ}, p ∉ pointers s →
      (∀ q ∈ pointers s, q ∈ pointers (.node (p, a) l r)) → Links h ok (some p) ptr s →
      Links (h.set p { n with parent := parent' }) ok' (some p) ptr s := by
    intro s ptr hp hsub hs
    refine hs.congr (fun q hq => ?_) fun q hq hokq => ?_
    · have hne : p ≠ q := fun heq => hp (heq ▸ hq)
      exact getElem?_set_ne hne
    · exact (hok q (hsub q hq) hokq).resolve_right fun heq => hp (heq ▸ hq)
  refine ⟨hptr, { n with parent := parent' }, ?_, hval, fun _ => rfl, ?_, ?_⟩
  · exact getElem?_set_self (List.getElem?_eq_some_iff.mp hn).1
  · exact hframe hpl (fun q hq => by simp [hq]) hleft
  · exact hframe hpr (fun q hq => by simp [hq]) hright

theorem Links.val_eq {x : ℕ × α} (hl : Links h ok parent ptr t) (hx : x ∈ inorder t) :
    ∃ n, h[x.1]? = some n ∧ n.val = x.2 := by
  induction t generalizing parent ptr with
  | nil => exact absurd hx not_mem_nil
  | node y l r ihl ihr =>
    obtain ⟨-, n, hn, hval, -, hleft, hright⟩ := hl
    rw [inorder_node, mem_append, mem_cons] at hx
    rcases hx with hx | rfl | hx
    · exact ihl hleft hx
    · exact ⟨n, hn, hval⟩
    · exact ihr hright hx

theorem Links.lt_length (hl : Links h ok parent ptr t) : ∀ p ∈ pointers t, p < h.length := by
  induction t generalizing parent ptr with
  | nil => exact fun p hp => absurd hp not_mem_nil
  | node x l r ihl ihr =>
    obtain ⟨-, n, hn, -, -, hleft, hright⟩ := hl
    intro p hp
    rw [pointers_node, mem_append, mem_cons] at hp
    rcases hp with hp | rfl | hp
    · exact ihl hleft p hp
    · exact (List.getElem?_eq_some_iff.mp hn).1
    · exact ihr hright p hp

theorem Links.length_le (hl : Links h ok parent ptr t) (hnodup : (pointers t).Nodup) :
    (inorder t).length ≤ h.length := by
  have hsub : pointers t ⊆ range h.length := fun p hp => mem_range.mpr (hl.lt_length p hp)
  simpa [pointers] using (subperm_of_subset hnodup hsub).length_le

end Trees

/-! ## Contexts -/

structure Frame (α : Type*) where
  side : Side
  label : ℕ × α
  sibling : BinaryTree (ℕ × α)

def Frame.attach (f : Frame α) (t : BinaryTree (ℕ × α)) : BinaryTree (ℕ × α) :=
  match f.side with
  | .left => .node f.label t f.sibling
  | .right => .node f.label f.sibling t

def plug : List (Frame α) → BinaryTree (ℕ × α) → BinaryTree (ℕ × α)
  | [], t => t
  | f :: c, t => plug c (f.attach t)

def before : List (Frame α) → List (ℕ × α)
  | [] => []
  | ⟨.left, _, _⟩ :: c => before c
  | ⟨.right, x, s⟩ :: c => before c ++ (inorder s ++ [x])

def after : List (Frame α) → List (ℕ × α)
  | [] => []
  | ⟨.left, x, s⟩ :: c => x :: inorder s ++ after c
  | ⟨.right, _, _⟩ :: c => after c

def parentOf : List (Frame α) → Option ℕ
  | [] => none
  | f :: _ => some f.label.1

theorem inorder_plug (c : List (Frame α)) (t : BinaryTree (ℕ × α)) :
    inorder (plug c t) = before c ++ inorder t ++ after c := by
  induction c generalizing t with
  | nil => simp [plug, before, after]
  | cons f c ih =>
    obtain ⟨side, x, s⟩ := f
    cases side <;> simp [plug, Frame.attach, before, after, ih]

theorem plug_append (c d : List (Frame α)) (t : BinaryTree (ℕ × α)) :
    plug (c ++ d) t = plug d (plug c t) := by
  induction c generalizing t with
  | nil => rfl
  | cons f c ih => exact ih _

theorem exists_plug {x : ℕ × α} {t : BinaryTree (ℕ × α)} (hx : x ∈ inorder t) :
    ∃ c l r, t = plug c (.node x l r) := by
  induction t with
  | nil => exact absurd hx not_mem_nil
  | node y l r ihl ihr =>
    rw [inorder_node, mem_append, mem_cons] at hx
    rcases hx with hx | rfl | hx
    · obtain ⟨c, l', r', rfl⟩ := ihl hx
      exact ⟨c ++ [⟨.left, y, r⟩], l', r', by rw [plug_append]; rfl⟩
    · exact ⟨[], l, r, rfl⟩
    · obtain ⟨c, l', r', rfl⟩ := ihr hx
      exact ⟨c ++ [⟨.right, y, l⟩], l', r', by rw [plug_append]; rfl⟩

section Contexts

variable {h h' : Heap α} {ok ok' : ℕ → Prop} {root hole : Option ℕ} {f : Frame α}
  {c : List (Frame α)} {t : BinaryTree (ℕ × α)}

def ctxPointers (c : List (Frame α)) : List ℕ := (before c ++ after c).map Prod.fst

/-- **The context `c` below `root`**, with `hole` in its open child pointer. -/
def LinksCtx (h : Heap α) (ok : ℕ → Prop) (root : Option ℕ) :
    List (Frame α) → Option ℕ → Prop
  | [], hole => hole = root
  | f :: c, hole =>
    ∃ n, h[f.label.1]? = some n ∧ n.val = f.label.2 ∧ (ok f.label.1 → n.parent = parentOf c) ∧
      n.child f.side = hole ∧ Links h ok (some f.label.1) (n.child f.side.other) f.sibling ∧
      LinksCtx h ok root c (some f.label.1)

theorem links_attach {parent ptr : Option ℕ} :
    Links h ok parent ptr (f.attach t) ↔ ptr = some f.label.1 ∧ ∃ n, h[f.label.1]? = some n ∧
      n.val = f.label.2 ∧ (ok f.label.1 → n.parent = parent) ∧
      Links h ok (some f.label.1) (n.child f.side) t ∧
      Links h ok (some f.label.1) (n.child f.side.other) f.sibling := by
  obtain ⟨side, x, s⟩ := f
  cases side with
  | left => exact Iff.rfl
  | right =>
    refine and_congr_right fun _ => exists_congr fun n => ?_
    refine and_congr_right fun _ => and_congr_right fun _ => and_congr_right fun _ => ?_
    exact and_comm

/-- **A tree is a context and the tree in its hole.** -/
theorem links_plug : Links h ok none root (plug c t) ↔
    ∃ hole, LinksCtx h ok root c hole ∧ Links h ok (parentOf c) hole t := by
  induction c generalizing t with
  | nil => exact ⟨fun hl => ⟨root, rfl, hl⟩, fun ⟨_, hhole, hl⟩ => hhole ▸ hl⟩
  | cons f c ih =>
    rw [plug, ih]
    constructor
    · rintro ⟨hole, hctx, hl⟩
      obtain ⟨rfl, n, hn, hval, hparent, ht, hs⟩ := links_attach.mp hl
      exact ⟨_, ⟨n, hn, hval, hparent, rfl, hs, hctx⟩, ht⟩
    · rintro ⟨hole, ⟨n, hn, hval, hparent, rfl, hs, hctx⟩, ht⟩
      exact ⟨_, hctx, links_attach.mpr ⟨rfl, n, hn, hval, hparent, ht, hs⟩⟩

theorem Links.node_eq {x : ℕ × α} {n : Node α} {l r : BinaryTree (ℕ × α)}
    (hl : Links h ok none root (plug c (.node x l r))) (hn : h[x.1]? = some n) :
    n.val = x.2 ∧ (ok x.1 → n.parent = parentOf c) ∧ n.left = rootPtr l ∧ n.right = rootPtr r := by
  obtain ⟨hole, -, hnode⟩ := links_plug.mp hl
  obtain ⟨-, m, hm, hval, hparent, hleft, hright⟩ := hnode
  obtain rfl : n = m := Option.some.inj (hn.symm.trans hm)
  exact ⟨hval, hparent, hleft.ptr_eq, hright.ptr_eq⟩

theorem inorder_nodup (hnodup : (pointers t).Nodup) : (inorder t).Nodup :=
  Pairwise.of_map Prod.fst (fun _ _ hne heq => hne (congrArg Prod.fst heq)) hnodup

theorem removed_sublist {β : Type*} (x : β) (l₁ l₂ l₃ l₄ : List β) :
    (l₁ ++ (l₂ ++ l₃) ++ l₄).Sublist (l₁ ++ (l₂ ++ x :: l₃) ++ l₄) :=
  ((Sublist.refl l₁).append ((Sublist.refl l₂).append
    (sublist_cons_self ..))).append (Sublist.refl l₄)

theorem mem_removed_iff {β : Type*} {x y : β} {l₁ l₂ l₃ l₄ : List β}
    (hnodup : (l₁ ++ (l₂ ++ x :: l₃) ++ l₄).Nodup) :
    y ∈ l₁ ++ (l₂ ++ l₃) ++ l₄ ↔ y ∈ l₁ ++ (l₂ ++ x :: l₃) ++ l₄ ∧ y ≠ x := by
  have hperm : (l₁ ++ (l₂ ++ x :: l₃) ++ l₄).Perm (x :: (l₁ ++ (l₂ ++ l₃) ++ l₄)) := by
    refine (Perm.append_right l₄ (Perm.append_left l₁ perm_middle)).trans ?_
    exact Perm.append_right l₄ perm_middle
  obtain ⟨hx, -⟩ := nodup_cons.mp (hperm.nodup_iff.mp hnodup)
  rw [hperm.mem_iff, mem_cons]
  refine ⟨fun hmem => ⟨.inr hmem, fun heq => hx (heq ▸ hmem)⟩, fun ⟨hmem, hne⟩ => ?_⟩
  exact hmem.resolve_left hne

theorem perm_labels_cons (f : Frame α) (c : List (Frame α)) :
    (before (f :: c) ++ after (f :: c)).Perm
      (f.label :: inorder f.sibling ++ (before c ++ after c)) := by
  obtain ⟨side, x, s⟩ := f
  cases side with
  | left => exact perm_append_comm_assoc ..
  | right =>
    have hswap : (inorder s ++ [x]).Perm (x :: inorder s) := perm_append_singleton ..
    have hmove : (before c ++ (inorder s ++ [x]) ++ after c).Perm
        ((inorder s ++ [x]) ++ (before c ++ after c)) := by
      rw [append_assoc]
      exact perm_append_comm_assoc ..
    exact hmove.trans (hswap.append_right _)

theorem perm_ctxPointers_cons (f : Frame α) (c : List (Frame α)) :
    (ctxPointers (f :: c)).Perm (f.label.1 :: pointers f.sibling ++ ctxPointers c) := by
  have hlabels : (f.label :: inorder f.sibling ++ (before c ++ after c)).map Prod.fst =
      f.label.1 :: pointers f.sibling ++ ctxPointers c := by
    rw [map_append]
    rfl
  exact hlabels ▸ (perm_labels_cons f c).map Prod.fst

theorem perm_pointers_plug (c : List (Frame α)) (t : BinaryTree (ℕ × α)) :
    (pointers (plug c t)).Perm (ctxPointers c ++ pointers t) := by
  rw [pointers, inorder_plug, ctxPointers, pointers, ← map_append, append_assoc,
    append_assoc]
  exact (perm_append_comm.append_left _).map _

/-- **The frame rule** for contexts. -/
theorem LinksCtx.congr (hl : LinksCtx h ok root c hole)
    (hsame : ∀ p ∈ ctxPointers c, h'[p]? = h[p]?) (hok : ∀ p ∈ ctxPointers c, ok' p → ok p) :
    LinksCtx h' ok' root c hole := by
  induction c generalizing hole with
  | nil => exact hl
  | cons f c ih =>
    have hmem : ∀ p, p = f.label.1 ∨ p ∈ pointers f.sibling ∨ p ∈ ctxPointers c →
        p ∈ ctxPointers (f :: c) := by
      intro p hp
      rw [(perm_ctxPointers_cons f c).mem_iff]
      simpa [or_assoc] using hp
    obtain ⟨n, hn, hval, hparent, hhole, hs, hctx⟩ := hl
    have hlabel := hmem _ (.inl rfl)
    refine ⟨n, (hsame _ hlabel).trans hn, hval, fun h => hparent (hok _ hlabel h), hhole, ?_, ?_⟩
    · exact hs.congr (fun p hp => hsame p (hmem p (.inr (.inl hp))))
        fun p hp => hok p (hmem p (.inr (.inl hp)))
    · exact ih hctx (fun p hp => hsame p (hmem p (.inr (.inr hp))))
        fun p hp => hok p (hmem p (.inr (.inr hp)))

/-- **Writing a child pointer fills the hole.** -/
theorem LinksCtx.write (hl : LinksCtx h ok root (f :: c) hole)
    (hnodup : (ctxPointers (f :: c)).Nodup) {n : Node α} (hn : h[f.label.1]? = some n)
    (hole' : Option ℕ) :
    LinksCtx (h.set f.label.1 (n.setChild hole' f.side)) ok root (f :: c) hole' := by
  obtain ⟨n', hn', hval, hparent, -, hs, hctx⟩ := hl
  obtain rfl : n = n' := Option.some.inj (hn.symm.trans hn')
  have hsplit := (perm_ctxPointers_cons f c).nodup_iff.mp hnodup
  rw [cons_append, nodup_cons, mem_append, not_or] at hsplit
  obtain ⟨⟨hsibling, hrest⟩, -⟩ := hsplit
  have hother : ∀ {p}, f.label.1 ≠ p → (h.set f.label.1 (n.setChild hole' f.side))[p]? = h[p]? :=
    fun hne => getElem?_set_ne hne
  refine ⟨n.setChild hole' f.side, ?_, ?_, ?_, ?_, ?_, ?_⟩
  · exact getElem?_set_self (List.getElem?_eq_some_iff.mp hn).1
  · rw [setChild_val, hval]
  · rw [setChild_parent]
    exact hparent
  · rw [setChild_child]
  · rw [setChild_other]
    exact hs.congr (fun p hp => hother fun heq => hsibling (heq ▸ hp)) fun _ _ => id
  · exact hctx.congr (fun p hp => hother fun heq => hrest (heq ▸ hp)) fun _ _ => id

/-- **Filling the hole with another tree**, whose root may have another parent pointer. -/
theorem LinksCtx.splice {ptr parent : Option ℕ} (hl : LinksCtx h ok root (f :: c) hole)
    (ht : Links h ok parent ptr t) (hnodup : (ctxPointers (f :: c) ++ pointers t).Nodup)
    {n : Node α} (hn : h[f.label.1]? = some n) (hok : ∀ p, ok' p → ok p ∧ rootPtr t ≠ some p) :
    Links (h.set f.label.1 (n.setChild ptr f.side)) ok' none root (plug (f :: c) t) := by
  obtain ⟨hctx, -, hdisjoint⟩ := nodup_append.mp hnodup
  have hwrite := hl.write hctx hn ptr
  refine links_plug.mpr ⟨ptr, hwrite.congr (fun _ _ => rfl) fun p _ h => (hok p h).1, ?_⟩
  have hframe : Links (h.set f.label.1 (n.setChild ptr f.side)) ok parent ptr t := by
    refine ht.congr (fun p hp => ?_) fun _ _ => id
    have hmem := (perm_ctxPointers_cons f c).mem_iff.mpr (mem_cons_self ..)
    have hne := hdisjoint _ hmem p hp
    exact getElem?_set_ne hne
  exact hframe.reroot _ fun p _ => hok p

end Contexts

/-! ## The leaf of a key -/

section Descend

variable {key : α → ℕ} {k : ℕ} {t : BinaryTree (ℕ × α)}

/-- The context of the leaf to which the key `k` leads, from the context `c` on. -/
def descend (key : α → ℕ) (k : ℕ) :
    BinaryTree (ℕ × α) → List (Frame α) → List (Frame α)
  | .nil, c => c
  | .node x l r, c =>
    if k < key x.2 then descend key k l (⟨.left, x, r⟩ :: c)
    else descend key k r (⟨.right, x, l⟩ :: c)

theorem plug_descend (t : BinaryTree (ℕ × α)) (c : List (Frame α)) :
    plug (descend key k t c) .nil = plug c t := by
  induction t generalizing c with
  | nil => rfl
  | node x l r ihl ihr =>
    rw [descend]
    split_ifs
    · exact ihl _
    · exact ihr _

theorem plug_ne_nil (c : List (Frame α)) (x : ℕ × α) (l r : BinaryTree (ℕ × α)) :
    plug c (.node x l r) ≠ .nil := by
  intro heq
  have hlabels := congrArg inorder heq
  rw [inorder_plug] at hlabels
  simp at hlabels

theorem descend_cons (t : BinaryTree (ℕ × α)) (f₀ : Frame α) (c₀ : List (Frame α)) :
    ∃ f c, descend key k t (f₀ :: c₀) = f :: c := by
  induction t generalizing f₀ c₀ with
  | nil => exact ⟨f₀, c₀, rfl⟩
  | node x l r ihl ihr =>
    rw [descend]
    split_ifs
    · exact ihl ..
    · exact ihr ..

def Frame.Passes (key : α → ℕ) (k : ℕ) (f : Frame α) : Prop :=
  f.side = if k < key f.label.2 then .left else .right

theorem descend_passes {c : List (Frame α)} {f : Frame α} (hf : f ∈ descend key k t c) :
    f ∈ c ∨ f.label ∈ inorder t ∧ f.Passes key k := by
  induction t generalizing c with
  | nil => exact .inl hf
  | node x l r ihl ihr =>
    rw [descend] at hf
    rw [inorder_node, mem_append, mem_cons]
    split_ifs at hf with hlt
    · rcases ihl hf with hf | ⟨hmem, hpass⟩
      · rcases mem_cons.mp hf with rfl | hf
        · exact .inr ⟨.inr (.inl rfl), (if_pos hlt).symm⟩
        · exact .inl hf
      · exact .inr ⟨.inl hmem, hpass⟩
    · rcases ihr hf with hf | ⟨hmem, hpass⟩
      · rcases mem_cons.mp hf with rfl | hf
        · exact .inr ⟨.inr (.inl rfl), (if_neg hlt).symm⟩
        · exact .inl hf
      · exact .inr ⟨.inr (.inr hmem), hpass⟩

/-- **A key that passes a context leads to its hole.** -/
theorem descend_plug {c d : List (Frame α)} (hc : ∀ f ∈ c, f.Passes key k) :
    descend key k (plug c t) d = descend key k t (c ++ d) := by
  induction c generalizing t with
  | nil => rfl
  | cons f c ih =>
    rw [plug, ih fun g hg => hc g (mem_cons_of_mem f hg)]
    have hf := hc f (mem_cons_self ..)
    obtain ⟨side, x, s⟩ := f
    by_cases hlt : k < key x.2
    · obtain rfl : side = .left := hf.trans (if_pos hlt)
      rw [Frame.attach, descend, if_pos hlt]
      rfl
    · obtain rfl : side = .right := hf.trans (if_neg hlt)
      rw [Frame.attach, descend, if_neg hlt]
      rfl

theorem descend_least (hless : ∀ y ∈ inorder t, k < key y.2) (c : List (Frame α)) :
    before (descend key k t c) = before c ∧ after (descend key k t c) = inorder t ++ after c := by
  induction t generalizing c with
  | nil => exact ⟨rfl, rfl⟩
  | node x l r ihl ihr =>
    rw [descend, if_pos (hless x (by simp))]
    obtain ⟨hbefore, hafter⟩ :=
      ihl (fun y hy => hless y (mem_append_left _ hy)) (⟨.left, x, r⟩ :: c)
    exact ⟨hbefore, by simp [hafter, after]⟩

end Descend

/-! ## The search order -/

section Order

variable {key : α → ℕ} {f : Frame α} {c : List (Frame α)} {t : BinaryTree (ℕ × α)}

def Sorted (key : α → ℕ) (l : List (ℕ × α)) : Prop := l.Pairwise fun x y => key x.2 < key y.2

/-- **The search order** of the values. -/
abbrev SearchOrder (key : α → ℕ) (t : BinaryTree (ℕ × α)) : Prop :=
  Ordered (fun x : ℕ × α => key x.2) t

theorem Sorted.searchOrder (hsorted : Sorted key (inorder t)) : SearchOrder key t :=
  ordered_of_pairwise hsorted

theorem mem_inorder_attach {y : ℕ × α} :
    y ∈ inorder (f.attach t) ↔ y ∈ inorder (f.attach .nil) ∨ y ∈ inorder t := by
  obtain ⟨side, x, s⟩ := f
  cases side <;> simp only [Frame.attach, inorder_node, mem_append, mem_cons] <;> tauto

theorem searchOrder_attach : SearchOrder key (f.attach t) ↔
    SearchOrder key (f.attach .nil) ∧ SearchOrder key t ∧
      ∀ y ∈ inorder t, f.Passes key (key y.2) := by
  obtain ⟨side, x, s⟩ := f
  cases side with
  | left =>
    have hpass : ∀ y : ℕ × α, Frame.Passes key (key y.2) ⟨.left, x, s⟩ ↔ key y.2 < key x.2 := by
      simp [Frame.Passes]
    simp only [Frame.attach, Ordered, hpass]
    tauto
  | right =>
    have hpass : ∀ y : ℕ × α, Frame.Passes key (key y.2) ⟨.right, x, s⟩ ↔ key x.2 ≤ key y.2 := by
      simp [Frame.Passes]
    simp only [Frame.attach, Ordered, hpass]
    tauto

/-- **The order of a tree** is that of the context and of the tree in its hole, whose keys lead to
the hole. -/
theorem searchOrder_plug : SearchOrder key (plug c t) ↔
    SearchOrder key (plug c .nil) ∧ SearchOrder key t ∧
      ∀ f ∈ c, ∀ y ∈ inorder t, f.Passes key (key y.2) := by
  induction c generalizing t with
  | nil => simp [plug, Ordered]
  | cons f c ih =>
    rw [plug, plug, ih, ih (t := f.attach .nil), searchOrder_attach]
    simp only [mem_inorder_attach (t := t), or_imp, forall_and, forall_mem_cons]
    tauto

end Order

/-! ## Search -/

section Search

variable {h : Heap α} {ok : ℕ → Prop} {parent ptr : Option ℕ} {t : BinaryTree (ℕ × α)}

/-- The first pointer on the path of `a` whose value passes `stop`, with a bound on the steps:
there is no result when the path does not end within it or leaves the heap. -/
def search (key : α → ℕ) (stop : α → Bool) (a : ℕ) (h : Heap α) :
    ℕ → Option ℕ → Option (Option ℕ)
  | _, none => some none
  | 0, some _ => none
  | steps + 1, some p =>
    match h[p]? with
    | none => none
    | some n =>
      if stop n.val then some (some p)
      else search key stop a h steps (if a < key n.val then n.left else n.right)

/-- **The pointer search is the search of the tree.** -/
theorem search_eq (key : α → ℕ) (stop : α → Bool) (a : ℕ) {steps : ℕ}
    (hl : Links h ok parent ptr t) (hsteps : (inorder t).length ≤ steps) :
    search key stop a h steps ptr =
      some ((SearchTree.search (fun x : ℕ × α => key x.2) (fun x => stop x.2) a t).map
        Prod.fst) := by
  induction t generalizing parent ptr steps with
  | nil =>
    obtain rfl : ptr = none := hl
    cases steps <;> rfl
  | node x l r ihl ihr =>
    obtain ⟨rfl, n, hn, hval, -, hleft, hright⟩ := hl
    rw [inorder_node, length_append, length_cons] at hsteps
    obtain ⟨steps, rfl⟩ : ∃ k, steps = k + 1 := ⟨steps - 1, by omega⟩
    rw [search, hn, SearchTree.search]
    dsimp only
    rw [hval]
    split_ifs with hstop hlt
    · rfl
    · exact ihl hleft (by omega)
    · exact ihr hright (by omega)

def read (h : Heap α) : ℕ → Option ℕ → List (ℕ × α)
  | _, none => []
  | 0, some _ => []
  | depth + 1, some p =>
    match h[p]? with
    | none => []
    | some n => read h depth n.left ++ (p, n.val) :: read h depth n.right

/-- **Reading a tree** gives its labels. -/
theorem read_eq {depth : ℕ} (hl : Links h ok parent ptr t)
    (hdepth : (inorder t).length ≤ depth) : read h depth ptr = inorder t := by
  induction t generalizing parent ptr depth with
  | nil =>
    obtain rfl : ptr = none := hl
    cases depth <;> rfl
  | node x l r ihl ihr =>
    obtain ⟨rfl, n, hn, hval, -, hleft, hright⟩ := hl
    rw [inorder_node, length_append, length_cons] at hdepth
    obtain ⟨depth, rfl⟩ : ∃ k, depth = k + 1 := ⟨depth - 1, by omega⟩
    rw [read, hn, inorder_node]
    dsimp only
    rw [ihl hleft (by omega), ihr hright (by omega), hval]

end Search

/-! ## Closed sets of nodes -/

section Closed

variable {h h' h'' : Heap α} {S : ℕ → Prop} {p : ℕ} {n : Node α}

def Into (S : ℕ → Prop) (ptr : Option ℕ) : Prop := ∀ p, ptr = some p → S p

def Node.Inside (S : ℕ → Prop) (n : Node α) : Prop :=
  Into S n.left ∧ Into S n.right ∧ Into S n.parent

/-- **A closed set of nodes**: no pointer leads out of it. -/
def Closed (S : ℕ → Prop) (h : Heap α) : Prop := ∀ p n, S p → h[p]? = some n → n.Inside S

/-- **An update inside `S`**: the set stays closed and the other nodes stay. -/
structure UpdatesInside (S : ℕ → Prop) (h h' : Heap α) : Prop where
  closed : Closed S h'
  outside : ∀ p, ¬ S p → h'[p]? = h[p]?
  length_le : h.length ≤ h'.length

theorem into_none : Into S none := fun _ hp => absurd hp (by simp)

theorem into_some (hp : S p) : Into S (some p) := fun _ hq => Option.some.inj hq ▸ hp

theorem UpdatesInside.refl (hc : Closed S h) : UpdatesInside S h h :=
  ⟨hc, fun _ _ => rfl, Nat.le_refl _⟩

theorem UpdatesInside.trans (h₁ : UpdatesInside S h h') (h₂ : UpdatesInside S h' h'') :
    UpdatesInside S h h'' :=
  ⟨h₂.closed, fun p hp => (h₂.outside p hp).trans (h₁.outside p hp),
    Nat.le_trans h₁.length_le h₂.length_le⟩

theorem Closed.set (hc : Closed S h) (hp : S p) (hn : n.Inside S) :
    UpdatesInside S h (h.set p n) := by
  refine ⟨fun q m hq hm => ?_, fun q hq => ?_, Nat.le_of_eq length_set.symm⟩
  · rw [getElem?_set] at hm
    split_ifs at hm with hpq hlt
    · exact Option.some.inj hm ▸ hn
    · exact hc q m hq hm
  · have hne : p ≠ q := fun heq => hq (heq ▸ hp)
    exact getElem?_set_ne hne

theorem Closed.alloc (hc : Closed S h) (hp : S h.length) (hn : n.Inside S) :
    UpdatesInside S h (h ++ [n]) := by
  refine ⟨fun q m hq hm => ?_, fun q hq => ?_, by simp⟩
  · rw [getElem?_append] at hm
    split_ifs at hm with hlt
    · exact hc q m hq hm
    · obtain rfl : n = m := by
        have hmem := mem_of_getElem? hm
        exact (mem_singleton.mp hmem).symm
      exact hn
  · rw [getElem?_append]
    split_ifs with hlt
    · rfl
    · -- the node after the last one is in the set
      have hne : h.length ≠ q := fun heq => hq (heq ▸ hp)
      rw [getElem?_eq_none (by simp only [length_singleton]; omega),
        getElem?_eq_none (by omega)]

theorem Links.inside {parent ptr : Option ℕ} {t : BinaryTree (ℕ × α)}
    (hl : Links h (fun _ => True) parent ptr t) (hS : ∀ p ∈ pointers t, S p)
    (hparent : Into S parent) : ∀ p ∈ pointers t, ∀ n, h[p]? = some n → n.Inside S := by
  have hroot : ∀ {ptr parent t}, Links h (fun _ => True) parent ptr t →
      (∀ p ∈ pointers t, S p) → Into S ptr := by
    intro ptr parent t hl hS
    cases t with
    | nil =>
      obtain rfl : ptr = none := hl
      exact into_none
    | node x l r => exact hl.1 ▸ into_some (hS x.1 (by simp))
  induction t generalizing parent ptr with
  | nil => exact fun p hp => absurd hp not_mem_nil
  | node x l r ihl ihr =>
    have hSl : ∀ p ∈ pointers l, S p := fun p hp => hS p (by simp [hp])
    have hSr : ∀ p ∈ pointers r, S p := fun p hp => hS p (by simp [hp])
    have hx := into_some (hS x.1 (by simp))
    obtain ⟨-, m, hm, -, hmparent, hleft, hright⟩ := hl
    intro p hp n hn
    rw [pointers_node, mem_append, mem_cons] at hp
    rcases hp with hp | rfl | hp
    · exact ihl hleft hSl hx p hp n hn
    · obtain rfl : n = m := Option.some.inj (hn.symm.trans hm)
      exact ⟨hroot hleft hSl, hroot hright hSr, hmparent trivial ▸ hparent⟩
    · exact ihr hright hSr hx p hp n hn

end Closed

end TreeHeap
