import Pastoral.Theory.TreeHeap

/-!
# The search-tree macros

`BST_GENERIC_INSERT` and `BST_GENERIC_DELETE` of `bst.h` over nodes in a heap.

## Main results

* `bstGenericInsert_spec`, `bstGenericDelete_spec`: what they do to the tree
-/

namespace Pastoral

open List Option SearchTree TreeHeap

variable {α : Type} (key : α → ℕ)

def bstWalk (k : ℕ) (h : Heap α) : ℕ → Option ℕ → Option ℕ → Option (Option ℕ)
  | _, none, parent => some parent
  | 0, some _, _ => none
  | steps + 1, some p, _ =>
    match h[p]? with
    | none => none
    | some n => bstWalk k h steps (if k < key n.val then n.left else n.right) (some p)

def bstGenericInsert (h : Heap α) (root : Option ℕ) : Option ℕ → Option (Heap α × Option ℕ)
  | none => some (h, root)
  | some p => do
    let n ← h[p]?
    let parent ← bstWalk key (key n.val) h h.length root none
    let h := h.set p { n with parent := parent }
    match parent with
    | none => some (h, some p)
    | some q =>
      let m ← h[q]?
      some (h.set q (m.setChild (some p) (if key n.val < key m.val then .left else .right)), root)

def bstReplace (h : Heap α) (parent : Option ℕ) (p : ℕ) (ptr : Option ℕ) : Option (Heap α) := do
  let q ← parent
  let m ← h[q]?
  some (h.set q (m.setChild ptr (if m.left = some p then .left else .right)))

def bstGenericDelete (h : Heap α) (root : Option ℕ) (p : ℕ) : Option (Heap α × Option ℕ) := do
  let n ← h[p]?
  match n.left, n.right with
  | none, none =>
    if n.parent = none then some (h, none)
    else (bstReplace h n.parent p none).map (·, root)
  | some l, none => (bstReplace h n.parent p (some l)).map (·, root)
  | none, some r => (bstReplace h n.parent p (some r)).map (·, root)
  | some _, some _ =>
    let h ← bstReplace h n.parent p none
    let n ← h[p]?
    let (h, root) ← bstGenericInsert key h root n.right
    let n ← h[p]?
    bstGenericInsert key h root n.left

variable {key}

/-! ## Insertion -/

section Insert

variable {h : Heap α} {ok ok' : ℕ → Prop} {root parent ptr : Option ℕ} {k : ℕ}
  {t : BinaryTree (ℕ × α)}

theorem map_val_set {p : ℕ} {n m : Node α} (hn : h[p]? = some n) (hval : m.val = n.val) :
    (h.set p m).map Node.val = h.map Node.val := by
  have hmap : (h.map Node.val)[p]? = some n.val := by rw [getElem?_map, hn]; rfl
  obtain ⟨hlt, heq⟩ := List.getElem?_eq_some_iff.mp hmap
  rw [map_set, hval, ← heq, set_getElem_self]

theorem bstWalk_eq {steps : ℕ} (hl : Links h ok parent ptr t)
    (hsteps : (inorder t).length ≤ steps) (c : List (Frame α)) :
    bstWalk key k h steps ptr (parentOf c) = some (parentOf (descend key k t c)) := by
  induction t generalizing parent ptr steps c with
  | nil =>
    obtain rfl : ptr = none := hl
    cases steps <;> rfl
  | node x l r ihl ihr =>
    obtain ⟨rfl, n, hn, hval, -, hleft, hright⟩ := hl
    rw [inorder_node, length_append, length_cons] at hsteps
    obtain ⟨steps, rfl⟩ : ∃ j, steps = j + 1 := ⟨steps - 1, by omega⟩
    rw [bstWalk, hn, descend]
    dsimp only
    rw [hval]
    split_ifs with hlt
    · exact ihl hleft (by omega) (⟨.left, x, r⟩ :: c)
    · exact ihr hright (by omega) (⟨.right, x, l⟩ :: c)

theorem bstGenericInsert_root {p : ℕ} {n : Node α} (hn : h[p]? = some n)
    (hwalk : bstWalk key (key n.val) h h.length root none = some none) :
    bstGenericInsert key h root (some p) = some (h.set p { n with parent := none }, some p) := by
  rw [bstGenericInsert, hn]
  simp only [bind_eq_bind, bind_some, hwalk]

theorem bstGenericInsert_child {p q : ℕ} {n m : Node α} (hn : h[p]? = some n)
    (hwalk : bstWalk key (key n.val) h h.length root none = some (some q))
    (hm : (h.set p { n with parent := some q })[q]? = some m) :
    bstGenericInsert key h root (some p) = some ((h.set p { n with parent := some q }).set q
        (m.setChild (some p) (if key n.val < key m.val then .left else .right)), root) := by
  rw [bstGenericInsert, hn]
  simp only [bind_eq_bind, bind_some, hwalk, hm]

theorem bstGenericInsert_spec (key : α → ℕ) {p : ℕ} {a : α} {l r : BinaryTree (ℕ × α)}
    (ht : Links h ok none root t) (hs : Links h ok parent (some p) (.node (p, a) l r))
    (hnodup : (pointers t ++ pointers (.node (p, a) l r)).Nodup)
    (hok : ∀ q, ok' q → ok q ∨ q = p) :
    ∃ h' root', bstGenericInsert key h root (some p) = some (h', root') ∧
      Links h' ok' none root' (plug (descend key (key a) t []) (.node (p, a) l r)) ∧
      h'.map Node.val = h.map Node.val ∧
      ∀ q ∉ pointers t, q ≠ p → h'[q]? = h[q]? := by
  obtain ⟨n, hn, hval⟩ : ∃ n, h[p]? = some n ∧ n.val = a := by
    obtain ⟨-, n, hn, hval, -⟩ := hs
    exact ⟨n, hn, hval⟩
  obtain ⟨htnodup, hsnodup, hdisjoint⟩ := nodup_append.mp hnodup
  have hp : p ∉ pointers t := fun hp => hdisjoint p hp p (by simp) rfl
  have hwalk : bstWalk key (key a) h h.length root none =
      some (parentOf (descend key (key a) t [])) := bstWalk_eq ht (ht.length_le htnodup) []
  have hplug : plug (descend key (key a) t []) .nil = t := plug_descend t []
  -- the node with its new parent
  have hnode := hs.reparent hn hsnodup (parentOf (descend key (key a) t [])) fun q _ => hok q
  have hother : ∀ {h : Heap α} {p q m}, p ≠ q → (h.set p m)[q]? = h[q]? :=
    fun hne => getElem?_set_ne hne
  cases hc : descend key (key a) t [] with
  | nil =>
    -- an empty tree: the node is the root
    rw [hc] at hwalk
    rw [hc] at hnode
    exact ⟨_, _, bstGenericInsert_root hn (hval ▸ hwalk), hnode, map_val_set hn rfl,
      fun q _ hq => hother (Ne.symm hq)⟩
  | cons f c =>
    rw [hc] at hwalk
    rw [hc] at hnode hplug
    have hperm := perm_pointers_plug (f :: c) (.nil : BinaryTree (ℕ × α))
    rw [hplug, pointers_nil, append_nil] at hperm
    have hctxNodup := hperm.nodup_iff.mp htnodup
    have hq := hperm.mem_iff.mpr ((perm_ctxPointers_cons f c).mem_iff.mpr (mem_cons_self ..))
    have hqp : p ≠ f.label.1 := fun heq => hp (heq ▸ hq)
    obtain ⟨hole, hctx, -⟩ := links_plug.mp (hplug.symm ▸ ht)
    obtain ⟨m, hm, hmval, -⟩ := id hctx
    have hm' : (h.set p { n with parent := some f.label.1 })[f.label.1]? = some m := by
      rw [hother hqp, hm]
    -- the walk came down on the side that the last comparison takes
    have hside : (if key n.val < key m.val then Side.left else Side.right) = f.side := by
      rw [hmval, hval]
      rcases descend_passes (hc ▸ mem_cons_self .. : f ∈ descend key (key a) t []) with h | h
      · exact absurd h not_mem_nil
      · exact h.2.symm
    refine ⟨(h.set p { n with parent := some f.label.1 }).set f.label.1
      (m.setChild (some p) f.side), root, ?_, ?_, ?_, ?_⟩
    · rw [bstGenericInsert_child hn (hval ▸ hwalk) hm', hside]
    · have hctx' : LinksCtx (h.set p { n with parent := some f.label.1 }) ok' root (f :: c) hole := by
        refine hctx.congr (fun q hq => ?_) fun q hq hokq => ?_
        · have hne : p ≠ q := fun heq => hp (hperm.mem_iff.mpr (heq ▸ hq))
          exact hother hne
        · exact (hok q hokq).resolve_right fun heq => hp (hperm.mem_iff.mpr (heq ▸ hq))
      refine links_plug.mpr ⟨some p, hctx'.write hctxNodup hm' _, ?_⟩
      refine hnode.congr (fun q hq' => ?_) fun _ _ => id
      have hne : f.label.1 ≠ q := fun heq => hdisjoint _ hq q hq' heq
      exact hother hne
    · exact (map_val_set hm' (setChild_val ..)).trans (map_val_set hn rfl)
    · intro q hqt hqp'
      have hne : f.label.1 ≠ q := fun heq => hqt (heq ▸ hq)
      rw [hother hne, hother (Ne.symm hqp')]

end Insert

/-! ## Deletion -/

section Delete

variable {h : Heap α} {ok : ℕ → Prop} {root : Option ℕ} {c : List (Frame α)} {f : Frame α}
  {p : ℕ} {a : α} {l r : BinaryTree (ℕ × α)} {n m : Node α}

def Stale (l r : BinaryTree (ℕ × α)) (x : ℕ) : Prop :=
  r = .nil ∧ rootPtr l = some x ∨ l = .nil ∧ rootPtr r = some x

theorem bstReplace_ctx (hl : LinksCtx h ok root (f :: c) (some p))
    (hp : p ∉ pointers f.sibling) (hm : h[f.label.1]? = some m) (ptr : Option ℕ) :
    bstReplace h (some f.label.1) p ptr = some (h.set f.label.1 (m.setChild ptr f.side)) := by
  obtain ⟨m', hm', -, -, hchild, hsibling, -⟩ := hl
  obtain rfl : m = m' := some.inj (hm.symm.trans hm')
  obtain ⟨side, x, s⟩ := f
  have hside : (if m.left = some p then Side.left else Side.right) = side := by
    cases side with
    | left => exact if_pos hchild
    | right =>
      refine if_neg fun hleft => hp ?_
      have hroot := hleft.symm.trans hsibling.ptr_eq
      cases s with
      | nil => exact absurd hroot (by simp [rootPtr])
      | node y sl sr =>
        obtain rfl : p = y.1 := some.inj hroot
        simp
  rw [bstReplace]
  simp only [bind_eq_bind, bind_some, hm, hside]

theorem bstGenericDelete_both {x y : ℕ} {h₁ h₂ h₃ : Heap α} {root₂ root₃ : Option ℕ}
    (hn : h[p]? = some n) (hleft : n.left = some x) (hright : n.right = some y)
    (hreplace : bstReplace h n.parent p none = some h₁) (hn₁ : h₁[p]? = some n)
    (hinsert : bstGenericInsert key h₁ root n.right = some (h₂, root₂)) (hn₂ : h₂[p]? = some n)
    (hinsert' : bstGenericInsert key h₂ root₂ n.left = some (h₃, root₃)) :
    bstGenericDelete key h root p = some (h₃, root₃) := by
  obtain ⟨val, left, right, parent⟩ := n
  obtain rfl : left = some x := hleft
  obtain rfl : right = some y := hright
  rw [bstGenericDelete, hn]
  simp only [bind_eq_bind, bind_some, hreplace, hn₁, hinsert, hn₂, hinsert']

theorem bstGenericDelete_splice {ptr : Option ℕ} (hn : h[p]? = some n)
    (hparent : n.parent = some f.label.1)
    (hchild : n.left = ptr ∧ n.right = none ∨ n.left = none ∧ n.right = ptr)
    {h' : Heap α} (hreplace : bstReplace h (some f.label.1) p ptr = some h') :
    bstGenericDelete key h root p = some (h', root) := by
  obtain ⟨val, left, right, parent⟩ := n
  obtain rfl : parent = some f.label.1 := hparent
  rw [bstGenericDelete, hn]
  rcases hchild with ⟨rfl, rfl⟩ | ⟨rfl, rfl⟩
  · cases left <;> simp [hreplace]
  · cases right <;> simp [hreplace]

theorem bstGenericInsert_two {x y : ℕ × α} {lptr rptr : Option ℕ}
    {ll lr rl rr : BinaryTree (ℕ × α)} (ht : Links h ok none root (plug c .nil))
    (hl : Links h ok (some p) lptr (.node x ll lr)) (hr : Links h ok (some p) rptr (.node y rl rr))
    (hnodup : (ctxPointers c ++ (pointers (.node x ll lr) ++ pointers (.node y rl rr))).Nodup)
    (hx : ∀ f ∈ c, f.Passes key (key x.2)) (hy : ∀ f ∈ c, f.Passes key (key y.2)) :
    ∃ h' root' h'' root'', bstGenericInsert key h root rptr = some (h', root') ∧
      bstGenericInsert key h' root' lptr = some (h'', root'') ∧
      Links h'' ok none root'' (plug (descend key (key x.2) (.node y rl rr) c) (.node x ll lr)) ∧
      h''.map Node.val = h.map Node.val ∧
      (∀ q ∉ ctxPointers c, q ∉ pointers (.node y rl rr) → h'[q]? = h[q]?) ∧
      ∀ q ∉ ctxPointers c, q ∉ pointers (.node y rl rr) → q ∉ pointers (.node x ll lr) →
        h''[q]? = h[q]? := by
  have hxp : x.1 ∈ pointers (.node x ll lr) := by simp
  have hyp : y.1 ∈ pointers (.node y rl rr) := by simp
  have hctx := perm_pointers_plug c
  -- the pointers of the context and the two subtrees
  obtain ⟨hcnodup, hlr, hclr⟩ := nodup_append.mp hnodup
  obtain ⟨hlnodup, hrnodup, hlr⟩ := nodup_append.mp hlr
  have hcr := nodup_append.mpr
    ⟨hcnodup, hrnodup, fun q hq q' hq' => hclr q hq q' (mem_append_right _ hq')⟩
  have hcontext : ∀ q, q ∈ pointers (plug c .nil) ↔ q ∈ ctxPointers c := fun q => by
    rw [(hctx .nil).mem_iff, pointers_nil, append_nil]
  have htr : (pointers (plug c .nil) ++ pointers (.node y rl rr)).Nodup := by
    refine (((hctx .nil).append_right _).nodup_iff).mpr ?_
    rwa [pointers_nil, append_nil]
  obtain rfl : rptr = some y.1 := hr.1
  obtain rfl : lptr = some x.1 := hl.1
  obtain ⟨h', root', hinsert, hlinks, hvals, hkeep⟩ :=
    bstGenericInsert_spec key ht hr htr (fun q hq => .inl hq)
  rw [descend_plug hy, descend, append_nil] at hlinks
  have hl' : Links h' ok (some p) (some x.1) (.node x ll lr) := by
    refine hl.congr (fun q hq => hkeep q (fun hqc => ?_) fun heq => ?_) fun _ _ => id
    · exact hclr q ((hcontext q).mp hqc) q (mem_append_left _ hq) rfl
    · exact hlr q hq q (heq ▸ hyp) rfl
  have hnodup' : (pointers (plug c (.node y rl rr)) ++ pointers (.node x ll lr)).Nodup := by
    refine nodup_append.mpr ⟨(hctx _).nodup_iff.mpr hcr, hlnodup, ?_⟩
    rintro q hq q' hq' rfl
    rcases mem_append.mp ((hctx _).mem_iff.mp hq) with hq | hq
    · exact hclr q hq q (mem_append_left _ hq') rfl
    · exact hlr q hq' q hq rfl
  obtain ⟨h'', root'', hinsert', hlinks', hvals', hkeep'⟩ :=
    bstGenericInsert_spec key hlinks hl' hnodup' (fun q hq => .inl hq)
  rw [descend_plug hx, append_nil] at hlinks'
  have hfirst : ∀ q ∉ ctxPointers c, q ∉ pointers (.node y rl rr) → h'[q]? = h[q]? :=
    fun q hqc hqr => hkeep q (fun hq => hqc ((hcontext q).mp hq)) fun heq => hqr (heq ▸ hyp)
  refine ⟨h', root', h'', root'', hinsert, hinsert', hlinks', hvals'.trans hvals, hfirst,
    fun q hqc hqr hql => ?_⟩
  have hq : q ∉ pointers (plug c (.node y rl rr)) := fun hq =>
    (mem_append.mp ((hctx _).mem_iff.mp hq)).elim hqc hqr
  exact (hkeep' q hq fun heq => hql (heq ▸ hxp)).trans (hfirst q hqc hqr)

theorem searchOrder_two {x y : ℕ × α} {ll lr rl rr : BinaryTree (ℕ × α)} (horder : SearchOrder key
      (plug c (.node (p, a) (.node x ll lr) (.node y rl rr)))) :
    SearchOrder key (plug (descend key (key x.2) (.node y rl rr) c) (.node x ll lr)) ∧
      inorder (plug (descend key (key x.2) (.node y rl rr) c) (.node x ll lr)) =
        before c ++ (inorder (.node x ll lr) ++ inorder (.node y rl rr)) ++ after c := by
  obtain ⟨hctx, ⟨hless, hmore, hleft, hright⟩, hpass⟩ := searchOrder_plug.mp horder
  have hx : x ∈ inorder (.node x ll lr) := by simp
  -- a key of the left subtree is below all those of the right one
  have hlt : ∀ z ∈ inorder (.node x ll lr), ∀ w ∈ inorder (.node y rl rr), key z.2 < key w.2 :=
    fun z hz w hw => Nat.lt_of_lt_of_le (hless z hz) (hmore w hw)
  have hplug := searchOrder_plug.mpr
    ⟨hctx, hright, fun f hf z hz =>
      hpass f hf z (mem_append_right _ (mem_cons_of_mem _ hz))⟩
  constructor
  · refine searchOrder_plug.mpr ⟨by rwa [plug_descend], hleft, fun f hf z hz => ?_⟩
    rcases descend_passes hf with hf | ⟨hmem, hside⟩
    · exact hpass f hf z (mem_append_left _ hz)
    · rw [Frame.Passes, if_pos (hlt x hx _ hmem)] at hside
      rw [Frame.Passes, if_pos (hlt z hz _ hmem)]
      exact hside
  · obtain ⟨hbefore, hafter⟩ := descend_least (hlt x hx) c
    rw [inorder_plug, hbefore, hafter]
    simp only [append_assoc]

theorem bstGenericDelete_spec (ht : Links h ok none root (plug c (.node (p, a) l r)))
    (hnodup : (pointers (plug c (.node (p, a) l r))).Nodup)
    (horder : SearchOrder key (plug c (.node (p, a) l r))) (hok : ok p)
    (hdel : c ≠ [] ∨ l = .nil ∧ r = .nil) :
    ∃ h' root' t', bstGenericDelete key h root p = some (h', root') ∧
      Links h' (fun x => ok x ∧ ¬ Stale l r x) none root' t' ∧ SearchOrder key t' ∧
      inorder t' = before c ++ (inorder l ++ inorder r) ++ after c ∧
      (l = .nil ∨ ∃ f c', t' = plug (f :: c') l) ∧ h'.map Node.val = h.map Node.val ∧
      (∀ q ∉ pointers (plug c (.node (p, a) l r)), h'[q]? = h[q]?) ∧
      ∀ x, Stale l r x → h'[x]? = h[x]? ∧ ∃ f c' y z w, t' = plug (f :: c') (.node (x, y) z w) := by
  obtain ⟨hole, hctx, hnode⟩ := links_plug.mp ht
  obtain ⟨rfl, n, hn, hval, hparent, hleft, hright⟩ := hnode
  obtain ⟨horderCtx, ⟨hless, hmore, horderL, horderR⟩, hpass⟩ := searchOrder_plug.mp horder
  have hpointers := (perm_pointers_plug c (.node (p, a) l r)).nodup_iff.mp hnodup
  cases c with
  | nil =>
    -- a root without children
    obtain ⟨rfl, rfl⟩ := hdel.resolve_left fun hne => hne rfl
    refine ⟨h, none, .nil, ?_, rfl, trivial, rfl, .inl rfl, rfl, fun _ _ => rfl, ?_⟩
    · have hl : n.left = none := hleft
      have hr : n.right = none := hright
      rw [bstGenericDelete, hn]
      simp [hl, hr, hparent hok, parentOf]
    · rintro x (⟨-, hx⟩ | ⟨-, hx⟩) <;> exact absurd hx (by simp [rootPtr])
  | cons f c =>
    obtain ⟨m, hm, -⟩ := id hctx
    have hparent : n.parent = some f.label.1 := hparent hok
    rw [pointers_node] at hpointers
    obtain ⟨hcnodup, hlpr, hdisjoint⟩ := nodup_append.mp hpointers
    have hcp : p ∉ ctxPointers (f :: c) := fun hp => hdisjoint p hp p (by simp) rfl
    have hsibling : p ∉ pointers f.sibling := fun hp =>
      hcp ((perm_ctxPointers_cons f c).mem_iff.mpr (by simp [hp]))
    have hf := (perm_ctxPointers_cons f c).mem_iff.mpr (mem_cons_self ..)
    have hset : ∀ {q m'}, q ∉ ctxPointers (f :: c) → (h.set f.label.1 m')[q]? = h[q]? := by
      intro q m' hq
      have hne : f.label.1 ≠ q := fun heq => hq (heq ▸ hf)
      exact getElem?_set_ne hne
    have hout : ∀ q ∉ pointers (plug (f :: c) (.node (p, a) l r)),
        q ∉ ctxPointers (f :: c) ∧ q ∉ pointers l ∧ q ∉ pointers r := by
      intro q hq
      rw [(perm_pointers_plug ..).mem_iff, pointers_node] at hq
      simp only [mem_append] at hq
      tauto
    -- at most one child: the child takes the place of the node
    have hone : ∀ {ptr s}, Links h ok (some p) ptr s → SearchOrder key s →
        (n.left = ptr ∧ n.right = none ∨ n.left = none ∧ n.right = ptr) →
        (inorder s).Sublist (inorder l ++ (p, a) :: inorder r) →
        bstGenericDelete key h root p = some (h.set f.label.1 (m.setChild ptr f.side), root) ∧
          Links (h.set f.label.1 (m.setChild ptr f.side)) (fun x => ok x ∧ rootPtr s ≠ some x)
            none root (plug (f :: c) s) ∧
          SearchOrder key (plug (f :: c) s) ∧
          (h.set f.label.1 (m.setChild ptr f.side)).map Node.val = h.map Node.val ∧
          ∀ x, rootPtr s = some x → (h.set f.label.1 (m.setChild ptr f.side))[x]? = h[x]? ∧
            ∃ f' c' y z w, plug (f :: c) s = plug (f' :: c') (.node (x, y) z w) := by
      intro ptr s hs hsorder hchild hsub
      have hsub' : (pointers s).Sublist (pointers l ++ p :: pointers r) := by
        rw [← pointers_node (p, a), pointers, pointers, inorder_node]
        exact hsub.map _
      refine ⟨bstGenericDelete_splice hn hparent hchild (bstReplace_ctx hctx hsibling hm ptr),
        hctx.splice hs (nodup_append.mpr ⟨hcnodup, hlpr.sublist hsub', ?_⟩) hm fun _ => id,
        searchOrder_plug.mpr ⟨horderCtx, hsorder, fun g hg z hz => hpass g hg z (hsub.subset hz)⟩,
        map_val_set hm (setChild_val ..), fun x hx => ?_⟩
      · exact fun q hq q' hq' => hdisjoint q hq q' (hsub'.subset hq')
      · cases s with
        | nil => exact absurd hx (by simp [rootPtr])
        | node y z w =>
          obtain rfl : y.1 = x := some.inj hx
          refine ⟨hset fun hxc => hdisjoint _ hxc _ (hsub'.subset (by simp)) rfl, ?_⟩
          exact ⟨f, c, y.2, z, w, rfl⟩
    rcases r with - | ⟨y, rl, rr⟩
    · obtain ⟨hdelete, hlinks, horder', hvals, hroot⟩ := hone hleft horderL (Or.inl ⟨rfl, hright⟩)
        (sublist_append_left ..)
      refine ⟨_, _, _, hdelete, ?_, horder', ?_, .inr ⟨f, c, rfl⟩, hvals,
        fun q hq => hset (hout q hq).1, fun x hx => hroot x ?_⟩
      · exact hlinks.congr (fun _ _ => rfl) fun q _ hq =>
          ⟨hq.1, fun hroot => hq.2 (.inl ⟨rfl, hroot⟩)⟩
      · rw [inorder_plug, inorder_nil, append_nil]
      · rcases hx with ⟨-, hx⟩ | ⟨-, hx⟩
        · exact hx
        · exact absurd hx (by simp [rootPtr])
    rcases l with - | ⟨x, ll, lr⟩
    · obtain ⟨hdelete, hlinks, horder', hvals, hroot⟩ := hone hright horderR
        (.inr ⟨hleft, rfl⟩) (sublist_cons_self ..)
      refine ⟨_, _, plug (f :: c) (.node y rl rr), hdelete, ?_, horder', ?_, .inl rfl, hvals,
        fun q hq => hset (hout q hq).1, fun x hx => hroot x ?_⟩
      · exact hlinks.congr (fun _ _ => rfl) fun q _ hq =>
          ⟨hq.1, fun hroot => hq.2 (.inr ⟨rfl, hroot⟩)⟩
      · rw [inorder_plug, inorder_nil, nil_append]
      · rcases hx with ⟨hx, -⟩ | ⟨-, hx⟩
        · simp at hx
        · exact hx
    -- two children: the node is cut out, and its subtrees are inserted again
    have hsubtree : ∀ {ptr s}, Links h ok (some p) ptr s →
        (∀ q ∈ pointers s, q ∈ pointers (.node x ll lr) ++ p :: pointers (.node y rl rr)) →
        Links (h.set f.label.1 (m.setChild none f.side)) ok (some p) ptr s := by
      intro ptr s hs hsub
      exact hs.congr (fun q hq => hset fun hqc => hdisjoint q hqc q (hsub q hq) rfl) fun _ _ => id
    have ht₀ := hctx.splice (show Links h ok none none .nil from rfl) (by simpa using hcnodup) hm
        fun q hq => ⟨hq, by simp [rootPtr]⟩
    have hnode : (pointers (.node x ll lr) ++ pointers (.node y rl rr)).Sublist
        (pointers (.node x ll lr) ++ p :: pointers (.node y rl rr)) :=
      (Sublist.refl _).append (sublist_cons_self ..)
    obtain ⟨h', root', h'', root'', hinsert, hinsert', hlinks, hvals, hkeep, hkeep'⟩ :=
      bstGenericInsert_two ht₀ (hsubtree hleft fun q hq => mem_append_left _ hq)
        (hsubtree hright fun q hq => mem_append_right _ (mem_cons_of_mem _ hq))
        (hpointers.sublist ((Sublist.refl _).append hnode))
        (fun g hg => hpass g hg x (by simp)) (fun g hg => hpass g hg y (by simp))
    obtain ⟨horder', hlabels⟩ := searchOrder_two horder
    obtain ⟨f', c', hplug⟩ : ∃ f' c', descend key (key x.2) (.node y rl rr) (f :: c) = f' :: c' :=
      descend_cons ..
    have hrp := (nodup_cons.mp (nodup_append.mp hlpr).2.1).1
    have hn₁ : (h.set f.label.1 (m.setChild none f.side))[p]? = some n := (hset hcp).trans hn
    refine ⟨h'', root'', _, ?_, ?_, horder', hlabels, .inr ⟨f', c', by rw [hplug]⟩, ?_,
      fun q hq => ?_, ?_⟩
    · have hreplace := hparent ▸ bstReplace_ctx hctx hsibling hm none
      exact bstGenericDelete_both hn hleft.1 hright.1 hreplace hn₁ hinsert
        ((hkeep p hcp hrp).trans hn₁) hinsert'
    · exact hlinks.congr (fun _ _ => rfl) fun q _ hq => hq.1
    · exact hvals.trans (map_val_set hm (setChild_val ..))
    · obtain ⟨hqc, hql, hqr⟩ := hout q hq
      exact (hkeep' q hqc hqr hql).trans (hset hqc)
    · rintro z (⟨hz, -⟩ | ⟨hz, -⟩) <;> exact absurd hz (by simp)

theorem bstGenericDelete_root (hn : h[p]? = some n) (hparent : n.parent = none)
    (hchild : n.left ≠ none ∨ n.right ≠ none) : bstGenericDelete key h root p = none := by
  obtain ⟨val, left, right, parent⟩ := n
  rw [bstGenericDelete]
  cases left <;> cases right <;> simp_all [bstReplace]

end Delete

/-! ## Separation -/

section Separation

variable {h h' : Heap α} {S : ℕ → Prop} {root root' parent ptr : Option ℕ} {p k : ℕ}

theorem inside_setChild {n : Node α} (hn : n.Inside S) (hptr : Into S ptr) (side : Side) :
    (n.setChild ptr side).Inside S := by
  cases side with
  | left => exact ⟨hptr, hn.2⟩
  | right => exact ⟨hn.1, hptr, hn.2.2⟩

theorem bstWalk_into {steps : ℕ} {q : Option ℕ} (hc : Closed S h) (hptr : Into S ptr)
    (hparent : Into S parent) (hwalk : bstWalk key k h steps ptr parent = some q) : Into S q := by
  induction steps generalizing ptr parent with
  | zero =>
    cases ptr with
    | none => exact some.inj hwalk ▸ hparent
    | some p => exact absurd hwalk (by simp [bstWalk])
  | succ steps ih =>
    cases ptr with
    | none => exact some.inj hwalk ▸ hparent
    | some p =>
      rw [bstWalk] at hwalk
      cases hn : h[p]? with
      | none => simp [hn] at hwalk
      | some n =>
        rw [hn] at hwalk
        have hp := hptr p rfl
        have hinside := hc p n hp hn
        refine ih ?_ (into_some hp) hwalk
        split_ifs
        · exact hinside.1
        · exact hinside.2.1

theorem bstGenericInsert_inside (hc : Closed S h) (hroot : Into S root) (hptr : Into S ptr)
    (hinsert : bstGenericInsert key h root ptr = some (h', root')) :
    UpdatesInside S h h' ∧ Into S root' := by
  cases ptr with
  | none =>
    cases hinsert
    exact ⟨.refl hc, hroot⟩
  | some p =>
    have hp := hptr p rfl
    rw [bstGenericInsert] at hinsert
    obtain ⟨n, hn, hinsert⟩ := bind_eq_some_iff.mp hinsert
    obtain ⟨parent, hwalk, hinsert⟩ := bind_eq_some_iff.mp hinsert
    have hparent := bstWalk_into hc hroot into_none hwalk
    obtain ⟨hleft, hright, -⟩ := hc p n hp hn
    -- the new parent of the node is inside
    have hset : UpdatesInside S h (h.set p { n with parent := parent }) :=
      hc.set hp ⟨hleft, hright, hparent⟩
    cases parent with
    | none =>
      cases hinsert
      exact ⟨hset, hptr⟩
    | some q =>
      obtain ⟨m, hm, hinsert⟩ := bind_eq_some_iff.mp hinsert
      cases hinsert
      have hq := hparent q rfl
      exact ⟨hset.trans (hset.closed.set hq (inside_setChild (hset.closed q m hq hm) hptr _)), hroot⟩

theorem bstReplace_inside (hc : Closed S h) (hparent : Into S parent) (hptr : Into S ptr)
    (hreplace : bstReplace h parent p ptr = some h') : UpdatesInside S h h' := by
  rw [bstReplace] at hreplace
  obtain ⟨q, rfl, hrest⟩ := bind_eq_some_iff.mp hreplace
  obtain ⟨m, hm, hset⟩ := bind_eq_some_iff.mp hrest
  cases hset
  have hq := hparent q rfl
  exact hc.set hq (inside_setChild (hc q m hq hm) hptr _)

theorem bstGenericDelete_inside (hc : Closed S h) (hroot : Into S root) (hp : S p)
    (hdelete : bstGenericDelete key h root p = some (h', root')) :
    UpdatesInside S h h' ∧ Into S root' := by
  rw [bstGenericDelete] at hdelete
  obtain ⟨n, hn, hdelete⟩ := bind_eq_some_iff.mp hdelete
  obtain ⟨hleft, hright, hparent⟩ := hc p n hp hn
  -- a leaf or an only child: one pointer of the parent changes
  have hone : ∀ {ptr}, Into S ptr → (bstReplace h n.parent p ptr).map (·, root) = some (h', root') →
      UpdatesInside S h h' ∧ Into S root' := by
    intro ptr hptr hmap
    obtain ⟨h₁, hreplace, heq⟩ := map_eq_some_iff.mp hmap
    cases heq
    exact ⟨bstReplace_inside hc hparent hptr hreplace, hroot⟩
  split at hdelete
  · split_ifs at hdelete
    · cases hdelete
      exact ⟨.refl hc, into_none⟩
    · exact hone into_none hdelete
  · rename_i l hl hr
    exact hone (hl ▸ hleft) hdelete
  · rename_i r hl hr
    exact hone (hr ▸ hright) hdelete
  · -- two children: the node is cut out, and its subtrees are inserted again
    obtain ⟨h₁, hreplace, hdelete⟩ := bind_eq_some_iff.mp hdelete
    obtain ⟨n₁, hn₁, hdelete⟩ := bind_eq_some_iff.mp hdelete
    obtain ⟨⟨h₂, root₂⟩, hinsert, hdelete⟩ := bind_eq_some_iff.mp hdelete
    obtain ⟨n₂, hn₂, hdelete⟩ := bind_eq_some_iff.mp hdelete
    have hcut := bstReplace_inside hc hparent into_none hreplace
    obtain ⟨hfirst, hroot₂⟩ :=
      bstGenericInsert_inside hcut.closed hroot (hcut.closed p n₁ hp hn₁).2.1 hinsert
    obtain ⟨hsecond, hroot'⟩ :=
      bstGenericInsert_inside hfirst.closed hroot₂ (hfirst.closed p n₂ hp hn₂).1 hdelete
    exact ⟨(hcut.trans hfirst).trans hsecond, hroot'⟩

end Separation

end Pastoral
