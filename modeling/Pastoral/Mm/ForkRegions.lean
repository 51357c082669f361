import Pastoral.Mm.Mmap

/-!
# The regions after a fork

`vmm_copy_region_tree` copies every node of the region tree with its parent pointer, so that below
the root the copies have parents in the tree of the parent.

## Main results

* `forkIndependent_iff`: a fork is independent if there is at most one region
-/

open List Option Probe SearchTree Transition TreeHeap

namespace Pastoral

variable {N : Type}

/-! ## Calls inside a set of nodes -/

structure Owns (S : ℕ → Prop) (t : Space N) (k : MapKernel N) : Prop where
  closed : Closed S k.heap
  root : Into S t.mmapRegionRoot
  fresh : ∀ q, k.heap.length ≤ q → S q

structure StaysInside (S : ℕ → Prop) (k : MapKernel N) (t' : Space N) (k' : MapKernel N) :
    Prop where
  owns : Owns S t' k'
  outside : ∀ p, ¬ S p → k'.heap[p]? = k.heap[p]?

section Inside

variable {S : ℕ → Prop} {t t' : Space N} {k k' : MapKernel N} {p : ℕ}

theorem Owns.update (h : Owns S t k) (hheap : UpdatesInside S k.heap k'.heap)
    (hroot : Into S t'.mmapRegionRoot) : StaysInside S k t' k' :=
  ⟨⟨hheap.closed, hroot, fun q hq => h.fresh q (hheap.length_le.trans hq)⟩, hheap.outside⟩

theorem search_inside {stop : Region → Bool} {a steps : ℕ} {ptr : Option ℕ} {h : Heap Region}
    (hc : Closed S h) (hptr : Into S ptr)
    (hsearch : TreeHeap.search Region.base stop a h steps ptr = some (some p)) : S p := by
  induction steps generalizing ptr with
  | zero => cases ptr <;> simp [TreeHeap.search] at hsearch
  | succ steps ih =>
    cases ptr with
    | none => simp [TreeHeap.search] at hsearch
    | some q =>
      have hq := hptr q rfl
      rw [TreeHeap.search] at hsearch
      cases hn : h[q]? with
      | none => simp [hn] at hsearch
      | some n =>
        rw [hn] at hsearch
        dsimp only at hsearch
        split_ifs at hsearch with hstop hlt
        · obtain rfl : q = p := by simpa using hsearch
          exact hq
        · exact ih (hc q n hq hn).1 hsearch
        · exact ih (hc q n hq hn).2.1 hsearch

theorem Owns.allocRegion (h : Owns S t k) (region : Region) :
    UpdatesInside S k.heap (k.allocRegion region).2.heap ∧ S (k.allocRegion region).1 :=
  ⟨h.closed.alloc (h.fresh _ le_rfl) ⟨into_none, into_none, into_none⟩, h.fresh _ le_rfl⟩

theorem Owns.allocates {q : Option ℕ} (h : Owns S t k) (hq : Allocates k q k') :
    Owns S t k' ∧ UpdatesInside S k.heap k'.heap ∧ Into S q := by
  obtain ⟨rfl, rfl⟩ | ⟨r, rfl, rfl⟩ := hq
  · exact ⟨h, .refl h.closed, into_none⟩
  · obtain ⟨hheap, hq⟩ := h.allocRegion r
    exact ⟨(h.update hheap h.root).owns, hheap, into_some hq⟩

variable [DecidableEq N] {ops : AssetOps N}

theorem munmapRegion_inside {base length : ℕ} (h : Owns S t k) (hp : S p)
    (hcall : munmapRegion ops t k p base length = some (t', k')) :
    StaysInside S k t' k' := by
  obtain ⟨lower, upper, k₁, k₂, n, hk₁, hk₂, h₃, root₃, h₄, root₄, h₅, root₅, hdelete, hinsert,
    hinsert', hpages⟩ := munmapRegion_cases hcall
  obtain ⟨h₁, hheap₁, hlower⟩ := h.allocates hk₁
  obtain ⟨h₂, hheap₂, hupper⟩ := h₁.allocates hk₂
  obtain ⟨hheap₃, hroot₃⟩ := bstGenericDelete_inside h₂.closed h₂.root hp hdelete
  obtain ⟨hheap₄, hroot₄⟩ := bstGenericInsert_inside hheap₃.closed hroot₃ hlower hinsert
  obtain ⟨hheap₅, hroot₅⟩ := bstGenericInsert_inside hheap₄.closed hroot₄ hupper hinsert'
  have hregions := munmapPages_regions ops n (BitVec.ofNat 64 base)
    { t with mmapRegionRoot := root₅ } { k₂ with heap := h₅ }
  rw [hpages] at hregions
  refine h.update ?_ ?_
  · rw [hregions.2]
    exact (((hheap₁.trans hheap₂).trans hheap₃).trans hheap₄).trans hheap₅
  · rw [hregions.1]
    exact hroot₅

theorem munmapWithin_inside {depth base length : ℕ} {ret : ℤ} (h : Owns S t k)
    (hcall : munmapWithin ops depth t k base length = some (ret, t', k')) :
    StaysInside S k t' k' := by
  refine munmapWithin_induct (P := fun t k t' k' => Owns S t k → StaysInside S k t' k')
    (fun t k h => ⟨h, fun _ _ => rfl⟩) (fun _ hsearch hfirst hregion h => ?_) hcall h
  have hlast :=
    munmapRegion_inside (hfirst h).owns (search_inside h.closed h.root hsearch) hregion
  exact ⟨hlast.owns, fun q hq => (hlast.outside q hq).trans ((hfirst h).outside q hq)⟩

omit [DecidableEq N] in
theorem mmapPrivatePages_regions (frames : ℕ → BitVec 64) (node : N) (flags : BitVec 64) (n : ℕ)
    (vaddr : BitVec 64) (offset : ℤ) (t : Space N) (k : MapKernel N) :
    (mmapPrivatePages frames node flags n vaddr offset t k).1.mmapRegionRoot = t.mmapRegionRoot ∧
      (mmapPrivatePages frames node flags n vaddr offset t k).2.heap = k.heap := by
  induction n generalizing vaddr offset t k with
  | zero => exact ⟨rfl, rfl⟩
  | succ n ih => exact ih ..

theorem mmapSharedPages_regions (shared : Option (ℤ → BitVec 64)) (frames : ℕ → BitVec 64)
    (node : N) (n : ℕ) (vaddr : BitVec 64) (offset : ℤ) (flags : BitVec 64) (t : Space N)
    (k : MapKernel N) :
    (mmapSharedPages shared frames node n vaddr offset flags t k).1.mmapRegionRoot =
        t.mmapRegionRoot ∧
      (mmapSharedPages shared frames node n vaddr offset flags t k).2.heap = k.heap := by
  induction n generalizing vaddr offset flags t k with
  | zero => exact ⟨rfl, rfl⟩
  | succ n ih => exact ih ..

theorem mmapFile_regions {assets : Assets N} {frames : ℕ → BitVec 64} {base length : ℕ}
    {prot flags : BitVec 32} {fd offset : ℤ}
    (hfile : mmapFile assets frames base length prot flags fd offset t k = some (t', k')) :
    t'.mmapRegionRoot = t.mmapRegionRoot ∧ k'.heap = k.heap := by
  rw [mmapFile] at hfile
  split_ifs at hfile
  · cases hfile
    exact ⟨rfl, rfl⟩
  · obtain ⟨node, -, heq⟩ := map_eq_some_iff.mp hfile
    have hpages := mmapSharedPages_regions (assets.shared node) frames node (filePages length)
      (BitVec.ofNat 64 base) (pageOffsetOf offset) (fileFlags vmmShareFlag prot) t k
    rwa [heq] at hpages
  · obtain ⟨node, -, heq⟩ := map_eq_some_iff.mp hfile
    have hpages := mmapPrivatePages_regions frames node (fileFlags 0#64 prot) (filePages length)
      (BitVec.ofNat 64 base) (pageOffsetOf offset) t k
    rwa [heq] at hpages

theorem mmap_inside {assets : Assets N} {frames : ℕ → BitVec 64} {iterations addr length : ℕ}
    {prot flags : BitVec 32} {fd offset : ℤ} {ret : Option ℕ} (h : Owns S t k)
    (hcall : mmap assets frames iterations t k addr length prot flags fd offset =
      some (ret, t', k')) : StaysInside S k t' k' := by
  obtain ⟨bump, ⟨rfl, rfl⟩ |
    ⟨base, len, t₁, k₁, r, h₃, root₃, -, hfile, hinsert, rfl, rfl⟩⟩ := mmap_cases hcall
  · exact ⟨⟨h.closed, h.root, h.fresh⟩, fun _ _ => rfl⟩
  obtain ⟨hroot₁, hheap₁⟩ := mmapFile_regions hfile
  have hown₁ : Owns S t₁ k₁ := ⟨hheap₁ ▸ h.closed, hroot₁ ▸ h.root, hheap₁ ▸ h.fresh⟩
  obtain ⟨hheap₂, hq⟩ := hown₁.allocRegion r
  obtain ⟨hheap₃, hroot₃⟩ := bstGenericInsert_inside hheap₂.closed hown₁.root (into_some hq) hinsert
  have hstays : StaysInside S k₁ { t₁ with mmapRegionRoot := root₃ } { k₁ with heap := h₃ } :=
    hown₁.update (hheap₂.trans hheap₃) hroot₃
  exact ⟨⟨hstays.owns.closed, hstays.owns.root, hstays.owns.fresh⟩, fun q hq =>
    (hstays.outside q hq).trans (by rw [hheap₁])⟩

end Inside

/-! ## Runs of calls -/

inductive MapOp
  | mmap (frames : ℕ → BitVec 64) (iterations addr length : ℕ) (prot flags : BitVec 32)
      (fd offset : ℤ)
  | munmap (addr length : ℕ)

def mapStep [DecidableEq N] (assets : Assets N) (s : Space N × MapKernel N) :
    MapOp → Space N × MapKernel N → Prop
  | .mmap frames iterations addr length prot flags fd offset, s' =>
    ∃ ret, Pastoral.mmap assets frames iterations s.1 s.2 addr length prot flags fd offset =
      some (ret, s'.1, s'.2)
  | .munmap addr length, s' =>
    ∃ ret, Pastoral.munmap assets.ops s.1 s.2 addr length = some (ret, s'.1, s'.2)

section Runs

variable [DecidableEq N] {assets : Assets N} {S : ℕ → Prop} {s s' : Space N × MapKernel N}

theorem mapStep_inside {op : MapOp} (h : Owns S s.1 s.2) (hstep : mapStep assets s op s') :
    StaysInside S s.2 s'.1 s'.2 := by
  cases op with
  | mmap =>
    obtain ⟨ret, hcall⟩ := hstep
    exact mmap_inside h hcall
  | munmap =>
    obtain ⟨ret, hcall⟩ := hstep
    exact munmapWithin_inside h hcall

theorem run_inside {s₀ : Space N × MapKernel N} {tr : List (Event (Space N × MapKernel N) MapOp)}
    (h : Owns S s₀.1 s₀.2) (run : Run (mapStep assets) s₀ tr s) :
    ∀ p, ¬ S p → s.2.heap[p]? = s₀.2.heap[p]? := by
  have hinv : Owns S s.1 s.2 ∧ ∀ p, ¬ S p → s.2.heap[p]? = s₀.2.heap[p]? := by
    refine run.invariant (I := fun _ s => Owns S s.1 s.2 ∧
      ∀ p, ¬ S p → s.2.heap[p]? = s₀.2.heap[p]?) ⟨h, fun _ _ => rfl⟩ ?_
    rintro tr s op s' ⟨hown, hout⟩ hstep
    have hstays := mapStep_inside hown hstep
    exact ⟨hstays.owns, fun p hp => (hstays.outside p hp).trans (hout p hp)⟩
  exact hinv.2

end Runs

/-! ## The copy -/

def vmmCopyRegionTree : ℕ → Heap Region → Option ℕ → Option (Heap Region × Option ℕ)
  | _, h, none => some (h, none)
  | 0, _, some _ => none
  | depth + 1, h, some root => do
    let n ← h[root]?
    let region := h.length
    -- all fields, the parent pointer included
    let h := h ++ [n]
    let (h, left) ← vmmCopyRegionTree depth h n.left
    let h := h.set region { n with left := left }
    let (h, right) ← vmmCopyRegionTree depth h n.right
    let h := h.set region { n with left := left, right := right }
    some (h, some region)

def Space.vmmForkPageTable (t : Space N) (k : MapKernel N) :
    Option (Space N × Space N × MapKernel N) :=
  let (slots, f) := forkSlots t.pages.slots
    ⟨t.leaves, vmmDefaultTable k.kernel.maps, k.kernel.references⟩
  (vmmCopyRegionTree k.heap.length k.heap t.mmapRegionRoot).map fun (heap, root) =>
    ({ t with leaves := f.leaves, pages := ⟨slots⟩ },
      ⟨root, f.child.mmapBumpBase, f.child.leaves, f.child.pages⟩,
      { k with heap := heap, kernel := { k.kernel with references := f.references } })

def Copied (h h' : Heap Region) : BinaryTree (ℕ × Region) → BinaryTree (ℕ × Region) → Prop
  | .nil, .nil => True
  | .node x l r, .node x' l' r' =>
    x'.2 = x.2 ∧
      (∃ n n', h[x.1]? = some n ∧ h'[x'.1]? = some n' ∧ n'.parent = n.parent) ∧
      Copied h h' l l' ∧ Copied h h' r r'
  | _, _ => False

section Copy

variable {h h' h'' : Heap Region} {tree tree' : BinaryTree (ℕ × Region)}

theorem Copied.congr {h₀ h₁ : Heap Region} (hc : Copied h h' tree tree')
    (hold : ∀ q ∈ pointers tree, h₀[q]? = h[q]?) (hnew : ∀ q ∈ pointers tree', h₁[q]? = h'[q]?) :
    Copied h₀ h₁ tree tree' := by
  induction tree generalizing tree' with
  | nil => cases tree' with
    | nil => trivial
    | node => exact hc
  | node x l r ihl ihr => cases tree' with
    | nil => exact hc
    | node x' l' r' =>
      obtain ⟨hval, ⟨n, n', hn, hn', hparent⟩, hl, hr⟩ := hc
      refine ⟨hval, ⟨n, n', ?_, ?_, hparent⟩,
        ihl hl (fun q hq => hold q (by simp [hq])) fun q hq => hnew q (by simp [hq]),
        ihr hr (fun q hq => hold q (by simp [hq])) fun q hq => hnew q (by simp [hq])⟩
      · rw [hold x.1 (by simp), hn]
      · rw [hnew x'.1 (by simp), hn']

theorem Copied.labels (hc : Copied h h' tree tree') :
    (inorder tree').map Prod.snd = (inorder tree).map Prod.snd := by
  induction tree generalizing tree' with
  | nil => cases tree' with
    | nil => rfl
    | node => exact absurd hc id
  | node x l r ihl ihr => cases tree' with
    | nil => exact absurd hc id
    | node x' l' r' =>
      obtain ⟨hval, -, hl, hr⟩ := hc
      rw [inorder_node, inorder_node, map_append, map_append, map_cons, map_cons,
        ihl hl, ihr hr, hval]

theorem vmmCopyRegionTree_spec {parent ptr : Option ℕ} {ok : ℕ → Prop} {depth : ℕ}
    (hl : Links h ok parent ptr tree) (hdepth : (inorder tree).length ≤ depth) :
    ∃ h' ptr' tree', vmmCopyRegionTree depth h ptr = some (h', ptr') ∧
      Links h' (fun _ => False) none ptr' tree' ∧ Copied h h' tree tree' ∧
      (∀ q ∈ pointers tree', h.length ≤ q) ∧ (pointers tree').Nodup ∧
      (∀ q < h.length, h'[q]? = h[q]?) ∧ h.length ≤ h'.length := by
  induction tree generalizing h parent ptr depth with
  | nil =>
    obtain rfl : ptr = none := hl
    refine ⟨h, none, .nil, ?_, rfl, trivial, by simp, nodup_nil, fun _ _ => rfl, le_rfl⟩
    cases depth <;> rfl
  | node x l r ihl ihr =>
    have hall := hl.lt_length
    obtain ⟨rfl, n, hn, hval, -, hleft, hright⟩ := hl
    rw [inorder_node, length_append, length_cons] at hdepth
    obtain ⟨depth, rfl⟩ : ∃ j, depth = j + 1 := ⟨depth - 1, by omega⟩
    -- the new node, then the left subtree
    have hnew : ∀ q < h.length, (h ++ [n])[q]? = h[q]? := fun q hq => getElem?_append_left hq
    have hleft₁ := hleft.congr (fun q hq => hnew q (hall q (by simp [hq]))) fun _ _ => id
    obtain ⟨h₂, left', l', hcopy₂, hlinks₂, hcopied₂, hge₂, hnodup₂, hkeep₂, hlen₂⟩ :=
      ihl hleft₁ (by omega : (inorder l).length ≤ depth)
    rw [length_append, length_singleton] at hge₂ hkeep₂ hlen₂
    have hlt₂ := hlinks₂.lt_length
    have hset : ∀ {h : Heap Region} {p q m}, p ≠ q → (h.set p m)[q]? = h[q]? :=
      fun hne => getElem?_set_ne hne
    -- the right subtree
    have hkeep₃ : ∀ q < h.length, (h₂.set h.length { n with left := left' })[q]? = h[q]? := by
      intro q hq
      rw [hset (by omega), hkeep₂ q (by omega), hnew q hq]
    have hright₃ : Links (h₂.set h.length { n with left := left' }) ok (some x.1) n.right r :=
      hright.congr (fun q hq => hkeep₃ q (hall q (by simp [hq]))) fun _ _ => id
    obtain ⟨h₄, right', r', hcopy₄, hlinks₄, hcopied₄, hge₄, hnodup₄, hkeep₄, hlen₄⟩ :=
      ihr hright₃ (by omega : (inorder r).length ≤ depth)
    rw [length_set] at hge₄ hkeep₄ hlen₄
    -- what the last heap keeps of the copies of the subtrees
    have hkeepl : ∀ q ∈ pointers l',
        (h₄.set h.length { n with left := left', right := right' })[q]? = h₂[q]? := by
      intro q hq
      have hge := hge₂ q hq
      rw [hset (by omega), hkeep₄ q (hlt₂ q hq), hset (by omega)]
    have hkeepr : ∀ q ∈ pointers r',
        (h₄.set h.length { n with left := left', right := right' })[q]? = h₄[q]? := by
      intro q hq
      have hge := hge₄ q hq
      exact hset (by omega)
    have hnode : (h₄.set h.length { n with left := left', right := right' })[h.length]? =
        some { n with left := left', right := right' } :=
      getElem?_set_self (by omega)
    refine ⟨h₄.set h.length { n with left := left', right := right' }, some h.length,
      .node (h.length, x.2) l' r', ?_, ⟨rfl, _, hnode, hval, fun hfalse => hfalse.elim, ?_, ?_⟩,
      ⟨rfl, ⟨n, _, hn, hnode, rfl⟩, ?_, ?_⟩, ?_, ?_, ?_, ?_⟩
    · rw [vmmCopyRegionTree, hn]
      simp only [bind_eq_bind, bind_some, hcopy₂, hcopy₄]
    · exact (hlinks₂.congr hkeepl fun _ _ => id).reroot _ fun _ _ hfalse => hfalse.elim
    · exact (hlinks₄.congr hkeepr fun _ _ => id).reroot _ fun _ _ hfalse => hfalse.elim
    · exact hcopied₂.congr (fun q hq => (hnew q (hall q (by simp [hq]))).symm) hkeepl
    · exact hcopied₄.congr (fun q hq => (hkeep₃ q (hall q (by simp [hq]))).symm) hkeepr
    · intro q hq
      rw [pointers_node, mem_append, mem_cons] at hq
      rcases hq with hq | rfl | hq
      · have hge := hge₂ q hq
        omega
      · exact le_rfl
      · have hge := hge₄ q hq
        omega
    · rw [pointers_node]
      refine nodup_append.mpr ⟨hnodup₂, nodup_cons.mpr ⟨fun hq => ?_, hnodup₄⟩, ?_⟩
      · have hge := hge₄ _ hq
        omega
      · rintro q hq q' hq' rfl
        have hge := hge₂ q hq
        have hlt := hlt₂ q hq
        rcases mem_cons.mp hq' with heq | hq'
        · omega
        · have hge' := hge₄ q hq'
          omega
    · intro q hq
      rw [hset (by omega), hkeep₄ q (by omega), hkeep₃ q hq]
    · rw [length_set]
      omega

end Copy

/-! ## Independence -/

def TreeKept (k k' : MapKernel N) (t : Space N) : Prop :=
  ∀ x ∈ k.regionsOf t, k'.heap[x.1]? = k.heap[x.1]?

/-- **An independent fork**: the child has the same regions in a tree with parent pointers of its
own, and no run of calls on one page table changes the tree of the other. -/
def ForkIndependent [DecidableEq N] (assets : Assets N) (t : Space N) (k : MapKernel N) : Prop :=
  ∃ parent child k', t.vmmForkPageTable k = some (parent, child, k') ∧
    (k'.regionsOf child).map Prod.snd = (k.regionsOf t).map Prod.snd ∧
    (∃ tree', Links k'.heap (fun _ => True) none child.mmapRegionRoot tree') ∧
    (∀ tr s, Run (mapStep assets) (child, k') tr s → TreeKept k' s.2 parent) ∧
    ∀ tr s, Run (mapStep assets) (parent, k') tr s → TreeKept k' s.2 child

section Independence

variable {t : Space N} {k : MapKernel N} {tree : BinaryTree (ℕ × Region)}

theorem owns_tree (hl : Links k.heap (fun _ => True) none t.mmapRegionRoot tree) :
    Owns (fun q => q ∈ pointers tree ∨ k.heap.length ≤ q) t k := by
  refine ⟨fun p n hp hn => ?_, ?_, fun q hq => .inr hq⟩
  · rcases hp with hp | hp
    · exact hl.inside (fun q hq => .inl hq) into_none p hp n hn
    · have hlt := (List.getElem?_eq_some_iff.mp hn).1
      omega
  · intro p hp
    cases tree with
    | nil => exact absurd (hp.symm.trans hl) (by simp)
    | node x l r =>
      obtain rfl : p = x.1 := some.inj (hp.symm.trans hl.1)
      exact .inl (by simp)

theorem run_keeps_tree [DecidableEq N] {assets : Assets N} {other : Space N} {ok : ℕ → Prop}
    {tree' : BinaryTree (ℕ × Region)} {tr : List (Event (Space N × MapKernel N) MapOp)}
    {s : Space N × MapKernel N} (run : Run (mapStep assets) (t, k) tr s)
    (hl : Links k.heap (fun _ => True) none t.mmapRegionRoot tree)
    (hother : Links k.heap ok none other.mmapRegionRoot tree') (hnodup : (pointers tree').Nodup)
    (hdisjoint : ∀ q ∈ pointers tree', q ∉ pointers tree) : TreeKept k s.2 other := by
  intro x hx
  rw [regionsOf_eq hother hnodup] at hx
  have hmem := mem_pointers hx
  refine run_inside (owns_tree hl) run x.1 ?_
  rintro (hin | hnew)
  · exact hdisjoint x.1 hmem hin
  · exact absurd (hother.lt_length x.1 hmem) (not_lt.mpr hnew)

theorem Copied.parent_eq {h h' : Heap Region} {p p' : ℕ} {ptr ptr' : Option ℕ}
    {c c' : BinaryTree (ℕ × Region)} (hl : Links h (fun _ => True) (some p) ptr c)
    (hl' : Links h' (fun _ => True) (some p') ptr' c') (hc : Copied h h' c c') (hne : c ≠ .nil) :
    p = p' := by
  cases c with
  | nil => exact absurd rfl hne
  | node y l r => cases c' with
    | nil => exact absurd hc id
    | node y' l' r' =>
      obtain ⟨-, ⟨n, n', hn, hn', hparent⟩, -⟩ := hc
      obtain ⟨-, m, hm, -, hp, -⟩ := hl
      obtain ⟨-, m', hm', -, hp', -⟩ := hl'
      obtain rfl : n = m := some.inj (hn.symm.trans hm)
      obtain rfl : n' = m' := some.inj (hn'.symm.trans hm')
      exact some.inj ((hp trivial).symm.trans (hparent.symm.trans (hp' trivial)))

theorem Copied.links {h h' : Heap Region} {root root' : Option ℕ} {tree' : BinaryTree (ℕ × Region)}
    (hl : Links h (fun _ => True) none root tree)
    (hl' : Links h' (fun _ => False) none root' tree') (hc : Copied h h' tree tree')
    (hone : (inorder tree).length ≤ 1) : Links h' (fun _ => True) none root' tree' := by
  cases tree with
  | nil => cases tree' with
    | nil => exact hl'
    | node => exact absurd hc id
  | node x l r =>
    have hsize : (inorder l).length = 0 ∧ (inorder r).length = 0 := by
      rw [inorder_node, length_append, length_cons] at hone
      omega
    obtain ⟨rfl, rfl⟩ : l = .nil ∧ r = .nil := by
      cases l <;> cases r <;> simp_all
    cases tree' with
    | nil => exact absurd hc id
    | node x' l' r' =>
      obtain ⟨-, ⟨n, n', hn, hn', hparent⟩, hcl, hcr⟩ := hc
      obtain ⟨rfl, rfl⟩ : l' = .nil ∧ r' = .nil := by
        cases l' <;> cases r' <;> simp_all [Copied]
      obtain ⟨-, m, hm, -, hp, -⟩ := hl
      obtain ⟨hptr, m', hm', hval, -, hleft, hright⟩ := hl'
      obtain rfl : n = m := some.inj (hn.symm.trans hm)
      obtain rfl : n' = m' := some.inj (hn'.symm.trans hm')
      exact ⟨hptr, n', hn', hval, fun _ => hparent.trans (hp trivial), hleft, hright⟩

/-- **A fork is independent exactly when there is at most one region.** -/
theorem forkIndependent_iff [DecidableEq N] (assets : Assets N) (t : Space N) (k : MapKernel N)
    (tree : BinaryTree (ℕ × Region))
    (hl : Links k.heap (fun _ => True) none t.mmapRegionRoot tree) (hnodup : (pointers tree).Nodup) :
    ForkIndependent assets t k ↔ (inorder tree).length ≤ 1 := by
  obtain ⟨h', root', tree', hcopy, hlinks', hcopied, hge, hnodup', hkeep, hlen⟩ :=
    vmmCopyRegionTree_spec hl (hl.length_le hnodup)
  have hlt := hl.lt_length
  generalize hf : forkSlots t.pages.slots
    ⟨t.leaves, vmmDefaultTable k.kernel.maps, k.kernel.references⟩ = f
  have hfork : t.vmmForkPageTable k = some ({ t with leaves := f.2.leaves, pages := ⟨f.1⟩ },
      ⟨root', f.2.child.mmapBumpBase, f.2.child.leaves, f.2.child.pages⟩,
      { k with heap := h', kernel := { k.kernel with references := f.2.references } }) := by
    rw [Space.vmmForkPageTable, hcopy, hf]
    rfl
  -- the tree of the parent, in the heap with the copy
  have hparent : Links h' (fun _ => True) none t.mmapRegionRoot tree :=
    hl.congr (fun q hq => hkeep q (hlt q hq)) fun _ _ => id
  constructor
  · rintro ⟨parent, child, k', hfork', -, ⟨tree'', hown⟩, -⟩
    rw [hfork] at hfork'
    obtain ⟨-, rfl, rfl⟩ := hfork'
    obtain rfl : tree' = tree'' := hlinks'.unique hown
    by_contra hmany
    cases tree with
    | nil => exact hmany (by simp)
    | node x l r => cases tree' with
      | nil => exact absurd hcopied id
      | node x' l' r' =>
        have hne : x.1 ≠ x'.1 := by
          have h₁ := hlt x.1 (by simp)
          have h₂ := hge x'.1 (by simp)
          omega
        obtain ⟨-, -, hcl, hcr⟩ := hcopied
        obtain ⟨-, n, -, -, -, hleft, hright⟩ := hl
        obtain ⟨-, n', -, -, -, hleft', hright'⟩ := hown
        rcases eq_or_ne l .nil with rfl | hne'
        · refine hne (Copied.parent_eq hright hright' hcr ?_)
          rintro rfl
          exact hmany (by simp)
        · exact hne (Copied.parent_eq hleft hleft' hcl hne')
  · intro hone
    have hchild := hcopied.links hl hlinks' hone
    -- the nodes of the parent are older than the copy
    have hdisjoint : ∀ q ∈ pointers tree, q ∉ pointers tree' := by
      intro q hq hq'
      have h₁ := hlt q hq
      have h₂ := hge q hq'
      omega
    refine ⟨_, _, _, hfork, ?_, ⟨tree', hchild⟩, fun tr s run => ?_, fun tr s run => ?_⟩
    · rw [regionsOf_eq hl hnodup]
      exact (congrArg _ (read_eq hlinks' (hlinks'.length_le hnodup'))).trans hcopied.labels
    · exact run_keeps_tree run hchild hparent hnodup hdisjoint
    · exact run_keeps_tree run hparent hchild hnodup' fun q hq' hq => hdisjoint q hq hq'

end Independence

theorem forkIndependent_iff_one_region : ForkIndependent noFiles oneRegion oneRegionKernel :=
  (forkIndependent_iff noFiles oneRegion oneRegionKernel (.node (0, fourPages) .nil .nil)
    regionTree_oneRegion.links regionTree_oneRegion.nodup).mpr (by decide)

def twoRegions : Space Unit := ⟨some 0, 0, fun _ => 0#64, HashTable.empty⟩

def twoRegionsKernel : MapKernel Unit :=
  { oneRegionKernel with
    heap := [⟨fourPages, none, some 1, none⟩,
      ⟨{ fourPages with base := 0x20000 }, none, none, some 0⟩] }

theorem fork_child_unmaps_in_parent :
    Links twoRegionsKernel.heap (fun _ => True) none twoRegions.mmapRegionRoot
        (.node (0, fourPages) .nil (.node (1, { fourPages with base := 0x20000 }) .nil .nil)) ∧
      (twoRegions.vmmForkPageTable twoRegionsKernel).map (fun x =>
        ((x.2.2.regionsOf x.1).map fun y => y.2.base,
          (x.2.2.regionsOf x.2.1).map fun y => y.2.base)) =
        some ([0x10000, 0x20000], [0x10000, 0x20000]) ∧
      ((twoRegions.vmmForkPageTable twoRegionsKernel).bind fun x =>
        (munmap plainOps x.2.1 x.2.2 0x20000 0x4000).map fun y =>
          ((y.2.2.regionsOf x.1).map fun z => z.2.base,
            (y.2.2.regionsOf y.2.1).map fun z => z.2.base)) =
        some ([0x10000], [0x10000, 0x20000]) := by
  refine ⟨⟨rfl, _, rfl, rfl, fun _ => rfl, rfl, rfl, _, rfl, rfl, fun _ => rfl, rfl, rfl⟩, ?_, ?_⟩ <;>
    decide +kernel

end Pastoral
