import Pastoral.Mm.AddressSpaces
import Pastoral.Theory.RefCount

/-!
# Copy-on-write isolation

Pages of different address spaces share a frame exactly when they share its counter, and the counter
counts them.

## Main results

* `cow_isolation`: a writable page that is not shared has a frame of its own
-/

open Function List Multiset Probe Transition

namespace Pastoral

variable {N : Type}

/-! ## The pages of all tasks -/

section Pages

variable {s : VmmState N} {task : ℕ} {t : PageTable N}

def pagesOf (tables : List (PageTable N)) : Multiset (Page N) :=
  (tables.map fun t => pageSet t.pages).sum

@[simp] theorem pagesOf_nil : pagesOf ([] : List (PageTable N)) = 0 := rfl

@[simp] theorem pagesOf_cons (t : PageTable N) (tables : List (PageTable N)) :
    pagesOf (t :: tables) = pageSet t.pages + pagesOf tables := by
  simp [pagesOf]

@[simp] theorem pagesOf_append (tables tables' : List (PageTable N)) :
    pagesOf (tables ++ tables') = pagesOf tables + pagesOf tables' := by
  simp [pagesOf]

variable {page : Page N}

theorem mem_pagesOf {tables : List (PageTable N)} :
    page ∈ pagesOf tables ↔ ∃ t ∈ tables, page ∈ pageSet t.pages := by
  induction tables with
  | nil => simp
  | cons t tables ih => simp [ih]

def VmmState.pages (s : VmmState N) : Multiset (Page N) := pagesOf s.tables

theorem mem_pages (ht : s.tables[task]? = some t) (hpage : page ∈ pageSet t.pages) :
    page ∈ s.pages :=
  mem_pagesOf.mpr ⟨t, mem_of_getElem? ht, hpage⟩

def VmmState.otherPages (s : VmmState N) (task : ℕ) : Multiset (Page N) :=
  pagesOf (s.tables.eraseIdx task)

theorem pages_setTable (ht : s.tables[task]? = some t) (t' : PageTable N) (k : Kernel) :
    (s.setTable task t' k).pages = pageSet t'.pages + s.otherPages task := by
  have hlt := (List.getElem?_eq_some_iff.mp ht).1
  rw [VmmState.pages, VmmState.setTable, VmmState.otherPages,
    set_eq_take_append_cons_drop, if_pos hlt, eraseIdx_eq_take_drop_succ, pagesOf_append,
    pagesOf_append]
  exact add_left_comm _ _ _

theorem pages_eq (ht : s.tables[task]? = some t) :
    s.pages = pageSet t.pages + s.otherPages task := by
  rw [← pages_setTable ht t s.kernel, s.setTable_self ht]

theorem mem_otherPages {j : ℕ} {t' : PageTable N} (hj : j ≠ task)
    (ht' : s.tables[j]? = some t') (hpage : page ∈ pageSet t'.pages) :
    page ∈ s.otherPages task := by
  refine mem_pagesOf.mpr ⟨t', ?_, hpage⟩
  exact mem_eraseIdx_iff_getElem?.mpr ⟨j, hj, ht'⟩

end Pages

/-! ## Shared counters -/

section Counters

variable {pages rest : Multiset (Page N)} {k : Kernel} {page : Page N}

theorem mem_references (h : page ∈ pages) : page.reference ∈ references pages :=
  mem_map_of_mem _ h

@[simp] theorem references_cons (page : Page N) (pages : Multiset (Page N)) :
    references (page ::ₘ pages) = page.reference ::ₘ references pages := Multiset.map_cons ..

@[simp] theorem references_add (pages pages' : Multiset (Page N)) :
    references (pages + pages') = references pages + references pages' := Multiset.map_add ..

@[simp] theorem references_share (pages : Multiset (Page N)) :
    references (pages.map Page.share) = references pages := by
  rw [references, Multiset.map_map]
  rfl

structure Sharing (pages : Multiset (Page N)) (k : Kernel) : Prop where
  exact : RefCount.Exact (references pages) k.references
  allocated : ∀ page ∈ pages, page.reference < k.nextReference
  used : ∀ page ∈ pages, page.paddr ∈ k.used
  low : ∀ page ∈ pages, page.paddr.toNat < 2 ^ 40
  frames : ∀ p ∈ pages, ∀ q ∈ pages, p.reference = q.reference ↔ p.paddr = q.paddr

theorem Sharing.nextReference_notMem (h : Sharing pages k) :
    k.nextReference ∉ references pages := by
  intro hmem
  obtain ⟨page, hpage, heq⟩ := mem_map.mp hmem
  exact absurd (h.allocated page hpage) (by omega)

theorem Sharing.cons (h : Sharing rest k) (href : page.reference = k.nextReference)
    (hused : page.paddr ∈ k.used) (hlow : page.paddr.toNat < 2 ^ 40)
    (hframe : ∀ q ∈ rest, q.paddr ≠ page.paddr) : Sharing (page ::ₘ rest) k.newReference := by
  have hnew : ∀ q ∈ rest, q.reference ≠ page.reference := fun q hq heq =>
    h.nextReference_notMem (href ▸ heq ▸ mem_references hq)
  constructor
  · rw [references_cons, href]
    exact h.exact.create h.nextReference_notMem
  · intro p hp
    show p.reference < k.nextReference + 1
    rcases mem_cons.mp hp with rfl | hp
    · omega
    · have := h.allocated p hp
      omega
  · intro p hp
    rcases mem_cons.mp hp with rfl | hp
    · exact hused
    · exact h.used p hp
  · intro p hp
    rcases mem_cons.mp hp with rfl | hp
    · exact hlow
    · exact h.low p hp
  · intro p hp q hq
    rcases mem_cons.mp hp with hp | hp <;> rcases mem_cons.mp hq with hq | hq
    · rw [hp, hq]
      exact iff_of_true rfl rfl
    · rw [hp]
      exact iff_of_false (Ne.symm (hnew q hq)) (Ne.symm (hframe q hq))
    · rw [hq]
      exact iff_of_false (hnew p hp) (hframe p hp)
    · exact h.frames p hp q hq

theorem Sharing.drop (h : Sharing (page ::ₘ rest) k) :
    Sharing rest (k.addReference page.reference (-1)) := by
  have hmem : ∀ {p}, p ∈ rest → p ∈ page ::ₘ rest := mem_cons_of_mem
  refine ⟨?_, fun p hp => h.allocated p (hmem hp), fun p hp => h.used p (hmem hp),
    fun p hp => h.low p (hmem hp), fun p hp q hq => h.frames p (hmem hp) q (hmem hq)⟩
  have hexact := h.exact
  rw [references_cons] at hexact
  exact hexact.drop

theorem Sharing.pmmAlloc (h : Sharing pages k) (frame : BitVec 64) :
    Sharing pages (k.pmmAlloc frame) :=
  ⟨h.exact, h.allocated, fun p hp => mem_cons_of_mem _ (h.used p hp), h.low, h.frames⟩

theorem Sharing.congr {k' : Kernel} (h : Sharing pages k) (hused : k'.used = k.used)
    (hnext : k'.nextReference = k.nextReference) (hreferences : k'.references = k.references) :
    Sharing pages k' :=
  ⟨hreferences ▸ h.exact, hnext ▸ h.allocated, hused ▸ h.used, h.low, h.frames⟩

theorem Sharing.alone (h : Sharing (page ::ₘ rest) k) (halone : k.references page.reference ≤ 1) :
    ∀ q ∈ rest, q.paddr ≠ page.paddr := by
  intro q hq heq
  have hexact := h.exact
  rw [references_cons] at hexact
  apply hexact.alone.mp halone
  have href := (h.frames q (mem_cons_of_mem hq) page (mem_cons_self _ _)).mpr heq
  exact href ▸ mem_references hq

theorem Sharing.fork {k' : Kernel} (h : Sharing (pages + rest) k) (hused : k'.used = k.used)
    (hnext : k'.nextReference = k.nextReference)
    (hreferences : k'.references = fun r => k.references r + (references pages).count r) :
    Sharing (pages.map Page.share + rest + pages.map Page.share) k' := by
  -- every page has the counter and the frame of an old one
  have hold : ∀ p ∈ pages.map Page.share + rest + pages.map Page.share,
      ∃ q ∈ pages + rest, q.reference = p.reference ∧ q.paddr = p.paddr := by
    intro p hp
    simp only [mem_add, Multiset.mem_map] at hp
    rcases hp with (⟨q, hq, rfl⟩ | hp) | ⟨q, hq, rfl⟩
    · exact ⟨q, mem_add.mpr (.inl hq), rfl, rfl⟩
    · exact ⟨p, mem_add.mpr (.inr hp), rfl, rfl⟩
    · exact ⟨q, mem_add.mpr (.inl hq), rfl, rfl⟩
  refine ⟨?_, fun p hp => ?_, fun p hp => ?_, fun p hp => ?_, fun p hp q hq => ?_⟩
  · have hexact := h.exact
    rw [references_add] at hexact
    rw [hreferences, references_add, references_add, references_share]
    exact hexact.duplicate
  · obtain ⟨q, hq, href, -⟩ := hold p hp
    rw [hnext, ← href]
    exact h.allocated q hq
  · obtain ⟨q, hq, -, hframe⟩ := hold p hp
    rw [hused, ← hframe]
    exact h.used q hq
  · obtain ⟨q, hq, -, hframe⟩ := hold p hp
    rw [← hframe]
    exact h.low q hq
  · obtain ⟨p₀, hp₀, hpref, hpframe⟩ := hold p hp
    obtain ⟨q₀, hq₀, hqref, hqframe⟩ := hold q hq
    rw [← hpref, ← hqref, ← hpframe, ← hqframe]
    exact h.frames p₀ hp₀ q₀ hq₀

end Counters

/-! ## The invariant of copy-on-write -/

section Invariant

variable {s s' : VmmState N} {op : VmmOp} {task : ℕ} {t : PageTable N} {v : BitVec 64}
  {page page' q : Page N} {rest : Multiset (Page N)}

structure CowInv (s : VmmState N) : Prop where
  tables : TablesInv s
  sharing : Sharing s.pages s.kernel
  exclusive : ∀ {task : ℕ} {t : PageTable N} {v : BitVec 64} {page : Page N},
    s.tables[task]? = some t → (v, page) ∈ entries t.pages.slots →
      (t.leaves v).getLsbD 9 = false → (references s.pages).count page.reference = 1
  distinct : ∀ t ∈ s.tables, (references (pageSet t.pages)).Nodup

/-- The frame of a fault is below `2 ^ 40`. -/
def VmmOp.LowFrame : VmmOp → Prop
  | .fault _ _ _ frame => frame.toNat < 2 ^ 40
  | _ => True

theorem count_new (h : page.reference ∉ references rest) :
    (references (page ::ₘ rest)).count page.reference = 1 := by
  rw [references_cons, Multiset.count_cons_self, count_eq_zero_of_notMem h]

theorem count_other (hq : q ∈ rest) (hone : (references (page ::ₘ rest)).count q.reference = 1)
    (hne : page'.reference ≠ q.reference) :
    (references (page' ::ₘ rest)).count q.reference = 1 := by
  have hpos := count_pos.mpr (mem_references hq)
  rw [references_cons, Multiset.count_cons] at hone
  rw [references_cons, Multiset.count_cons_of_ne (Ne.symm hne)]
  omega

variable {t' : PageTable N}

theorem CowInv.congr (h : CowInv s) (ht : s.tables[task]? = some t)
    (htable : TableInv t'.leaves t'.pages) (hpages : t'.pages = t.pages)
    (hleaves : ∀ v, (t'.leaves v).getLsbD 9 = (t.leaves v).getLsbD 9) :
    CowInv (s.setTable task t' s.kernel) := by
  have hsame : (s.setTable task t' s.kernel).pages = s.pages := by
    rw [pages_setTable ht, pages_eq ht, hpages]
  refine ⟨h.tables.setTable htable, ?_, ?_, ?_⟩
  · rw [hsame]
    exact h.sharing
  · intro j t₁ w q ht₁ hw hcow
    rw [hsame]
    rcases getElem?_setTable ht₁ with ⟨rfl, rfl⟩ | ⟨-, ht₁⟩
    · rw [hleaves] at hcow
      rw [hpages] at hw
      exact h.exclusive ht hw hcow
    · exact h.exclusive ht₁ hw hcow
  · intro t₁ ht₁
    rcases mem_or_eq_of_mem_set ht₁ with ht₁ | rfl
    · exact h.distinct t₁ ht₁
    · rw [hpages]
      exact h.distinct t (mem_of_getElem? ht)

theorem CowInv.cowTable (h : CowInv s) (ht : s.tables[task]? = some t)
    (hpage : (v, page) ∈ entries t.pages.slots) {newFrame : BitVec 64}
    (hframe : PhysFrame newFrame) {k : Kernel}
    (hsharing : ∀ rest, s.pages = page ::ₘ rest →
      Sharing (page.move newFrame s.kernel.nextReference ::ₘ rest) k) :
    CowInv (s.setTable task (cowTable t v page newFrame s.kernel.nextReference) k) := by
  have hinv := h.tables.get ht
  obtain ⟨htable, others, hold, hnew⟩ := cowTable_spec hinv hpage hframe s.kernel.nextReference
  have hpages : s.pages = page ::ₘ (others + s.otherPages task) := by
    rw [pages_eq ht, hold, cons_add]
  have hpages' : (s.setTable task (Pastoral.cowTable t v page newFrame s.kernel.nextReference)
      k).pages = page.move newFrame s.kernel.nextReference ::ₘ (others + s.otherPages task) := by
    rw [pages_setTable ht, hnew, cons_add]
  -- the new counter is not one of the old pages
  have hfresh : s.kernel.nextReference ∉ references (others + s.otherPages task) := by
    have hnext := h.sharing.nextReference_notMem
    rw [hpages, references_cons, Multiset.mem_cons, not_or] at hnext
    exact hnext.2
  have hstays : ∀ {q : Page N}, q ∈ others + s.otherPages task →
      (references s.pages).count q.reference = 1 →
      (references (s.setTable task (Pastoral.cowTable t v page newFrame s.kernel.nextReference)
        k).pages).count q.reference = 1 := by
    intro q hq hone
    rw [hpages']
    rw [hpages] at hone
    refine count_other hq hone fun heq => hfresh ?_
    have hnext : s.kernel.nextReference = q.reference := heq
    exact hnext ▸ mem_references hq
  refine ⟨h.tables.setTable htable, ?_, ?_, ?_⟩
  · rw [hpages']
    exact hsharing _ hpages
  · intro j t₁ w q ht₁ hw hcow
    rcases getElem?_setTable ht₁ with ⟨rfl, rfl⟩ | ⟨hj, ht₁⟩
    · rcases (mem_entries_hashTableStore hinv.good hpage).mp hw with ⟨rfl, rfl⟩ | ⟨hwv, hw⟩
      · -- the page of the fault
        rw [hpages']
        exact count_new hfresh
      · -- another page of the task
        have hq : q ∈ others := by
          have hmem := hold ▸ mem_pageSet_of_entry hw
          refine (mem_cons.mp hmem).resolve_left fun heq => hwv ?_
          rw [← (hinv.keyed hw).1, ← (hinv.keyed hpage).1, heq]
        have hleaf : (t.leaves w).getLsbD 9 = false := by
          rwa [cowTable_leaves, update_of_ne hwv] at hcow
        exact hstays (mem_add.mpr (.inl hq)) (h.exclusive ht hw hleaf)
    · -- a page of another task
      have hq := mem_otherPages hj ht₁ (mem_pageSet_of_entry hw)
      exact hstays (mem_add.mpr (.inr hq)) (h.exclusive ht₁ hw hcow)
  · intro t₁ ht₁
    rcases mem_or_eq_of_mem_set ht₁ with ht₁ | rfl
    · exact h.distinct t₁ ht₁
    · have hdistinct := h.distinct t (mem_of_getElem? ht)
      rw [hold, references_cons, Multiset.nodup_cons] at hdistinct
      rw [hnew, references_cons, Multiset.nodup_cons]
      refine ⟨fun hmem => hfresh ?_, hdistinct.2⟩
      rw [references_add]
      exact mem_add.mpr (.inl hmem)

theorem CowInv.anonMapped (h : CowInv s) (ht : s.tables[task]? = some t) {frame : BitVec 64}
    (hframe : FreshFrame s frame) (hlow : frame.toNat < 2 ^ 40) (hv : v ∉ keys t.pages.slots)
    (haligned : pageOf v = v ∧ UserAddress v) (root : Region) :
    CowInv (s.setTable task (anonMapped frame t s.kernel v root).1
      (anonMapped frame t s.kernel v root).2) := by
  have hinv := h.tables.get ht
  obtain ⟨htable, hnew⟩ := hinv.insert hv rfl haligned
    (backs_anon hframe.2 root.prot v s.kernel.nextReference)
  have hpages' : (s.setTable task (Pastoral.anonMapped frame t s.kernel v root).1
      (Pastoral.anonMapped frame t s.kernel v root).2).pages =
        anonPage root.prot v frame s.kernel.nextReference ::ₘ s.pages := by
    rw [pages_setTable ht, pages_eq ht, ← cons_add, ← hnew]
    rfl
  have hfresh := h.sharing.nextReference_notMem
  have hstays : ∀ {q : Page N}, q ∈ s.pages → (references s.pages).count q.reference = 1 →
      (references (anonPage root.prot v frame s.kernel.nextReference ::ₘ s.pages)).count
        q.reference = 1 := by
    intro q hq hone
    rw [references_cons, Multiset.count_cons_of_ne]
    · exact hone
    · intro heq
      have hnext : q.reference = s.kernel.nextReference := heq
      exact hfresh (hnext ▸ mem_references hq)
  refine ⟨h.tables.setTable htable, ?_, ?_, ?_⟩
  · rw [hpages']
    refine (h.sharing.pmmAlloc frame).cons rfl (mem_cons_self ..) hlow fun q hq heq => ?_
    have hsame : q.paddr = frame := heq
    exact hframe.1 (hsame ▸ h.sharing.used q hq)
  · intro j t₁ w q ht₁ hw hcow
    rw [hpages']
    rcases getElem?_setTable ht₁ with ⟨rfl, rfl⟩ | ⟨-, ht₁⟩
    · have hentries := (hashTablePush_fresh (d := anonPage root.prot v frame
        s.kernel.nextReference) hinv.good hv).2
      rcases mem_cons.mp (hentries.mem_iff.mp hw) with heq | hw
      · -- the new page
        cases heq
        exact count_new hfresh
      · -- an old page of the task
        have hwv : w ≠ v := fun heq => hv (heq ▸ mem_keys_iff.mpr ⟨q, hw⟩)
        have hleaf : (t.leaves w).getLsbD 9 = false := by
          have hsame : (Pastoral.anonMapped frame t s.kernel v root).1.leaves w = t.leaves w :=
            update_of_ne hwv ..
          rwa [hsame] at hcow
        exact hstays (mem_pages ht (mem_pageSet_of_entry hw)) (h.exclusive ht hw hleaf)
    · -- a page of another task
      exact hstays (mem_pages ht₁ (mem_pageSet_of_entry hw)) (h.exclusive ht₁ hw hcow)
  · intro t₁ ht₁
    rcases mem_or_eq_of_mem_set ht₁ with ht₁ | rfl
    · exact h.distinct t₁ ht₁
    · have hset : pageSet (Pastoral.anonMapped frame t s.kernel v root).1.pages =
          anonPage root.prot v frame s.kernel.nextReference ::ₘ pageSet t.pages := hnew
      rw [hset, references_cons, Multiset.nodup_cons]
      refine ⟨fun hmem => hfresh ?_, h.distinct t (mem_of_getElem? ht)⟩
      rw [pages_eq ht, references_add]
      exact mem_add.mpr (.inl hmem)

theorem getElem?_fork {parent child : PageTable N} {j : ℕ}
    (h : (s.tables.set task parent ++ [child])[j]? = some t') :
    (j = task ∧ t' = parent) ∨ (j ≠ task ∧ s.tables[j]? = some t') ∨
      (j = s.tables.length ∧ t' = child) := by
  rw [getElem?_append] at h
  split_ifs at h with hlt
  · rcases getElem?_setTable (k := s.kernel) h with h | h
    · exact .inl h
    · exact .inr (.inl h)
  · have hj : j = s.tables.length := by
      have hlt' := (List.getElem?_eq_some_iff.mp h).1
      simp only [length_set, length_singleton] at hlt hlt'
      omega
    rw [hj, length_set, Nat.sub_self] at h
    exact .inr (.inr ⟨hj, (Option.some.inj h).symm⟩)

theorem CowInv.fork (h : CowInv s) (ht : s.tables[task]? = some t) {parent child : PageTable N}
    {k : Kernel} (hfork : Forked t s.kernel parent child k) :
    CowInv ⟨s.tables.set task parent ++ [child], k⟩ := by
  have hinv := h.tables.get ht
  have hpages' : (VmmState.mk (s.tables.set task parent ++ [child]) k).pages =
      (pageSet t.pages).map Page.share + s.otherPages task + (pageSet t.pages).map Page.share := by
    have hset := pages_setTable ht parent k
    rw [VmmState.pages, pagesOf_append, pagesOf_cons, pagesOf_nil, add_zero, hfork.childPages,
      ← hfork.parentPages, ← hset]
    rfl
  refine ⟨tablesInv_effect h.tables (Effect.fork ht hfork), ?_, ?_, ?_⟩
  · rw [hpages']
    have hsharing := h.sharing
    rw [pages_eq ht] at hsharing
    exact hsharing.fork hfork.used hfork.nextReference hfork.references
  · intro j t₁ w q ht₁ hw hcow
    rcases getElem?_fork ht₁ with ⟨-, rfl⟩ | ⟨hj, ht₁⟩ | ⟨-, rfl⟩
    · -- the entries of the parent are copy-on-write
      have hpresent := (hfork.parentInv.backs hw).present
      rw [(hfork.cow hinv (hfork.parentInv.keyed hw).2.2).1 hpresent] at hcow
      exact Bool.noConfusion hcow
    · have hone := h.exclusive ht₁ hw hcow
      have hpos := count_pos.mpr
        (mem_references (mem_otherPages hj ht₁ (mem_pageSet_of_entry hw)))
      rw [pages_eq ht, references_add, count_add] at hone
      rw [hpages', references_add, references_add, references_share, count_add,
        count_add]
      omega
    · -- and so are those of the child
      have hpresent := (hfork.childInv.backs hw).present
      rw [(hfork.cow hinv (hfork.childInv.keyed hw).2.2).2 hpresent] at hcow
      exact Bool.noConfusion hcow
  · intro t₁ ht₁
    have hshared : (references ((pageSet t.pages).map Page.share)).Nodup := by
      rw [references_share]
      exact h.distinct t (mem_of_getElem? ht)
    rcases mem_append.mp ht₁ with ht₁ | ht₁
    · rcases mem_or_eq_of_mem_set ht₁ with ht₁ | rfl
      · exact h.distinct t₁ ht₁
      · rw [hfork.parentPages]
        exact hshared
    · rw [List.mem_singleton.mp ht₁, hfork.childPages]
      exact hshared

theorem CowInv.originalFrame_eq (h : CowInv s) (ht : s.tables[task]? = some t)
    (hpage : (v, page) ∈ entries t.pages.slots) : originalFrame (t.leaves v) = page.paddr := by
  have haddress := ((h.tables.get ht).backs hpage).address
  have hlow := h.sharing.low page (mem_pages ht (mem_pageSet_of_entry hpage))
  rw [Pastoral.originalFrame_eq (haddress ▸ hlow), haddress]

theorem cowInv_effect (h : CowInv s) (heffect : Effect s op s') (hlow : op.LowFrame) :
    CowInv s' := by
  cases heffect with
  | mmap ht hm =>
    have hold := h.tables.get ht
    exact h.congr ht hold rfl fun _ => rfl
  | idle => exact h
  | anon ht huser hframe habsent hregion =>
    exact h.anonMapped ht hframe hlow habsent ⟨pageOf_pageOf _, huser.pageOf⟩ _
  | @takeOver task errorCode address frame t page ht hpage hcow halone =>
    have hpage' := mem_pages ht (mem_pageSet_of_entry hpage)
    rw [h.originalFrame_eq ht hpage]
    refine h.cowTable ht hpage ((h.tables.get ht).backs hpage).frame fun rest hrest => ?_
    have hsharing := h.sharing
    rw [hrest] at hsharing
    exact hsharing.drop.cons rfl (h.sharing.used page hpage') (h.sharing.low page hpage')
      (hsharing.alone halone)
  | @copy task errorCode address frame t page ht hframe hpage hcow hshared =>
    refine h.cowTable ht hpage hframe.2 fun rest hrest => ?_
    have hsharing := h.sharing
    rw [hrest] at hsharing
    have hcopied : Sharing (page ::ₘ rest) ((s.kernel.pmmAlloc frame).copyFrame frame
        (originalFrame (t.leaves (pageOf address)))) :=
      (hsharing.pmmAlloc frame).congr rfl rfl rfl
    refine hcopied.drop.cons rfl (mem_cons_self ..) hlow fun q hq heq => ?_
    have hsame : q.paddr = frame := heq
    exact hframe.1 (hsame ▸ hsharing.used q (mem_cons_of_mem hq))
  | @setRW task errorCode address frame t page ht hpage hcow =>
    refine h.congr ht (setRW_spec (h.tables.get ht) hpage hcow) rfl fun v => ?_
    rw [PageTable.setEntry, pageOf_pageOf]
    dsimp only
    by_cases hv : v = pageOf address
    · rw [hv, update_self, getLsbD_setRW, decide_eq_false (by decide), Bool.or_false]
    · rw [update_of_ne hv]
  | fork ht hfork => exact h.fork ht hfork
  | write => exact ⟨h.tables, ⟨h.sharing.exact, h.sharing.allocated, h.sharing.used, h.sharing.low,
      h.sharing.frames⟩, h.exclusive, h.distinct⟩

theorem CowInv.only_page (h : CowInv s) (ht : s.tables[task]? = some t)
    (hpage : (v, page) ∈ entries t.pages.slots) (hcow : (t.leaves v).getLsbD 9 = false) {j : ℕ}
    {w : BitVec 64} (ht' : s.tables[j]? = some t')
    (hq : (w, q) ∈ entries t'.pages.slots) (hframe : q.paddr = page.paddr) : j = task ∧ w = v := by
  have hone := h.exclusive ht hpage hcow
  have href := (h.sharing.frames q (mem_pages ht' (mem_pageSet_of_entry hq)) page
      (mem_pages ht (mem_pageSet_of_entry hpage))).mpr hframe
  obtain ⟨others, hothers⟩ := exists_cons_of_mem (mem_pageSet_of_entry hpage)
  -- a second page with the counter would count
  have hno : q ∉ others + s.otherPages task := by
    intro hmem
    rw [pages_eq ht, hothers, cons_add, references_cons, Multiset.count_cons_self] at hone
    have hpos := count_pos.mpr (href ▸ mem_references hmem)
    omega
  have hj : j = task := by
    by_contra hj
    exact hno (mem_add.mpr (.inr (mem_otherPages hj ht' (mem_pageSet_of_entry hq))))
  subst hj
  obtain rfl : t' = t := Option.some.inj (ht'.symm.trans ht)
  have hinv := h.tables.get ht
  have hmem := hothers ▸ mem_pageSet_of_entry hq
  rcases mem_cons.mp hmem with rfl | hmem
  · exact ⟨rfl, (hinv.keyed hq).1.symm.trans (hinv.keyed hpage).1⟩
  · exact absurd (mem_add.mpr (.inl hmem)) hno

end Invariant

/-! ## What the tasks read -/

section Reads

variable {s s' : VmmState N} {op : VmmOp} {task j : ℕ} {t t' : PageTable N} {a : BitVec 64}

theorem read_congr {j' : ℕ} (huser : UserAddress a) (hinv : TableInv t.leaves t.pages)
    (hinv' : TableInv t'.leaves t'.pages) (ht : s.tables[j]? = some t)
    (ht' : s'.tables[j']? = some t')
    (hpage : ∀ page, (pageOf a, page) ∈ entries t.pages.slots →
      ∃ page', (pageOf a, page') ∈ entries t'.pages.slots ∧
        s'.kernel.mem page'.paddr (pageOffset a) = s.kernel.mem page.paddr (pageOffset a))
    (habsent : pageOf a ∉ keys t.pages.slots → pageOf a ∉ keys t'.pages.slots) :
    s'.read j' a = s.read j a := by
  by_cases ha : pageOf a ∈ keys t.pages.slots
  · obtain ⟨page, hold⟩ := mem_keys_iff.mp ha
    obtain ⟨page', hnew, hmem⟩ := hpage page hold
    rw [read_page hinv ht hold, read_page hinv' ht' hnew, hmem]
  · rw [read_absent hinv huser ht ha, read_absent hinv' huser ht' (habsent ha)]

theorem read_same (huser : UserAddress a) (h : TablesInv s) (htable : s'.tables[j]? = s.tables[j]?)
    (hmem : ∀ page ∈ s.pages, s'.kernel.mem page.paddr = s.kernel.mem page.paddr) :
    s'.read j a = s.read j a := by
  cases ht : s.tables[j]? with
  | none =>
    rw [VmmState.read, VmmState.read, htable, ht]
    rfl
  | some t =>
    refine read_congr huser (h.get ht) (h.get ht) ht (htable.trans ht) (fun page hpage => ?_) id
    rw [← hmem page (mem_pages ht (mem_pageSet_of_entry hpage))]
    exact ⟨page, hpage, rfl⟩

theorem mem_fresh {frame : BitVec 64} (h : CowInv s) (hframe : FreshFrame s frame)
    (contents : ℕ → BitVec 8) :
    ∀ page ∈ s.pages, update s.kernel.mem frame contents page.paddr = s.kernel.mem page.paddr := by
  intro page hpage
  refine update_of_ne ?_ ..
  rintro heq
  exact hframe.1 (heq ▸ h.sharing.used page hpage)

/-- What the history says, against what a task reads: the value, or for a byte that no one wrote
nothing or the zero of a fresh frame. -/
def ReadsAs (expected found : Option (BitVec 8)) : Prop :=
  match expected with
  | some value => found = some value
  | none => found = none ∨ found = some 0#8

def afterEvent (values : ℕ → BitVec 64 → Option (BitVec 8)) (e : Event (VmmState N) VmmOp) :
    ℕ → BitVec 64 → Option (BitVec 8) :=
  match e.act with
  | .write task address value =>
    update values task (update (values task) address (some value))
  | .fork task => update values e.pre.tables.length (values task)
  | _ => values

def lastValue (tr : List (Event (VmmState N) VmmOp)) : ℕ → BitVec 64 → Option (BitVec 8) :=
  tr.foldl afterEvent fun _ _ => none

def ReadsHistory (values : ℕ → BitVec 64 → Option (BitVec 8)) (s : VmmState N) : Prop :=
  ∀ j a, UserAddress a → ReadsAs (values j a) (s.read j a)

variable {values : ℕ → BitVec 64 → Option (BitVec 8)}

theorem readsHistory_anon {v frame : BitVec 64}
    {root : Region} (h : CowInv s) (hreads : ReadsHistory values s)
    (ht : s.tables[task]? = some t) (hframe : FreshFrame s frame) (hv : v ∉ keys t.pages.slots)
    (haligned : pageOf v = v ∧ UserAddress v) :
    ReadsHistory values (s.setTable task (anonMapped frame t s.kernel v root).1
      (anonMapped frame t s.kernel v root).2) := by
  have hinv := h.tables.get ht
  have hinv' := (hinv.insert hv rfl haligned
    (backs_anon hframe.2 root.prot v s.kernel.nextReference)).1
  have hentries := (hashTablePush_fresh (d := anonPage root.prot v frame
    s.kernel.nextReference) hinv.good hv).2
  have ht' := getElem?_setTable_self ht (anonMapped frame t s.kernel v root).1
    (anonMapped frame t s.kernel v root).2
  have hmem := mem_fresh h hframe fun _ => 0#8
  intro j a huser
  by_cases hj : j = task
  · subst hj
    by_cases ha : pageOf a = v
    · -- the new page
      subst ha
      have hold := read_absent hinv huser ht hv
      have hnew : (s.setTable j (anonMapped frame t s.kernel (pageOf a) root).1
          (anonMapped frame t s.kernel (pageOf a) root).2).read j a = some 0#8 := by
        have hpage := hentries.mem_iff.mpr (mem_cons_self ..)
        have hzero : (anonMapped frame t s.kernel (pageOf a) root).2.mem frame = fun _ => 0#8 :=
          update_self ..
        exact (read_page hinv' ht' hpage).trans (congrArg some (congrFun hzero _))
      have hexpected := hreads j a huser
      rw [hold] at hexpected
      rw [hnew]
      cases hvalue : values j a with
      | none => exact .inr rfl
      | some value =>
        rw [hvalue] at hexpected
        exact absurd hexpected (by simp [ReadsAs])
    · -- another page of the task
      have hsame : (s.setTable j (anonMapped frame t s.kernel v root).1
          (anonMapped frame t s.kernel v root).2).read j a = s.read j a := by
        refine read_congr huser hinv hinv' ht ht' (fun page hpage => ⟨page, ?_, ?_⟩)
          fun habsent => ?_
        · exact hentries.mem_iff.mpr (mem_cons_of_mem _ hpage)
        · exact congrFun (hmem page (mem_pages ht (mem_pageSet_of_entry hpage))) _
        · exact fun hk => habsent (((mem_keys_hashTablePush hinv.good hv).mp hk).resolve_left ha)
      rw [hsame]
      exact hreads j a huser
  · have hsame : (s.setTable task (anonMapped frame t s.kernel v root).1
        (anonMapped frame t s.kernel v root).2).read j a = s.read j a :=
      read_same huser h.tables (getElem?_setTable_of_ne hj _) hmem
    rw [hsame]
    exact hreads j a huser

theorem read_cowTable {v newFrame : BitVec 64} {page : Page N} {reference : ℕ} {k : Kernel}
    (huser : UserAddress a) (h : CowInv s) (ht : s.tables[task]? = some t)
    (hpage : (v, page) ∈ entries t.pages.slots)
    (hframe : PhysFrame newFrame) (hnew : k.mem newFrame = s.kernel.mem page.paddr)
    (hmem : ∀ page ∈ s.pages, k.mem page.paddr = s.kernel.mem page.paddr) :
    (s.setTable task (cowTable t v page newFrame reference) k).read j a = s.read j a := by
  have hinv := h.tables.get ht
  have hinv' := (cowTable_spec hinv hpage hframe reference).1
  have hentry : ∀ {w q}, (w, q) ∈ entries (cowTable t v page newFrame reference).pages.slots ↔
      (w = v ∧ q = page.move newFrame reference) ∨ (w ≠ v ∧ (w, q) ∈ entries t.pages.slots) :=
    mem_entries_hashTableStore hinv.good hpage
  by_cases hj : j = task
  · subst hj
    refine read_congr huser hinv hinv' ht (getElem?_setTable_self ht _ k) (fun q hq => ?_) ?_
    · by_cases ha : pageOf a = v
      · -- the page of the fault, in its new frame
        obtain rfl : q = page := hinv.good.entry_unique (ha ▸ hq) hpage
        exact ⟨q.move newFrame reference, hentry.mpr (.inl ⟨ha, rfl⟩), congrFun hnew _⟩
      · exact ⟨q, hentry.mpr (.inr ⟨ha, hq⟩),
          congrFun (hmem q (mem_pages ht (mem_pageSet_of_entry hq))) _⟩
    · intro habsent hk
      obtain ⟨q, hq⟩ := mem_keys_iff.mp hk
      rcases hentry.mp hq with ⟨ha, -⟩ | ⟨-, hq⟩
      · exact habsent (ha ▸ mem_keys_iff.mpr ⟨page, hpage⟩)
      · exact habsent (mem_keys_iff.mpr ⟨q, hq⟩)
  · exact read_same huser h.tables (getElem?_setTable_of_ne hj k) hmem

theorem read_setTable_same (huser : UserAddress a) (h : TablesInv s) (ht : s.tables[task]? = some t)
    (htable : TableInv t'.leaves t'.pages) (hpages : t'.pages = t.pages) :
    (s.setTable task t' s.kernel).read j a = s.read j a := by
  by_cases hj : j = task
  · subst hj
    refine read_congr huser (h.get ht) htable ht (getElem?_setTable_self ht t' s.kernel) ?_ ?_
    · exact fun page hpage => ⟨page, hpages ▸ hpage, rfl⟩
    · exact fun habsent => hpages ▸ habsent
  · exact read_same huser h (getElem?_setTable_of_ne hj s.kernel) fun _ _ => rfl

theorem read_fork {parent child : PageTable N} {k : Kernel} (huser : UserAddress a) (h : CowInv s)
    (ht : s.tables[task]? = some t) (hfork : Forked t s.kernel parent child k) :
    (VmmState.mk (s.tables.set task parent ++ [child]) k).read j a =
      if j = s.tables.length then s.read task a else s.read j a := by
  have hinv := h.tables.get ht
  have hlt := (List.getElem?_eq_some_iff.mp ht).1
  -- the shared pages are in both tables, with their frames
  have hshared : ∀ {t'}, TableInv t'.leaves t'.pages →
      pageSet t'.pages = (pageSet t.pages).map Page.share →
      (∀ v, UserAddress v → v ∉ keys t.pages.slots → t'.leaves v = 0#64) → ∀ {j'},
      (s.tables.set task parent ++ [child])[j']? = some t' →
      (VmmState.mk (s.tables.set task parent ++ [child]) k).read j' a = s.read task a := by
    intro t' hinv' hpages habsent j' ht'
    refine read_congr huser hinv hinv' ht ht' (fun page hpage => ⟨page.share, ?_, ?_⟩)
      fun ha hk => ?_
    · have hmem := hpages ▸ mem_map_of_mem _ (mem_pageSet_of_entry hpage)
      have hentry := hinv'.mem_pageSet.mp hmem
      have hvaddr : page.share.vaddr = pageOf a := (hinv.keyed hpage).1
      rwa [hvaddr] at hentry
    · exact congrFun (congrFun hfork.mem page.paddr) _
    · obtain ⟨page, hpage⟩ := mem_keys_iff.mp hk
      have hpresent := (hinv'.backs hpage).present
      rw [habsent _ huser.pageOf ha] at hpresent
      simp at hpresent
  by_cases hj : j = s.tables.length
  · rw [if_pos hj]
    refine hshared hfork.childInv hfork.childPages (fun v hv hk => (hfork.absent hv hk).2) ?_
    rw [hj]
    simp
  · rw [if_neg hj]
    by_cases htask : j = task
    · subst htask
      refine hshared hfork.parentInv hfork.parentPages (fun v hv hk => (hfork.absent hv hk).1) ?_
      rw [getElem?_append_left (by simpa using hlt), getElem?_set_self hlt]
    · refine read_same huser h.tables ?_ fun page _ => congrFun hfork.mem page.paddr
      by_cases hlt' : j < s.tables.length
      · rw [getElem?_append_left (by simpa using hlt'), getElem?_set_ne (Ne.symm htask)]
      · rw [getElem?_eq_none (by simp; omega), getElem?_eq_none (by omega)]

theorem read_write {address : BitVec 64} {page : Page N} (huser : UserAddress a) (h : CowInv s)
    (ht : s.tables[task]? = some t) (hpage : (pageOf address, page) ∈ entries t.pages.slots)
    (hwritable : (t.leaves (pageOf address)).getLsbD 1 = true) (value : BitVec 8) :
    (VmmState.mk s.tables (s.kernel.writeByte (t.leaves (pageOf address)) address value)).read j a =
      if j = task ∧ a = address then some value else s.read j a := by
  have hinv := h.tables.get ht
  have hbacks := hinv.backs hpage
  have hcow : (t.leaves (pageOf address)).getLsbD 9 = false := by
    by_contra hcow
    rw [hbacks.cow (Bool.not_eq_false _ ▸ hcow)] at hwritable
    exact Bool.noConfusion hwritable
  have hmem : (s.kernel.writeByte (t.leaves (pageOf address)) address value).mem =
      update s.kernel.mem page.paddr
        (update (s.kernel.mem page.paddr) (pageOffset address) value) := by
    rw [Kernel.writeByte, entryFrame_eq hbacks.frame hbacks.address]
  split_ifs with hhit
  · obtain ⟨rfl, rfl⟩ := hhit
    have ht' : (VmmState.mk s.tables
        (s.kernel.writeByte (t.leaves (pageOf a)) a value)).tables[j]? = some t := ht
    rw [read_page hinv ht' hpage, hmem, update_self, update_self]
  · cases ht' : s.tables[j]? with
    | none =>
      rw [VmmState.read, VmmState.read, ht']
      rfl
    | some t' =>
      refine read_congr huser (h.tables.get ht') (h.tables.get ht') ht' ht'
        (fun q hq => ⟨q, hq, ?_⟩) id
      rw [hmem]
      by_cases hframe : q.paddr = page.paddr
      · -- the same frame is the same page, so the offset is another
        obtain ⟨rfl, ha⟩ := h.only_page ht hpage hcow ht' hq hframe
        have hoffset : pageOffset a ≠ pageOffset address := fun heq =>
          hhit ⟨rfl, eq_of_pageOf_eq ha heq⟩
        rw [hframe, update_self, update_of_ne hoffset]
      · rw [update_of_ne hframe]

theorem ReadsHistory.congr
    (hreads : ReadsHistory values s)
    (hsame : ∀ j a, UserAddress a → s'.read j a = s.read j a) : ReadsHistory values s' :=
  fun j a huser => hsame j a huser ▸ hreads j a huser

theorem readsHistory_effect (h : CowInv s)
    (hreads : ReadsHistory values s) (heffect : Effect s op s') :
    ReadsHistory (afterEvent values ⟨s, op, s'⟩) s' := by
  cases heffect with
  | mmap ht hm =>
    have hold := h.tables.get ht
    exact hreads.congr fun _ _ huser => read_setTable_same huser h.tables ht hold rfl
  | idle => exact hreads
  | anon ht huser hframe habsent hregion =>
    exact readsHistory_anon h hreads ht hframe habsent ⟨pageOf_pageOf _, huser.pageOf⟩
  | takeOver ht hpage hcow halone =>
    rw [h.originalFrame_eq ht hpage]
    exact hreads.congr fun _ _ huser => read_cowTable huser h ht hpage
      ((h.tables.get ht).backs hpage).frame rfl fun _ _ => rfl
  | @copy task errorCode address frame t page ht hframe hpage hcow hshared =>
    -- the copy is made after the fresh frame was zeroed
    refine hreads.congr fun _ _ huser => read_cowTable huser h ht hpage hframe.2 ?_ fun q hq => ?_
    · rw [h.originalFrame_eq ht hpage]
      refine (update_self ..).trans ?_
      exact mem_fresh h hframe _ _ (mem_pages ht (mem_pageSet_of_entry hpage))
    · have hne : q.paddr ≠ frame := fun heq => hframe.1 (heq ▸ h.sharing.used q hq)
      exact (update_of_ne hne ..).trans (mem_fresh h hframe _ q hq)
  | setRW ht hpage hcow =>
    exact hreads.congr fun _ _ huser =>
      read_setTable_same huser h.tables ht (setRW_spec (h.tables.get ht) hpage hcow) rfl
  | @fork task t parent child k ht hfork =>
    intro j a huser
    rw [read_fork huser h ht hfork]
    show ReadsAs (update values s.tables.length (values task) j a) _
    by_cases hj : j = s.tables.length
    · rw [if_pos hj, hj, update_self]
      exact hreads task a huser
    · rw [if_neg hj, update_of_ne hj]
      exact hreads j a huser
  | @write task address value t page ht hpage hwritable =>
    intro j a huser
    have hread := read_write (j := j) huser h ht hpage hwritable value
    show ReadsAs (update values task (update (values task) address (some value)) j a) _
    rw [hread]
    by_cases hj : j = task
    · subst hj
      rw [update_self]
      by_cases ha : a = address
      · rw [if_pos ⟨rfl, ha⟩, ha, update_self]
        rfl
      · rw [if_neg fun hhit => ha hhit.2, update_of_ne ha]
        exact hreads j a huser
    · rw [if_neg fun hhit => hj hhit.1, update_of_ne hj]
      exact hreads j a huser

end Reads

/-! ## Isolation -/

section Isolation

variable {s₀ s : VmmState N} {tr : List (Event (VmmState N) VmmOp)}
  {assetRead : AssetRead N}

theorem cowInv_fresh (h : FreshSpaces s) : CowInv s := by
  have hpages : s.pages = 0 := by
    refine eq_zero_of_forall_notMem fun page hpage => ?_
    obtain ⟨t, ht, hmem⟩ := mem_pagesOf.mp hpage
    rw [(h t ht).2] at hmem
    exact notMem_zero _ hmem
  refine ⟨tablesInv_fresh h, ?_, fun ht hpage _ => ?_, fun t ht => ?_⟩
  · rw [hpages]
    exact ⟨RefCount.Exact.nil _, fun _ h => absurd h (notMem_zero _),
      fun _ h => absurd h (notMem_zero _), fun _ h => absurd h (notMem_zero _),
      fun _ h => absurd h (notMem_zero _)⟩
  · rw [(h _ (mem_of_getElem? ht)).2] at hpage
    exact absurd hpage not_mem_nil
  · rw [(h t ht).2]
    exact nodup_zero

theorem readsHistory_fresh (h : FreshSpaces s) : ReadsHistory (fun _ _ => none) s := by
  intro j a huser
  refine .inl ?_
  cases ht : s.tables[j]? with
  | none =>
    rw [VmmState.read, ht]
    rfl
  | some t =>
    rw [VmmState.read, ht, Option.bind_some, (h t (mem_of_getElem? ht)).1,
      s.kernel.maps.upper _ huser.pageOf]
    exact if_neg (by simp)

theorem cowInv_run (h₀ : FreshSpaces s₀) (run : Run (vmmStep assetRead) s₀ tr s)
    (hlow : ∀ e ∈ tr, e.act.LowFrame) : CowInv s ∧ ReadsHistory (lastValue tr) s := by
  refine run.guarded (I := fun tr s => CowInv s ∧ ReadsHistory (lastValue tr) s)
    (Q := fun e => e.act.LowFrame) ⟨cowInv_fresh h₀, readsHistory_fresh h₀⟩ ?_ hlow
  rintro tr s op s' ⟨hinv, hreads⟩ hstep hframe
  have heffect := effect_of_step hinv.tables hstep
  refine ⟨cowInv_effect hinv heffect hframe, ?_⟩
  rw [lastValue, foldl_append]
  exact readsHistory_effect hinv hreads heffect

/-- **Copy-on-write isolation**: in every state that anonymous faults, forks, faults on present
pages and writes in the lower half of any number of tasks reach, with frames below `2 ^ 40`,
a writable entry of a page that is not shared leads to a frame no other table maps in the lower
half, every counter is the number of pages that hold it, and every task reads at every address of
the lower half what it wrote last, or what it had from its ancestor at the fork. -/
theorem cow_isolation (h₀ : FreshSpaces s₀) (run : Run (vmmStep assetRead) s₀ tr s)
    (hlow : ∀ e ∈ tr, e.act.LowFrame) :
    (∀ (i j : ℕ) (t t' : PageTable N) (v w : BitVec 64), i ≠ j → s.tables[i]? = some t →
      s.tables[j]? = some t' → v ∈ keys t.pages.slots → t.leaves v &&& vmmShareFlag = 0#64 →
      t.leaves v &&& vmmFlagsRW ≠ 0#64 → UserAddress w → t'.leaves w &&& vmmFlagsP ≠ 0#64 →
        entryFrame (t'.leaves w) ≠ entryFrame (t.leaves v)) ∧
      (∀ page ∈ s.pages,
        s.kernel.references page.reference = (references s.pages).count page.reference) ∧
      ∀ j a, UserAddress a → ReadsAs (lastValue tr j a) (s.read j a) := by
  obtain ⟨hinv, hreads⟩ := cowInv_run h₀ run hlow
  refine ⟨?_, fun page hpage => hinv.sharing.exact _ (mem_references hpage), hreads⟩
  intro i j t t' v w hij ht ht' hv _ hrw huser hp hframe
  obtain ⟨page, hpage⟩ := mem_keys_iff.mp hv
  rw [Ne, and_twoPow_eq_zero_iff _ (by decide), Bool.not_eq_false] at hrw hp
  obtain ⟨q, hq⟩ := (hinv.tables.get ht').exists_page huser hp
  have hbacks := (hinv.tables.get ht).backs hpage
  have hbacks' := (hinv.tables.get ht').backs hq
  have hcow : (t.leaves v).getLsbD 9 = false := by
    by_contra hcow
    rw [hbacks.cow (Bool.not_eq_false _ ▸ hcow)] at hrw
    exact Bool.noConfusion hrw
  rw [entryFrame_eq hbacks.frame hbacks.address,
    entryFrame_eq hbacks'.frame hbacks'.address] at hframe
  exact hij (hinv.only_page ht hpage hcow ht' hq hframe).1.symm

def oneTask : VmmState Unit where
  tables := [{ (vmmDefaultTable smallBoot.maps : PageTable Unit) with
    mmapRegionRoot := .node ⟨0x10000, 0x4000, 0xb#32, 0x9#32, -1, 0⟩ .nil .nil }]
  kernel := ⟨fun _ _ => 0#8, [], fun _ => 0, 0, smallBoot.maps⟩

theorem freshSpaces_oneTask : FreshSpaces oneTask := by
  intro t ht
  rw [oneTask, List.mem_singleton] at ht
  exact ht ▸ ⟨rfl, rfl⟩

/-- An address of the first task, in the upper half, for the frame of the copy of the second. -/
def copyInUpperHalf : BitVec 64 := highVma + 0x3000#64

/-- The second task is forked and writes to its copy of the page. -/
theorem forkedWrite_steps : ∃ s₁ s₂ s₃ s₄ s₅ : VmmState Unit,
    vmmStep (fun _ _ _ => none) oneTask (.fault 0 0x4#64 0x10000#64 0x2000#64) s₁ ∧
      vmmStep (fun _ _ _ => none) s₁ (.write 0 0x10000#64 7#8) s₂ ∧
      vmmStep (fun _ _ _ => none) s₂ (.fork 0) s₃ ∧
      vmmStep (fun _ _ _ => none) s₃ (.fault 1 0x7#64 0x10000#64 0x3000#64) s₄ ∧
      vmmStep (fun _ _ _ => none) s₄ (.write 1 0x10000#64 9#8) s₅ ∧ s₂.tables.length = 1 ∧
      (∃ t ∈ s₅.tables[1]?, ∃ t' ∈ s₅.tables[0]?, 0x10000#64 ∈ Probe.keys t.pages.slots ∧
        t.leaves 0x10000#64 &&& vmmShareFlag = 0#64 ∧ t.leaves 0x10000#64 &&& vmmFlagsRW ≠ 0#64 ∧
        t'.leaves copyInUpperHalf &&& vmmFlagsP ≠ 0#64 ∧
        entryFrame (t'.leaves copyInUpperHalf) = entryFrame (t.leaves 0x10000#64)) ∧
      s₅.read 0 copyInUpperHalf = some 9#8 := by
  refine ⟨_, _, _, _, _, ⟨_, rfl, ?_, ⟨?_, ?_⟩, ?_, rfl⟩, ⟨_, rfl, ?_, ?_, ?_, rfl⟩,
    ⟨_, rfl, rfl⟩, ⟨_, rfl, ?_, ⟨?_, ?_⟩, ?_, rfl⟩, ⟨_, rfl, ?_, ?_, ?_, rfl⟩, rfl,
    ⟨_, rfl, _, rfl, ?_⟩, ?_⟩ <;> decide +kernel

theorem cow_isolation_forked_write :
    ∃ (tr : List (Event (VmmState Unit) VmmOp)) (s : VmmState Unit),
      Run (vmmStep fun _ _ _ => none) oneTask tr s ∧ tr.length = 5 ∧
        s.read 0 0x10000#64 = some 7#8 ∧ s.read 1 0x10000#64 = some 9#8 := by
  obtain ⟨s₁, s₂, s₃, s₄, s₅, h₁, h₂, h₃, h₄, h₅, hlength, -, -⟩ := forkedWrite_steps
  have run := ((((Run.nil.snoc h₁).snoc h₂).snoc h₃).snoc h₄).snoc h₅
  obtain ⟨-, -, hreads⟩ := cow_isolation freshSpaces_oneTask run (by simp [VmmOp.LowFrame])
  refine ⟨_, _, run, rfl, ?_, ?_⟩
  · simpa [lastValue, afterEvent, hlength, update, ReadsAs] using hreads 0 0x10000#64 (by decide)
  · simpa [lastValue, afterEvent, hlength, update, ReadsAs] using hreads 1 0x10000#64 (by decide)

/-- **All memory is mapped in the upper half of every table**: the first task reads there what the
second has written to the page that is its own. -/
theorem copy_mapped_in_upper_half :
    ∃ (tr : List (Event (VmmState Unit) VmmOp)) (s : VmmState Unit),
      Run (vmmStep fun _ _ _ => none) oneTask tr s ∧ (∀ e ∈ tr, e.act.LowFrame) ∧
      (∃ t ∈ s.tables[1]?, ∃ t' ∈ s.tables[0]?, 0x10000#64 ∈ Probe.keys t.pages.slots ∧
        t.leaves 0x10000#64 &&& vmmShareFlag = 0#64 ∧ t.leaves 0x10000#64 &&& vmmFlagsRW ≠ 0#64 ∧
        t'.leaves copyInUpperHalf &&& vmmFlagsP ≠ 0#64 ∧
        entryFrame (t'.leaves copyInUpperHalf) = entryFrame (t.leaves 0x10000#64)) ∧
      ¬ ReadsAs (lastValue tr 0 copyInUpperHalf) (s.read 0 copyInUpperHalf) := by
  obtain ⟨s₁, s₂, s₃, s₄, s₅, h₁, h₂, h₃, h₄, h₅, hlength, hmapped, hread⟩ := forkedWrite_steps
  refine ⟨_, s₅, ((((Run.nil.snoc h₁).snoc h₂).snoc h₃).snoc h₄).snoc h₅,
    by simp [VmmOp.LowFrame], hmapped, ?_⟩
  rw [hread]
  simp [lastValue, afterEvent, hlength, update, ReadsAs, copyInUpperHalf, highVma]

end Isolation

end Pastoral
