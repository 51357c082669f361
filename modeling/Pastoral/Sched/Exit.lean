import Pastoral.Mm.CopyOnWrite

/-!
# The frames of an exiting task

`syscall_exit` walks over the pages of the task.

## Main results

* `frames_live_iff`: an exit frees frames in use unless there are no pages
-/

open List Multiset Probe Transition

namespace Pastoral

variable {N : Type}

def Kernel.pmmFree (k : Kernel) (frame : BitVec 64) : Kernel :=
  { k with used := k.used.filter (· ≠ frame) }

structure Exiting (N : Type) where
  pages : HashTable (BitVec 64) (Page N)
  kernel : Kernel
  freed : List (BitVec 64)

def exitPage (x : Exiting N) (page : Page N) : Exiting N :=
  let pages := hashTableDelete addressHash x.pages page.vaddr
  if x.kernel.references page.reference ≤ 1 then
    { x with pages := pages, kernel := x.kernel.addReference page.reference (-1) }
  else ⟨pages, x.kernel.pmmFree page.paddr, x.freed ++ [page.paddr]⟩

def exitSlot (x : Exiting N) (i : ℕ) : Exiting N :=
  match x.pages.slots[i]? with
  | some (some (_, page)) => exitPage x page
  | _ => x

def exitSlots (t : PageTable N) (k : Kernel) (n : ℕ) : Exiting N :=
  (List.range n).foldl exitSlot ⟨t.pages, k, []⟩

def syscallExitPages (t : PageTable N) (k : Kernel) : Exiting N :=
  exitSlots t k t.pages.capacity

/-! ## What the loop frees -/

section Loop

variable {t : PageTable N} {k : Kernel} {n : ℕ}

theorem exitSlots_succ (t : PageTable N) (k : Kernel) (n : ℕ) :
    exitSlots t k (n + 1) = exitSlot (exitSlots t k n) n := by
  rw [exitSlots, List.range_succ, foldl_append]
  rfl

def sharedFrames (k : Kernel) (l : List (BitVec 64 × Page N)) : List (BitVec 64) :=
  (l.filter fun e => 1 < k.references e.2.reference).map fun e => e.2.paddr

structure SlotsDone (t : PageTable N) (k : Kernel) (n : ℕ) (x : Exiting N) : Prop where
  length : x.pages.slots.length = t.pages.slots.length
  done : ∀ i < n, ∀ e, x.pages.slots[i]? ≠ some (some e)
  todo : ∀ i, n ≤ i → x.pages.slots[i]? = t.pages.slots[i]?
  freed : x.freed = sharedFrames k (entries (t.pages.slots.take n))
  references : ∀ r, (∀ e ∈ entries (t.pages.slots.take n), e.2.reference ≠ r) →
    x.kernel.references r = k.references r

theorem SlotsDone.good {x : Exiting N} (h : SlotsDone t k n x) (hgood : t.pages.Good addressHash) :
    x.pages.Good addressHash := by
  have hslot : ∀ {i : ℕ} {e : BitVec 64 × Page N}, x.pages.slots[i]? = some (some e) →
      t.pages.slots[i]? = some (some e) := by
    intro i e hi
    rcases lt_or_ge i n with hlt | hge
    · exact absurd hi (h.done i hlt e)
    · rw [← h.todo i hge, hi]
  have hcapacity : x.pages.capacity = t.pages.capacity := h.length
  constructor
  · intro i v page hi
    rw [hcapacity]
    exact hgood.placed (hslot hi)
  · intro i j v page page' hi hj
    exact hgood.unique (hslot hi) (hslot hj)

theorem entries_take_succ {K D : Type} (l : Slots K D) (n : ℕ) :
    entries (l.take (n + 1)) = entries (l.take n) ++ (l[n]?.join).toList := by
  rw [take_add_one, entries, filterMap_append]
  cases l[n]? with
  | none => rfl
  | some o => cases o <;> rfl

theorem SlotsDone.empty {x : Exiting N} (h : SlotsDone t k n x)
    (hn : t.pages.slots[n]?.join = none) : SlotsDone t k (n + 1) (exitSlot x n) := by
  have hentries : entries (t.pages.slots.take (n + 1)) = entries (t.pages.slots.take n) := by
    rw [entries_take_succ, hn]
    exact append_nil _
  have hslot : ∀ e, x.pages.slots[n]? ≠ some (some e) := by
    intro e he
    rw [h.todo n (le_refl n)] at he
    rw [he] at hn
    simp at hn
  have hx : exitSlot x n = x := by
    unfold exitSlot
    split
    · next hpage => exact absurd hpage (hslot _)
    · rfl
  rw [hx]
  refine ⟨h.length, fun i hi => ?_, fun i hi => h.todo i (by omega), ?_, ?_⟩
  · rcases Nat.lt_succ_iff_lt_or_eq.mp hi with hlt | rfl
    · exact h.done i hlt
    · exact hslot
  · rw [hentries]
    exact h.freed
  · rw [hentries]
    exact h.references

theorem SlotsDone.page {x : Exiting N} {v : BitVec 64} {page : Page N} (h : SlotsDone t k n x)
    (hgood : t.pages.Good addressHash) (hn : t.pages.slots[n]? = some (some (v, page)))
    (hv : page.vaddr = v)
    (hfresh : ∀ e ∈ entries (t.pages.slots.take n), e.2.reference ≠ page.reference) :
    SlotsDone t k (n + 1) (exitSlot x n) := by
  have hslot : x.pages.slots[n]? = some (some (v, page)) := by
    rw [h.todo n (le_refl n), hn]
  have hentries : entries (t.pages.slots.take (n + 1)) =
      entries (t.pages.slots.take n) ++ [(v, page)] := by
    rw [entries_take_succ, hn]
    rfl
  have hpages : hashTableDelete addressHash x.pages page.vaddr = ⟨x.pages.slots.set n none⟩ := by
    rw [hv]
    exact hashTableDelete_slot (h.good hgood) hslot
  have hcount := h.references page.reference hfresh
  have hx : exitSlot x n = exitPage x page := by
    rw [exitSlot, hslot]
  have hdone : (exitPage x page).pages = ⟨x.pages.slots.set n none⟩ := by
    rw [← hpages, exitPage]
    split_ifs <;> rfl
  rw [hx]
  refine ⟨?_, fun i hi e => ?_, fun i hi => ?_, ?_, fun r hr => ?_⟩
  · rw [hdone, length_set]
    exact h.length
  · rw [hdone]
    rcases Nat.lt_succ_iff_lt_or_eq.mp hi with hlt | rfl
    · rw [getElem?_set_ne (by omega)]
      exact h.done i hlt e
    · rw [getElem?_set_self (List.getElem?_eq_some_iff.mp hslot).1]
      simp
  · rw [hdone, getElem?_set_ne (by omega)]
    exact h.todo i (by omega)
  · -- the counter is still the one from before the loop
    rw [hentries, exitPage, sharedFrames, filter_append, map_append, hcount]
    by_cases hone : k.references page.reference ≤ 1
    · rw [if_pos hone, List.filter_cons_of_neg (by simpa using hone)]
      exact h.freed.trans (append_nil _).symm
    · rw [if_neg hone, List.filter_cons_of_pos (by simpa using hone)]
      exact congrArg (· ++ [page.paddr]) h.freed
  · rw [hentries] at hr
    have hne := Ne.symm (hr (v, page) (by simp))
    rw [exitPage, ← h.references r fun e he => hr e (mem_append_left _ he)]
    split_ifs
    · exact Function.update_of_ne hne ..
    · rfl

theorem reference_fresh {v : BitVec 64} {page : Page N}
    (hdistinct : (references (pageSet t.pages)).Nodup)
    (hn : t.pages.slots[n]? = some (some (v, page))) :
    ∀ e ∈ entries (t.pages.slots.take n), e.2.reference ≠ page.reference := by
  have hlist : ((entries t.pages.slots).map fun e => e.2.reference).Nodup := by
    rw [references, pageSet, map_coe, List.map_map] at hdistinct
    exact hdistinct
  have hsplit : entries t.pages.slots = entries (t.pages.slots.take n) ++ [(v, page)] ++
      entries (t.pages.slots.drop (n + 1)) := by
    have htake : [(v, page)] = (t.pages.slots[n]?.join).toList := by
      rw [hn]
      rfl
    rw [htake, ← entries_take_succ, entries, entries, entries, ← filterMap_append,
      take_append_drop]
  rw [hsplit, map_append, map_append, nodup_append, nodup_append] at hlist
  intro e he
  exact hlist.1.2.2 _ (mem_map_of_mem he) _ (List.mem_singleton.mpr rfl)

theorem slotsDone_exitSlots (hinv : TableInv t.leaves t.pages)
    (hdistinct : (references (pageSet t.pages)).Nodup) (n : ℕ) :
    SlotsDone t k n (exitSlots t k n) := by
  induction n with
  | zero => exact ⟨rfl, fun i hi => absurd hi (Nat.not_lt_zero i), fun _ _ => rfl, rfl, fun _ _ => rfl⟩
  | succ n ih =>
    rw [exitSlots_succ]
    cases hn : t.pages.slots[n]?.join with
    | none => exact ih.empty hn
    | some e =>
      obtain ⟨v, page⟩ := e
      have hslot := Option.join_eq_some_iff.mp hn
      refine ih.page hinv.good hslot (hinv.keyed (mem_entries_iff.mpr ⟨n, hslot⟩)).1 ?_
      exact reference_fresh hdistinct hslot

theorem mem_freed_iff (hinv : TableInv t.leaves t.pages)
    (hdistinct : (references (pageSet t.pages)).Nodup) {frame : BitVec 64} :
    frame ∈ (syscallExitPages t k).freed ↔
      ∃ page ∈ pageSet t.pages, 1 < k.references page.reference ∧ page.paddr = frame := by
  have hdone := slotsDone_exitSlots (k := k) hinv hdistinct t.pages.capacity
  rw [syscallExitPages, hdone.freed, HashTable.capacity, take_length, sharedFrames]
  simp only [List.mem_map, mem_filter, decide_eq_true_eq, pageSet, mem_coe]
  constructor
  · rintro ⟨e, ⟨he, hcount⟩, hframe⟩
    exact ⟨e.2, ⟨e, he, rfl⟩, hcount, hframe⟩
  · rintro ⟨page, ⟨e, he, rfl⟩, hcount, hframe⟩
    exact ⟨e, ⟨he, hcount⟩, hframe⟩

theorem syscallExitPages_of_empty (h : entries t.pages.slots = []) :
    syscallExitPages t k = ⟨t.pages, k, []⟩ := by
  have hloop : ∀ n, exitSlots t k n = ⟨t.pages, k, []⟩ := by
    intro n
    induction n with
    | zero => rfl
    | succ n ih =>
      rw [exitSlots_succ, ih, exitSlot]
      split
      · next hpage =>
        have hmem := mem_entries_iff.mpr ⟨n, hpage⟩
        rw [h] at hmem
        exact absurd hmem not_mem_nil
      · rfl
  exact hloop _

end Loop

/-! ## Exits along runs -/

section Exits

variable {s s' : VmmState N} {task : ℕ} {t : PageTable N} {page : Page N}

inductive TaskOp
  | vmm (op : VmmOp)
  | exit (task : ℕ)

/-- The frame of a fault is below `2 ^ 40`. -/
def TaskOp.LowFrame : TaskOp → Prop
  | .vmm op => op.LowFrame
  | .exit _ => True

/-- One step of the tasks. -/
def taskStep (assetRead : AssetRead N) (s : VmmState N) :
    TaskOp → VmmState N → Prop
  | .vmm op, s' => vmmStep assetRead s op s'
  | .exit task, s' =>
    ∃ t, s.tables[task]? = some t ∧
      s' = ⟨s.tables.eraseIdx task, (syscallExitPages t s.kernel).kernel⟩

def ExitSound (s : VmmState N) (task : ℕ) (t : PageTable N) : Prop :=
  (∀ frame ∈ (syscallExitPages t s.kernel).freed, ∀ page ∈ s.otherPages task,
      page.paddr ≠ frame) ∧
    ∀ page ∈ pageSet t.pages, s.pages.countP (fun q => q.paddr = page.paddr) = 1 →
      page.paddr ∈ (syscallExitPages t s.kernel).freed

/-- Every exit of the run is sound. -/
def FreesSoundly (e : Event (VmmState N) TaskOp) : Prop :=
  match e.act with
  | .vmm _ => True
  | .exit task => ∀ t, e.pre.tables[task]? = some t → ExitSound e.pre task t

/-- A task that exits has no pages. -/
def ExitsEmpty (e : Event (VmmState N) TaskOp) : Prop :=
  match e.act with
  | .vmm _ => True
  | .exit task => ∀ t, e.pre.tables[task]? = some t → entries t.pages.slots = []

theorem exitSound_of_empty (h : entries t.pages.slots = []) : ExitSound s task t := by
  have hpages : pageSet t.pages = 0 := by
    rw [pageSet, h]
    rfl
  rw [ExitSound, syscallExitPages_of_empty h, hpages]
  exact ⟨fun _ hframe => absurd hframe not_mem_nil,
    fun _ hpage => absurd hpage (notMem_zero _)⟩

section

variable (h : CowInv s) (ht : s.tables[task]? = some t)

include h ht

theorem CowInv.countP_eq_one (hpage : page ∈ pageSet t.pages)
    (hone : s.kernel.references page.reference ≤ 1) :
    s.pages.countP (fun q => q.paddr = page.paddr) = 1 := by
  obtain ⟨rest, hrest⟩ := exists_cons_of_mem (mem_pages ht hpage)
  have hsharing := h.sharing
  rw [hrest] at hsharing
  have hothers := countP_eq_zero.mpr (hsharing.alone hone)
  rw [hrest, Multiset.countP_cons, hothers, if_pos rfl]

theorem CowInv.other_holder (hpage : page ∈ pageSet t.pages)
    (hmany : 1 < s.kernel.references page.reference) :
    ∃ q ∈ s.otherPages task, q.paddr = page.paddr := by
  have hmem := mem_pages ht hpage
  have hexact := h.sharing.exact _ (mem_references hmem)
  -- the task itself holds the counter once
  have hself := Multiset.count_eq_one_of_mem (h.distinct t (mem_of_getElem? ht))
    (mem_references hpage)
  rw [pages_eq ht, references_add, count_add] at hexact
  have hpos : 0 < (references (s.otherPages task)).count page.reference := by omega
  obtain ⟨q, hq, href⟩ := mem_map.mp (count_pos.mp hpos)
  have hq' := pages_eq ht ▸ mem_add.mpr (.inr hq)
  exact ⟨q, hq, (h.sharing.frames q hq' page hmem).mp href⟩

theorem exitSound_iff : ExitSound s task t ↔ entries t.pages.slots = [] := by
  have hinv := h.tables.get ht
  have hfreed : ∀ {frame}, frame ∈ (syscallExitPages t s.kernel).freed ↔
      ∃ page ∈ pageSet t.pages, 1 < s.kernel.references page.reference ∧ page.paddr = frame :=
    mem_freed_iff hinv (h.distinct t (mem_of_getElem? ht))
  constructor
  · rintro ⟨hlive, hleak⟩
    by_contra hne
    obtain ⟨⟨v, page⟩, hentry⟩ := exists_mem_of_ne_nil _ hne
    have hpage := mem_pageSet_of_entry hentry
    by_cases hone : s.kernel.references page.reference ≤ 1
    · -- a leak: a freed page with this frame would have this counter
      obtain ⟨q, hq, hmany, hframe⟩ := hfreed.mp (hleak page hpage (h.countP_eq_one ht hpage hone))
      have href := (h.sharing.frames q (mem_pages ht hq) page (mem_pages ht hpage)).mpr hframe
      rw [href] at hmany
      omega
    · -- a frame is freed under another task
      obtain ⟨q, hq, hframe⟩ := h.other_holder ht hpage (by omega)
      exact hlive page.paddr (hfreed.mpr ⟨page, hpage, by omega, rfl⟩) q hq hframe
  · intro hnil
    exact exitSound_of_empty hnil

theorem CowInv.exit (hnil : entries t.pages.slots = []) :
    CowInv ⟨s.tables.eraseIdx task, s.kernel⟩ := by
  have hsub : ∀ t' ∈ s.tables.eraseIdx task, t' ∈ s.tables := fun _ => mem_of_mem_eraseIdx
  have hpages : (VmmState.mk (s.tables.eraseIdx task) s.kernel).pages = s.pages := by
    have hzero : pageSet t.pages = 0 := by
      rw [pageSet, hnil]
      rfl
    rw [pages_eq ht, hzero, zero_add]
    rfl
  refine ⟨fun t' ht' => h.tables t' (hsub t' ht'), ?_, fun ht' hpage hcow => ?_,
    fun t' ht' => h.distinct t' (hsub t' ht')⟩
  · rw [hpages]
    exact h.sharing
  · obtain ⟨j, hj⟩ := mem_iff_getElem?.mp (hsub _ (mem_of_getElem? ht'))
    rw [hpages]
    exact h.exclusive hj hpage hcow

end

/-- **When frames stay live**: along a run of first accesses, forks, faults on present pages, user
writes and exits, if every task that exits has no pages then every exit is sound; with frames below
`2 ^ 40` no other exit is. -/
theorem frames_live_iff {s₀ : VmmState N} {tr : List (Event (VmmState N) TaskOp)}
    {assetRead : AssetRead N} (h₀ : FreshSpaces s₀)
    (run : Run (taskStep assetRead) s₀ tr s) :
    ((∀ e ∈ tr, ExitsEmpty e) → ∀ e ∈ tr, FreesSoundly e) ∧ ((∀ e ∈ tr, e.act.LowFrame) →
        ((∀ e ∈ tr, FreesSoundly e) ↔ ∀ e ∈ tr, ExitsEmpty e)) := by
  refine ⟨fun hempty e he => ?_, fun hlow => ?_⟩
  · have hexit := hempty e he
    rcases e with ⟨s, op | task, s'⟩
    · trivial
    · exact fun t ht => exitSound_of_empty (hexit t ht)
  · -- the first exit with pages is the first that is not sound
    refine (run.restrict (Q := fun e => e.act.LowFrame) hlow).every_iff (I := CowInv)
      (cowInv_fresh h₀) ?_ ?_
    · rintro s (op | task) s' h ⟨hstep, hframe⟩ hempty
      · exact cowInv_effect h (effect_of_step h.tables hstep) hframe
      · obtain ⟨t, ht, rfl⟩ := hstep
        rw [syscallExitPages_of_empty (hempty t ht)]
        exact h.exit ht (hempty t ht)
    · rintro s (op | task) s' h -
      · exact Iff.rfl
      · exact forall₂_congr fun t ht => exitSound_iff h ht

theorem frames_live_before_first_access :
    ∃ (tr : List (Event (VmmState Unit) TaskOp)) (s : VmmState Unit),
      Run (taskStep fun _ _ _ => none) oneTask tr s ∧ tr.length = 3 ∧ ∀ e ∈ tr, FreesSoundly e := by
  have hsteps : ∃ s₁ s₂ s₃ : VmmState Unit,
      taskStep (fun _ _ _ => none) oneTask (.vmm (.fork 0)) s₁ ∧
      taskStep (fun _ _ _ => none) s₁ (.vmm (.fault 0 0x4#64 0x10000#64 0x2000#64)) s₂ ∧
      taskStep (fun _ _ _ => none) s₂ (.exit 1) s₃ ∧
      ∀ t ∈ s₂.tables[1]?, entries t.pages.slots = [] := by
    refine ⟨_, _, _, ⟨_, rfl, rfl⟩, ⟨_, rfl, ?_, ⟨?_, ?_⟩, ?_, rfl⟩, ⟨_, rfl, rfl⟩, ?_⟩ <;>
      decide +kernel
  obtain ⟨s₁, s₂, s₃, h₁, h₂, h₃, hnil⟩ := hsteps
  have run := ((Run.nil.snoc h₁).snoc h₂).snoc h₃
  refine ⟨_, _, run, rfl, (frames_live_iff freshSpaces_oneTask run).1 ?_⟩
  simp only [nil_append, cons_append, List.mem_cons, not_mem_nil, or_false,
    forall_eq_or_imp, forall_eq]
  exact ⟨trivial, trivial, hnil⟩

theorem exit_frees_parent_frame :
    ∃ s₁ s₂ s₃ : VmmState Unit, Run (taskStep fun _ _ _ => none) oneTask
      [⟨oneTask, .vmm (.fault 0 0x4#64 0x10000#64 0x2000#64), s₁⟩,
        ⟨s₁, .vmm (.fork 0), s₂⟩, ⟨s₂, .exit 1, s₃⟩] s₃ ∧
      ¬ FreesSoundly ⟨s₂, TaskOp.exit 1, s₃⟩ := by
  have hsteps : ∃ s₁ s₂ s₃ : VmmState Unit,
      taskStep (fun _ _ _ => none) oneTask (.vmm (.fault 0 0x4#64 0x10000#64 0x2000#64)) s₁ ∧
      taskStep (fun _ _ _ => none) s₁ (.vmm (.fork 0)) s₂ ∧
      taskStep (fun _ _ _ => none) s₂ (.exit 1) s₃ ∧
      ∃ t, s₂.tables[1]? = some t ∧ 0x2000#64 ∈ (syscallExitPages t s₂.kernel).freed ∧
        ∃ t' ∈ s₂.tables.eraseIdx 1, ∃ e ∈ entries t'.pages.slots, e.2.paddr = 0x2000#64 := by
    refine ⟨_, _, _, ⟨_, rfl, ?_, ⟨?_, ?_⟩, ?_, rfl⟩, ⟨_, rfl, rfl⟩, ⟨_, rfl, rfl⟩,
      ⟨_, rfl, ?_, ?_⟩⟩ <;> decide +kernel
  obtain ⟨s₁, s₂, s₃, h₁, h₂, h₃, t, ht, hfreed, t', ht', ⟨v, page⟩, hentry, hframe⟩ := hsteps
  refine ⟨s₁, s₂, s₃, ((Run.nil.snoc h₁).snoc h₂).snoc h₃, fun hsound => ?_⟩
  have hother : page ∈ s₂.otherPages 1 := mem_pagesOf.mpr ⟨t', ht', mem_pageSet_of_entry hentry⟩
  exact (hsound t ht).1 _ hfreed page hother hframe

end Exits

end Pastoral
