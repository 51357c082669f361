import Pastoral.Mm.SlabSound

/-!
# Slabs that are full

`cache_alloc_obj` takes a new slab when the lists of partial and of empty slabs have none.

## Main results

* `full_exhausted_iff`: when the lists of full slabs hold full slabs
-/

open DoublyLinked List Option Transition

namespace Pastoral

namespace SlabMemory

def Unheaded (m : SlabMemory) (a : ℕ) : Prop :=
  (m.caches (m.slabs a).cache).slabPartial ≠ some a ∧
    (m.caches (m.slabs a).cache).slabEmpty ≠ some a

section Heads

variable {m m' : SlabMemory} {made caches : List ℕ} {a b c d i highVma phys : ℕ}

theorem chooseSlab_caches (hd : d ≠ c) : (m.chooseSlab highVma phys c).2.caches d = m.caches d := by
  unfold chooseSlab
  split
  · rfl
  · rfl
  · simp [cacheAllocSlab, hd]

theorem takeObject_caches (slab : ℕ) : (m.takeObject slab).2.caches = m.caches := by
  unfold takeObject
  split <;> rfl

theorem sortSlab_caches (hd : d ≠ c) (slab : ℕ) : (m.sortSlab c slab).caches d = m.caches d := by
  unfold sortSlab
  split_ifs <;> simp [hd]

theorem cacheAllocObj_caches (hd : d ≠ c) :
    (m.cacheAllocObj highVma phys c).2.caches d = m.caches d := by
  rw [cacheAllocObj]
  rw [sortSlab_caches hd, takeObject_caches, chooseSlab_caches hd]

theorem chooseSlab_ready (h : ¬ m.NeedsSlab c) : (m.chooseSlab highVma phys c).2 = m := by
  unfold chooseSlab
  split
  · rfl
  · rfl
  · next hpart hempty => exact absurd ⟨hpart, hempty⟩ h

theorem SlabInv.mem_full_iff (h : SlabInv m made caches) (ha : a ∈ made) :
    (∃ f, IsList (linksOf m.slabs) none (m.caches (m.slabs a).cache).slabFull f ∧ a ∈ f) ↔
      m.Unheaded a := by
  obtain ⟨e, p, f, hfiled⟩ := h.filed _ (h.cache_mem a ha)
  have hpart := hfiled.part.head_eq
  have hempty := hfiled.empty.head_eq
  constructor
  · rintro ⟨f', hlist, hmem⟩
    obtain rfl := hlist.unique hfiled.full
    have hnot : a ∉ e ++ p := fun hin => disjoint_of_nodup_append hfiled.nodup hin hmem
    rw [mem_append, not_or] at hnot
    refine ⟨fun heq => hnot.2 ?_, fun heq => hnot.1 ?_⟩
    · exact mem_of_head? (hpart.symm.trans heq)
    · exact mem_of_head? (hempty.symm.trans heq)
  · rintro ⟨hnotPart, hnotEmpty⟩
    refine ⟨f, hfiled.full, ?_⟩
    have hall := (hfiled.mem a).mpr ⟨ha, rfl⟩
    refine (mem_append.mp hall).resolve_left fun hin => ?_
    -- The one slab of the two other lists is the head of its list.
    have hone : e ++ p = [a] := by
      obtain ⟨b, hb⟩ := length_eq_one_iff.mp
        (le_antisymm hfiled.single (length_pos_of_mem hin))
      rw [hb, mem_singleton] at hin
      rw [hb, hin]
    rcases append_eq_singleton_iff.mp hone with ⟨rfl, rfl⟩ | ⟨rfl, rfl⟩
    · exact hnotPart hpart
    · exact hnotEmpty hempty

def Exhausted (m : SlabMemory) (made : List ℕ) : Prop :=
  ∀ b ∈ made, m.Unheaded b → (m.slabs b).availableObjects = 0

theorem SlabInv.exhausted_alloc (h : SlabInv m made caches) (hfull : m.Exhausted made)
    (hc : c ∈ caches)
    (hgrant : m.NeedsSlab c → m.Granted made highVma (m.caches c).pagesPerSlab phys) :
    (m.cacheAllocObj highVma phys c).2.Exhausted (m.madeAfter made c (phys + highVma)) := by
  obtain ⟨a, m₁, hchoose, hinv₁, hsame₁, hmade, hothers, e, p, f, hfiled, hcase⟩ :=
    h.choose hc hgrant
  obtain ⟨i, hi, hclear, m₂, htake, hinv, hsame, hbits, hlast⟩ := hinv₁.serve hfiled hcase
  have hresult : (m.cacheAllocObj highVma phys c).2 = m₂.sortSlab c a := by
    rw [cacheAllocObj, hchoose]
    dsimp only
    rw [htake]
  have hcaches : ∀ d, d ≠ c → (m₂.sortSlab c a).caches d = m.caches d := fun d hd => by
    rw [← hresult, cacheAllocObj_caches hd]
  have hmem : a ∈ e ++ p := by rcases hcase with ⟨rfl, rfl⟩ | ⟨rfl, rfl⟩ <;> simp
  obtain ⟨ha, hcachea⟩ := (hfiled.mem a).mp (mem_append_left f hmem)
  rw [hresult]
  intro b hb hunheaded
  by_cases hba : b = a
  · -- The slab that was served from is partial, unless it is full.
    subst hba
    refine hlast.resolve_right fun hpart => hunheaded.1 ?_
    rw [hsame.cache b ha, hcachea]
    exact hpart
  · have hb' := hothers b hb hba
    have hcacheb : ((m₂.sortSlab c a).slabs b).cache = (m.slabs b).cache := by
      rw [hsame.cache b hb, hmade b hb']
    have hold : m.Unheaded b := by
      unfold Unheaded at hunheaded ⊢
      rw [hcacheb] at hunheaded
      by_cases hd : (m.slabs b).cache = c
      · by_cases hneeds : m.NeedsSlab c
        · rw [hd, hneeds.1, hneeds.2]
          exact ⟨by simp, by simp⟩
        · obtain rfl : m₁ = m := (congrArg Prod.snd hchoose).symm.trans (chooseSlab_ready hneeds)
          rw [hd, hfiled.part.head_eq, hfiled.empty.head_eq]
          rcases hcase with ⟨rfl, rfl⟩ | ⟨rfl, rfl⟩
          · exact ⟨by simp, by simpa using Ne.symm hba⟩
          · exact ⟨by simpa using Ne.symm hba, by simp⟩
      · rwa [hcaches _ hd] at hunheaded
    have hzero := hfull b hb' hold
    rw [h.counted b hb'] at hzero
    rw [hinv.counted b hb, hbits, if_neg hba, hsame.total b hb, hmade b hb']
    exact hzero

theorem SlabInv.exhausted_release (h : SlabInv m made caches) (hfull : m.Exhausted made)
    (ha : a ∈ made) (obj : ℕ) :
    (m.returnObject obj a).Exhausted made ↔ ¬ m.Unheaded a := by
  have hself : ((m.returnObject obj a).slabs a).availableObjects ≠ 0 := by
    have hle := (h.available_le ha).trans (h.shape a ha).few
    have hwrap : ((m.returnObject obj a).slabs a).availableObjects =
        wrap ((m.slabs a).availableObjects + 1) := by
      simp [returnObject]
    rw [hwrap, wrap_of_lt (lt_of_le_of_lt (Nat.succ_le_succ hle) (by decide))]
    exact Nat.succ_ne_zero _
  have hother : ∀ b, b ≠ a → (m.returnObject obj a).slabs b = m.slabs b :=
    fun b hb => Function.update_of_ne hb _ _
  have hcache : ∀ b, ((m.returnObject obj a).slabs b).cache = (m.slabs b).cache := by
    intro b
    by_cases hb : b = a
    · subst hb
      simp [returnObject]
    · rw [hother b hb]
  have hunheaded : ∀ b, (m.returnObject obj a).Unheaded b ↔ m.Unheaded b := fun b => by
    unfold Unheaded
    rw [hcache b]
    rfl
  constructor
  · exact fun hexhausted hun => hself (hexhausted a ha ((hunheaded a).mpr hun))
  · intro hheaded b hb hun
    have hun' := (hunheaded b).mp hun
    have hba : b ≠ a := fun heq => hheaded (heq ▸ hun')
    rw [hother b hba]
    exact hfull b hb hun'

theorem SlabInv.exhausted_create {size : ℕ} (h : SlabInv m made caches)
    (hfull : m.Exhausted made) (hmade : ∀ b ∈ made, (m.addRoot a size).slabs b = m.slabs b)
    (hothers : ∀ d ∈ caches, (m.addRoot a size).caches d = m.caches d) :
    (m.addRoot a size).Exhausted (a :: made) := by
  intro b hb hunheaded
  rcases mem_cons.mp hb with rfl | hb
  · refine absurd ?_ hunheaded.2
    rw [addRoot, addSlab_self, addSlab_cache]
  · unfold Unheaded at hunheaded
    rw [hmade b hb, hothers _ (h.cache_mem b hb)] at hunheaded
    rw [hmade b hb]
    exact hfull b hb hunheaded

end Heads

end SlabMemory

/-! ## Runs -/

namespace SlabState

def OnFullList (s : SlabState) (a : ℕ) : Prop :=
  ∃ f, IsList (linksOf s.memory.slabs) none
    (s.memory.caches (s.memory.slabs a).cache).slabFull f ∧ a ∈ f

/-- **The lists of full slabs hold full slabs.** -/
def FullExhausted (s : SlabState) : Prop :=
  ∀ a ∈ s.made, s.OnFullList a → (s.memory.slabs a).availableObjects = 0

theorem fullExhausted_iff {s : SlabState} (h : WellFormed s) :
    s.FullExhausted ↔ s.memory.Exhausted s.made :=
  forall₂_congr fun _ ha => imp_congr_left (h.inv.mem_full_iff ha)

end SlabState

/-- **No object of a slab in a list of full slabs is freed.** -/
def SparesFull (ev : Event SlabState SlabOp) : Prop :=
  ∀ addr, ev.act = .free addr →
    ∀ a ∈ ev.pre.made, ev.pre.memory.Contains addr a → ¬ ev.pre.OnFullList a

/-- **A new slab is taken when the others have no free object.** -/
def GrowsWhenExhausted (ev : Event SlabState SlabOp) : Prop :=
  ∀ cache phys, ev.act = .alloc cache phys → ev.pre.memory.NeedsSlab cache →
    ∀ a ∈ ev.pre.made, (ev.pre.memory.slabs a).cache = cache →
      (ev.pre.memory.slabs a).availableObjects = 0

section Runs

open SlabState

variable {s s' : SlabState} {highVma : ℕ} {op : SlabOp} {tr : List (Event SlabState SlabOp)}
  {slabs : ℕ → Slab} {caches : ℕ → Cache}

theorem exhausted_create (h : WellFormed s) (hfull : s.FullExhausted) {size phys : ℕ}
    (hstep : s.step highVma (.create size phys) = some s') : s'.FullExhausted := by
  rw [fullExhausted_iff (h.step hstep).1]
  rw [fullExhausted_iff h] at hfull
  rw [SlabState.step, ite_none_right_eq_some] at hstep
  obtain ⟨⟨hpos, hle, hgrant⟩, hstep⟩ := hstep
  cases hstep
  have hroom : 256 * (size + 1) ≤ SlabMemory.pagesFor size * pageSize :=
    SlabMemory.pagesFor_room hle
  have hnot := hgrant.not_mem h.inv.toGeometry (by omega)
  obtain ⟨hphys, hstart, hend, hapart⟩ := hgrant
  have hwrap : wrap (phys + highVma) = phys + highVma := wrap_of_lt (by omega)
  obtain ⟨-, -, hmade, hothers⟩ := h.inv.create hpos hle hstart hend hapart hnot
  rw [s.memory.slabCacheCreate_eq hle hphys (by omega), hwrap]
  exact h.inv.exhausted_create hfull hmade hothers

theorem exhausted_alloc (h : WellFormed s) (hfull : s.FullExhausted) {cache phys : ℕ}
    (hstep : s.step highVma (.alloc cache phys) = some s') : s'.FullExhausted := by
  rw [fullExhausted_iff (h.step hstep).1]
  rw [fullExhausted_iff h] at hfull
  rw [SlabState.step, ite_none_right_eq_some] at hstep
  obtain ⟨⟨hcache, hgrant⟩, hstep⟩ := hstep
  cases hstep
  rw [made_eq_madeAfter h hcache hgrant]
  exact h.inv.exhausted_alloc hfull hcache hgrant

theorem exhausted_free_iff (h : WellFormed s) (hfull : s.FullExhausted) {addr : ℕ}
    (hstep : s.step highVma (.free addr) = some s') :
    s'.FullExhausted ↔ SparesFull ⟨s, .free addr, s'⟩ := by
  rw [fullExhausted_iff (h.step hstep).1]
  rw [fullExhausted_iff h] at hfull
  rw [SlabState.step, ite_none_right_eq_some] at hstep
  obtain ⟨hlive, hstep⟩ := hstep
  obtain ⟨x, hx, rfl⟩ := mem_map.mp hlive
  obtain ⟨a, ha, i, hi, -, hset, haddr⟩ := h.placed x hx
  rw [haddr, h.inv.free_eq ha hi hset le_rfl le_rfl] at hstep
  cases hstep
  rw [h.inv.exhausted_release hfull ha, ← h.inv.mem_full_iff ha]
  constructor
  · rintro hnot addr haddr' b hb hcontains
    obtain rfl : x.addr = addr := by simpa using haddr'
    rw [haddr] at hcontains
    rw [h.inv.eq_of_contains ha hi hb hcontains]
    exact hnot
  · intro hspares
    refine hspares x.addr rfl a ha ?_
    rw [haddr]
    exact h.inv.contains_object ha hi

/-- **The lists of full slabs**: in every run they hold full slabs after every call if and only if
no object of a slab in them is freed; and then a new slab is taken only when no slab of the cache
has a free object. -/
theorem full_exhausted_iff
    (run : Run (slabStep highVma) (start slabs caches) tr s) :
    ((∀ ev ∈ tr, ev.post.FullExhausted) ↔ ∀ ev ∈ tr, SparesFull ev) ∧
      ((∀ ev ∈ tr, SparesFull ev) → ∀ ev ∈ tr, GrowsWhenExhausted ev) := by
  have hstart : (start slabs caches).WellFormed ∧ (start slabs caches).FullExhausted :=
    ⟨WellFormed.start slabs caches, fun a ha => absurd ha not_mem_nil⟩
  have hiff : ∀ s op s', s.WellFormed ∧ s.FullExhausted → s.step highVma op = some s' →
      (s'.FullExhausted ↔ SparesFull ⟨s, op, s'⟩) := by
    rintro s op s' ⟨hwell, hfull⟩ hstep
    cases op with
    | create size phys =>
      refine iff_of_true (exhausted_create hwell hfull hstep) ?_
      rintro _ ⟨⟩
    | alloc cache phys =>
      refine iff_of_true (exhausted_alloc hwell hfull hstep) ?_
      rintro _ ⟨⟩
    | free addr => exact exhausted_free_iff hwell hfull hstep
  have hkeep : ∀ s op s', s.WellFormed ∧ s.FullExhausted → s.step highVma op = some s' →
      SparesFull ⟨s, op, s'⟩ → s'.WellFormed ∧ s'.FullExhausted := fun s op s' h hstep hspares =>
    ⟨(h.1.step hstep).1, (hiff s op s' h hstep).mpr hspares⟩
  refine ⟨run.every_iff (I := fun s => s.WellFormed ∧ s.FullExhausted) hstart hkeep hiff,
    fun hspares => ?_⟩
  refine (run.restrict hspares).forall_event (I := fun s => s.WellFormed ∧ s.FullExhausted) hstart
    (fun s op s' h hstep => hkeep s op s' h hstep.1 hstep.2) ?_
  rintro s op s' ⟨hwell, hfull⟩ - cache phys - hneeds a ha rfl
  -- No list but that of full slabs has a head.
  refine hfull a ha ((hwell.inv.mem_full_iff ha).mpr ?_)
  rw [SlabMemory.Unheaded, hneeds.1, hneeds.2]
  exact ⟨by simp, by simp⟩

theorem sparesFull_of_none {ev : Event SlabState SlabOp}
    (h : ∀ a ∈ ev.pre.made, (ev.pre.memory.caches (ev.pre.memory.slabs a).cache).slabFull = none) :
    SparesFull ev := by
  rintro addr - a ha - ⟨f, hf, hmem⟩
  rw [h a ha] at hf
  rw [head?_eq_none_iff.mp hf.head_eq.symm] at hmem
  exact absurd hmem not_mem_nil

theorem full_exhausted_iff_two_caches : ∃ tr s,
    Run (slabStep 0xffff800000000000) blankMemory tr s ∧
      tr.map Event.act = twoCaches ∧ (∀ ev ∈ tr, ev.post.FullExhausted) ∧
      ∀ ev ∈ tr, GrowsWhenExhausted ev := by
  obtain ⟨tr, s, run, hacts, hnone⟩ := Run.computed (f := SlabState.step 0xffff800000000000)
    (P := fun tr _ => ∀ ev ∈ tr, ∀ a ∈ ev.pre.made,
      (ev.pre.memory.caches (ev.pre.memory.slabs a).cache).slabFull = none)
    blankMemory twoCaches (by decide +kernel)
  have hspares : ∀ ev ∈ tr, SparesFull ev := fun ev hev => sparesFull_of_none (hnone ev hev)
  exact ⟨tr, s, run, hacts, (full_exhausted_iff run).1.mpr hspares,
    (full_exhausted_iff run).2 hspares⟩

def fillAndFree : List SlabOp :=
  .create 16384 0x1000000 :: List.replicate 28 (.alloc 0xffff800001000060 0) ++
    [.free 0xffff8000010000a8, .alloc 0xffff800001000060 0x2000000]

/-- **A free object that is not reused**: the cache gets a second slab while the first one has an
object to return. -/
theorem cacheAllocObj_grows_with_free_object : ∃ tr s,
    Run (slabStep 0xffff800000000000) blankMemory tr s ∧
      tr.map Event.act = fillAndFree ∧ s.made = [0xffff800002000000, 0xffff800001000000] ∧
      ¬ ∀ ev ∈ tr, GrowsWhenExhausted ev := by
  obtain ⟨tr, s, run, hacts, hmade, ev, hev, a, ha, hact, hneeds, hcache, havail⟩ := Run.computed
    (f := SlabState.step 0xffff800000000000)
    (P := fun tr s => s.made = [0xffff800002000000, 0xffff800001000000] ∧
      ∃ ev ∈ tr, ∃ a ∈ ev.pre.made, ev.act = .alloc 0xffff800001000060 0x2000000 ∧
        ev.pre.memory.NeedsSlab 0xffff800001000060 ∧
        (ev.pre.memory.slabs a).cache = 0xffff800001000060 ∧
        (ev.pre.memory.slabs a).availableObjects = 1) blankMemory fillAndFree (by decide +kernel)
  refine ⟨tr, s, run, hacts, hmade, fun hall => ?_⟩
  rw [hall ev hev _ _ hact hneeds a ha hcache] at havail
  exact absurd havail (by decide)

end Runs

end Pastoral
