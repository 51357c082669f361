import Pastoral.Mm.Alloc
import Pastoral.Mm.SlabSound
import Pastoral.Theory.ByteMemory

/-!
# alloc and realloc

`alloc` and `realloc` of `slab.c`, on the caches that `pastoral_entry` creates and in every state
that allocations and frees lead to.

## Main results

* `alloc_room_iff`: the requests for which there is enough room
* `realloc_contract_iff`: those for which `realloc` does what it should
-/

open ByteMemory DoublyLinked List Option Transition

namespace Pastoral

namespace SlabMemory

/-! ## The walks -/

def roundSize (size : ℕ) : ℕ :=
  let round := pow2Roundup (wrap (size + 1))
  if round ≤ 16 then 32 else round

theorem allocSize_eq (size : ℕ) : allocSize size = if size = 0 then none
      else if roundSize size ∈ cacheSizes then some (roundSize size) else none := rfl

def findCache (m : SlabMemory) (round : ℕ) : ℕ → Option ℕ → Option (Option ℕ) :=
  findNode (fun cache => (m.caches cache).next) fun cache => (m.caches cache).objectSize = round

def cacheFor (m : SlabMemory) (steps size : ℕ) : Option (Option ℕ) :=
  if size = 0 then some none else m.findCache (roundSize size) steps m.rootCache

def sizeIn (m : SlabMemory) (slab : Option ℕ) : ℕ :=
  slab.elim 0 fun slab => (m.caches (m.slabs slab).cache).objectSize

def slabGetObjectSize (m : SlabMemory) (obj steps : ℕ) (head : Option ℕ) : Option ℕ :=
  (m.slabOf obj steps head).map m.sizeIn

def cacheGetObjectSize (m : SlabMemory) (steps cache obj : ℕ) : Option ℕ :=
  (m.slabGetObjectSize obj steps (m.caches cache).slabPartial).bind fun size =>
    if size ≠ 0 then some size else m.slabGetObjectSize obj steps (m.caches cache).slabFull

def objectSizeLoop (m : SlabMemory) (steps obj : ℕ) : ℕ → Option ℕ → Option ℕ
  | _, none => some 0
  | 0, some _ => none
  | n + 1, some cache =>
    (m.cacheGetObjectSize steps cache obj).bind fun size =>
      if size ≠ 0 then some size else objectSizeLoop m steps obj n (m.caches cache).next

section Walks

variable {m : SlabMemory} {obj n steps cache slab : ℕ} {prev head : Option ℕ} {l cs : List ℕ}

theorem objectSizeLoop_spec {p f : ℕ → List ℕ} (hchain : m.Chain head cs)
    (hlists : ∀ c ∈ cs, IsList (linksOf m.slabs) none (m.caches c).slabPartial (p c) ∧
      IsList (linksOf m.slabs) none (m.caches c).slabFull (f c) ∧
      (p c).length ≤ steps ∧ (f c).length ≤ steps)
    (honly : ∀ c ∈ cs, ∀ b ∈ p c ++ f c, m.Contains obj b → b = slab)
    (hin : m.Contains obj slab) (hcache : cache ∈ cs) (hslab : slab ∈ p cache ++ f cache)
    (hpos : (m.caches (m.slabs slab).cache).objectSize ≠ 0) (hn : cs.length ≤ n) :
    m.objectSizeLoop steps obj n head = some (m.caches (m.slabs slab).cache).objectSize := by
  have hsizeIn : ∀ c ∈ cs, ∀ l : List ℕ, (∀ b ∈ l, b ∈ p c ++ f c) →
      m.sizeIn (l.find? fun slab => m.Contains obj slab) =
        if slab ∈ l then (m.caches (m.slabs slab).cache).objectSize else 0 := by
    intro c hc l hl
    cases hfind : l.find? fun slab => m.Contains obj slab with
    | some b =>
      have hb := mem_of_find?_eq_some hfind
      obtain rfl := honly c hc b (hl b hb) (by simpa using find?_some hfind)
      exact (if_pos hb).symm
    | none =>
      exact (if_neg fun hmem => find?_eq_none.mp hfind slab hmem (by simpa using hin)).symm
  induction cs generalizing head n with
  | nil => exact absurd hcache (by simp)
  | cons c cs ih =>
    obtain ⟨rfl, hrest⟩ := hchain
    obtain ⟨n, rfl⟩ := Nat.exists_eq_add_one_of_ne_zero (ne_zero_of_lt hn)
    obtain ⟨hp, hf, hplen, hflen⟩ := hlists c mem_cons_self
    have hcget : m.cacheGetObjectSize steps c obj = some
        (if slab ∈ p c ++ f c then (m.caches (m.slabs slab).cache).objectSize else 0) := by
      rw [cacheGetObjectSize, slabGetObjectSize, slabGetObjectSize, slabOf_eq hp hplen,
        slabOf_eq hf hflen, map_some, bind_some,
        hsizeIn c mem_cons_self (p c) fun b hb => mem_append_left _ hb, map_some,
        hsizeIn c mem_cons_self (f c) fun b hb => mem_append_right _ hb]
      by_cases hmem : slab ∈ p c
      · rw [if_pos hmem, if_pos hpos, if_pos (mem_append_left _ hmem)]
      · simp [hmem]
    rw [objectSizeLoop, hcget, bind_some]
    by_cases hmem : slab ∈ p c ++ f c
    · rw [if_pos hmem, if_pos hpos]
    · rw [if_neg hmem]
      refine ih hrest (fun c hc => hlists c (mem_cons_of_mem _ hc))
        (fun c hc => honly c (mem_cons_of_mem _ hc)) ?_ (Nat.le_of_succ_le_succ hn)
        fun c hc => hsizeIn c (mem_cons_of_mem _ hc)
      exact (mem_cons.mp hcache).resolve_left fun heq => hmem (heq ▸ hslab)

end Walks

theorem exists_created (m : SlabMemory) (highVma phys size : ℕ) :
    ∃ c, (m.slabCacheCreate highVma phys size).rootCache = some c ∧
      ((m.slabCacheCreate highVma phys size).caches c).objectSize = size :=
  ⟨_, rfl, by simp [slabCacheCreate]⟩

end SlabMemory

/-! ## alloc -/

def createdSizes (tr : List (Event SlabState SlabOp)) : List ℕ :=
  tr.filterMap fun e =>
    match e.act with
    | .create size _ => some size
    | _ => none

namespace SlabState

def sizes (s : SlabState) : List ℕ := s.madeCaches.map fun c => (s.memory.caches c).objectSize

def allocObj (highVma phys cache : ℕ) (s : SlabState) : Option ℕ × SlabState :=
  let (addr, m) := s.memory.cacheAllocObj highVma phys cache
  (addr,
    { s with
      memory := m
      made := if s.memory.NeedsSlab cache then wrap (phys + highVma) :: s.made else s.made
      live := (addr.map (LiveObject.mk cache)).toList ++ s.live })

def alloc (highVma phys size : ℕ) (s : SlabState) : Option (Option ℕ × SlabState) :=
  (s.memory.cacheFor s.madeCaches.length size).map fun cache =>
    match cache with
    | none => (none, s)
    | some cache => s.allocObj highVma phys cache

/-- The pages for `alloc` are granted, if it asks for some. -/
def SizeGranted (highVma phys size : ℕ) (s : SlabState) : Prop :=
  ∀ cache ∈ s.madeCaches, s.memory.cacheFor s.madeCaches.length size = some (some cache) →
    s.AllocGranted highVma cache phys

/-- **Enough room**: `alloc` returns a null pointer for 0 and for requests of 16384 bytes or more,
and otherwise an object of a cache with one byte more than requested. -/
def AllocRoom (highVma phys size : ℕ) (s : SlabState) : Prop :=
  ∃ addr s', s.alloc highVma phys size = some (addr, s') ∧
    (addr = none ↔ size = 0 ∨ 16384 ≤ size) ∧
    (addr ≠ none → ∃ cache ∈ s.madeCaches, s.allocObj highVma phys cache = (addr, s') ∧
      size + 1 ≤ (s.memory.caches cache).objectSize)

section Alloc

variable {s s' : SlabState} {highVma phys size cache : ℕ} {op : SlabOp}
  {tr : List (Event SlabState SlabOp)} {slabs : ℕ → Slab} {caches : ℕ → Cache}

theorem sizes_step (h : s.WellFormed) (hstep : s.step highVma op = some s') :
    s'.sizes = (createdSizes [⟨s, op, s'⟩]) ++ s.sizes := by
  have hsame := (h.step hstep).2
  have hold : s.madeCaches.map (fun c => (s'.memory.caches c).objectSize) = s.sizes :=
    map_congr_left fun c hc => hsame.size c hc
  cases op with
  | create size phys =>
    rw [SlabState.step, ite_none_right_eq_some] at hstep
    obtain ⟨-, hstep⟩ := hstep
    cases hstep
    obtain ⟨c, hroot, hsize⟩ := s.memory.exists_created highVma phys size
    rw [hroot, ← hold]
    exact congrArg (· :: _) hsize
  | alloc cache phys =>
    rw [SlabState.step, ite_none_right_eq_some] at hstep
    obtain ⟨-, hstep⟩ := hstep
    cases hstep
    exact hold
  | free addr =>
    rw [SlabState.step, ite_none_right_eq_some] at hstep
    obtain ⟨-, hstep⟩ := hstep
    obtain ⟨m, -, rfl⟩ := map_eq_some_iff.mp hstep
    exact hold

theorem sizes_of_run
    (run : Run (slabStep highVma) (start slabs caches) tr s) :
    s.WellFormed ∧ s.sizes = (createdSizes tr).reverse := by
  refine run.invariant (I := fun tr s => s.WellFormed ∧ s.sizes = (createdSizes tr).reverse)
    ⟨SlabState.WellFormed.start slabs caches, rfl⟩ fun tr s op s' h hstep => ?_
  refine ⟨(h.1.step hstep).1, ?_⟩
  rw [sizes_step h.1 hstep, h.2, createdSizes, createdSizes, createdSizes, filterMap_append,
    reverse_append]
  cases op <;> rfl

theorem mem_cacheSizes_iff (hsizes : s.sizes = cacheSizes.reverse) (c : ℕ) :
    c ∈ cacheSizes ↔ ∃ cache ∈ s.madeCaches, (s.memory.caches cache).objectSize = c := by
  rw [← mem_reverse, ← hsizes]
  exact mem_map

theorem cacheFor_eq (h : s.WellFormed) (hne : size ≠ 0) :
    s.memory.cacheFor s.madeCaches.length size = some (s.madeCaches.find? fun c =>
      (s.memory.caches c).objectSize = SlabMemory.roundSize size) := by
  rw [SlabMemory.cacheFor, if_neg hne]
  exact findNode_eq h.inv.chain le_rfl

theorem cacheFor_none (h : s.WellFormed) (hsizes : s.sizes = cacheSizes.reverse)
    (hsize : allocSize size = none) :
    s.memory.cacheFor s.madeCaches.length size = some none := by
  rw [SlabMemory.allocSize_eq] at hsize
  by_cases hzero : size = 0
  · rw [SlabMemory.cacheFor, if_pos hzero]
  · rw [if_neg hzero, ite_eq_right_iff] at hsize
    rw [cacheFor_eq h hzero]
    refine congrArg some (find?_eq_none.mpr fun cache hcache hfound => ?_)
    have hround := (mem_cacheSizes_iff hsizes (SlabMemory.roundSize size)).mpr
      ⟨cache, hcache, of_decide_eq_true hfound⟩
    exact absurd (hsize hround) (by simp)

theorem cacheFor_some (h : s.WellFormed) (hsizes : s.sizes = cacheSizes.reverse) {c : ℕ}
    (hsize : allocSize size = some c) :
    ∃ cache ∈ s.madeCaches, (s.memory.caches cache).objectSize = c ∧
      s.memory.cacheFor s.madeCaches.length size = some (some cache) := by
  rw [SlabMemory.allocSize_eq] at hsize
  by_cases hzero : size = 0
  · rw [if_pos hzero] at hsize
    simp at hsize
  · rw [if_neg hzero, ite_none_right_eq_some] at hsize
    obtain ⟨hround, hc⟩ := hsize
    cases hc
    rw [cacheFor_eq h hzero]
    obtain ⟨cache, hcache, hsize⟩ := (mem_cacheSizes_iff hsizes _).mp hround
    cases hfound : s.madeCaches.find? fun c =>
        (s.memory.caches c).objectSize = SlabMemory.roundSize size with
    | none => exact absurd (decide_eq_true hsize) (find?_eq_none.mp hfound cache hcache)
    | some found =>
      have hsize' := find?_some hfound
      exact ⟨found, mem_of_find?_eq_some hfound, of_decide_eq_true hsize', rfl⟩

theorem step_alloc (hcache : cache ∈ s.madeCaches) (hgrant : s.AllocGranted highVma cache phys) :
    s.step highVma (.alloc cache phys) = some (s.allocObj highVma phys cache).2 := by
  rw [SlabState.step, if_pos ⟨hcache, hgrant⟩]
  rfl

theorem alloc_object (h : s.WellFormed) (hsizes : s.sizes = cacheSizes.reverse) {c : ℕ}
    (hsize : allocSize size = some c) (hgrant : s.SizeGranted highVma phys size) :
    ∃ cache ∈ s.madeCaches, (s.memory.caches cache).objectSize = c ∧
      s.AllocGranted highVma cache phys ∧
      s.alloc highVma phys size = some (s.allocObj highVma phys cache) ∧
      ∃ addr, (s.allocObj highVma phys cache).1 = some addr := by
  obtain ⟨cache, hcache, hc, hfor⟩ := cacheFor_some h hsizes hsize
  have hgranted := hgrant cache hcache hfor
  obtain ⟨addr, m', halloc, -⟩ := h.alloc hcache hgranted
  refine ⟨cache, hcache, hc, hgranted, ?_, addr, ?_⟩
  · rw [SlabState.alloc, hfor]
    rfl
  · rw [SlabState.allocObj, halloc]

theorem alloc_none (h : s.WellFormed) (hsizes : s.sizes = cacheSizes.reverse)
    (hsize : allocSize size = none) : s.alloc highVma phys size = some (none, s) := by
  rw [SlabState.alloc, cacheFor_none h hsizes hsize]
  rfl

/-- **When `alloc` returns enough room**: in every state of a run with the caches of the kernel,
exactly for the requests that are below `2 ^ 63` or have 32 consecutive clear bits. -/
theorem alloc_room_iff
    (run : Run (slabStep highVma) (start slabs caches) tr s)
    (hboot : createdSizes tr = cacheSizes) (hsize : size < 2 ^ 64)
    (hgrant : s.SizeGranted highVma phys size) : s.AllocRoom highVma phys size ↔ Sparse size := by
  obtain ⟨hwell, hsizes⟩ := sizes_of_run run
  rw [hboot] at hsizes
  have hnull : size = 0 ∨ 16384 ≤ size → allocSize size = none → s.AllocRoom highVma phys size :=
    fun hbad hnone => ⟨none, s, alloc_none hwell hsizes hnone, iff_of_true rfl hbad,
      fun hne => absurd rfl hne⟩
  by_cases hlarge : 16384 ≤ size
  · by_cases hsparse : Sparse size
    · refine iff_of_true (hnull (.inr hlarge) ?_) hsparse
      rw [allocSize_large hlarge hsize, if_pos hsparse]
    · -- The request is taken for a small one.
      refine iff_of_false ?_ hsparse
      rintro ⟨addr, s', halloc, hnone, -⟩
      have hround : allocSize size = some 32 := by
        rw [allocSize_large hlarge hsize, if_neg hsparse]
      obtain ⟨cache, -, -, -, hobject, p, hp⟩ := alloc_object hwell hsizes hround hgrant
      have hresult := congrArg Prod.fst (Option.some.inj (halloc.symm.trans hobject))
      rw [hnone.mpr (.inr hlarge), hp] at hresult
      simp at hresult
  · refine iff_of_true ?_ (.inl (by omega))
    by_cases hzero : size = 0
    · exact hnull (.inl hzero) (by rw [hzero]; rfl)
    · obtain ⟨c, hc, hlt⟩ := allocSize_spec (by omega : 0 < size) (by omega)
      obtain ⟨cache, hcache, rfl, -, hobject, p, hp⟩ := alloc_object hwell hsizes hc hgrant
      refine ⟨(s.allocObj highVma phys cache).1, (s.allocObj highVma phys cache).2, hobject,
        iff_of_false (fun hnone => ?_) (by omega), fun _ => ⟨cache, hcache, rfl, hlt⟩⟩
      exact absurd (hp.symm.trans hnone) (by simp)

end Alloc

theorem sizeGranted_of_ready {s : SlabState} {highVma phys size : ℕ}
    (h : ∀ cache ∈ s.madeCaches, ¬ s.memory.NeedsSlab cache) : s.SizeGranted highVma phys size :=
  fun cache hcache _ hneeds => absurd hneeds (h cache hcache)

def tenCaches : List SlabOp :=
  (List.range 10).map fun k => .create (2 ^ (k + 5)) (0x1000000 * (k + 1))

theorem exists_boot : ∃ tr s,
    Run (slabStep 0xffff800000000000) blankMemory tr s ∧
      createdSizes tr = cacheSizes ∧ (∀ cache ∈ s.madeCaches, ¬ s.memory.NeedsSlab cache) ∧
      (s.alloc 0xffff800000000000 0 (2 ^ 64 - 1)).map Prod.fst =
        some (some 0xffff8000010000a8) := by
  obtain ⟨tr, s, run, -, hvalues⟩ := Run.computed (f := SlabState.step 0xffff800000000000)
    (P := fun tr s => createdSizes tr = cacheSizes ∧
      (∀ cache ∈ s.madeCaches, ¬ s.memory.NeedsSlab cache) ∧
      (s.alloc 0xffff800000000000 0 (2 ^ 64 - 1)).map Prod.fst = some (some 0xffff8000010000a8))
    blankMemory tenCaches (by decide +kernel)
  exact ⟨tr, s, run, hvalues⟩

theorem alloc_room_iff_hundred : ∃ tr s,
    Run (slabStep 0xffff800000000000) blankMemory tr s ∧
      createdSizes tr = cacheSizes ∧ s.AllocRoom 0xffff800000000000 0 100 := by
  obtain ⟨tr, s, run, hsizes, hready, -⟩ := exists_boot
  exact ⟨tr, s, run, hsizes, (alloc_room_iff run hsizes (by decide)
    (sizeGranted_of_ready hready)).mpr (by decide)⟩

/-- **A request that is rounded to 0**: `2 ^ 64 - 1` bytes are an object of the smallest cache. -/
theorem alloc_wraps_around : ∃ tr s,
    Run (slabStep 0xffff800000000000) blankMemory tr s ∧
      createdSizes tr = cacheSizes ∧ s.SizeGranted 0xffff800000000000 0 (2 ^ 64 - 1) ∧
      ∃ s', s.alloc 0xffff800000000000 0 (2 ^ 64 - 1) = some (some 0xffff8000010000a8, s') ∧
        ¬ s.AllocRoom 0xffff800000000000 0 (2 ^ 64 - 1) := by
  obtain ⟨tr, s, run, hsizes, hready, halloc⟩ := exists_boot
  obtain ⟨⟨addr, s'⟩, halloc, rfl⟩ := map_eq_some_iff.mp halloc
  refine ⟨tr, s, run, hsizes, sizeGranted_of_ready hready, s', halloc, ?_⟩
  rintro ⟨addr, s'', halloc', hnull, -⟩
  obtain ⟨rfl, -⟩ := Prod.mk.inj (Option.some.inj (halloc.symm.trans halloc'))
  exact absurd (hnull.mpr (.inr (by decide))) (by simp)

end SlabState

/-! ## realloc -/

def clearBytes (bytes : ℕ → BitVec 8) (a n : ℕ) : ℕ → BitVec 8 :=
  fun x => if a ≤ x ∧ x < a + n then 0#8 else bytes x

def memcpy8 (bytes : ℕ → BitVec 8) (dest src : ℕ) : ℕ → ℕ → BitVec 8
  | 0 => bytes
  | n + 1 =>
    let copied := memcpy8 bytes dest src n
    Function.update copied (dest + n) (copied (src + n))

structure SlabHeap where
  state : SlabState
  bytes : ℕ → BitVec 8

namespace SlabHeap

def cleared (highVma phys cache : ℕ) (addr : Option ℕ) (h : SlabHeap) : ℕ → BitVec 8 :=
  let m := h.state.memory
  let (slab, m₁) := m.chooseSlab highVma phys cache
  let bytes := if m.NeedsSlab cache then
      clearBytes h.bytes (wrap (phys + highVma)) ((m.caches cache).pagesPerSlab * pageSize)
    else h.bytes
  match addr with
  | some p => clearBytes bytes p (m₁.caches (m₁.slabs slab).cache).objectSize
  | none => bytes

def alloc (highVma phys size : ℕ) (h : SlabHeap) : Option (Option ℕ × SlabHeap) :=
  (h.state.memory.cacheFor h.state.madeCaches.length size).map fun cache =>
    match cache with
    | none => (none, h)
    | some cache =>
      let (addr, state) := h.state.allocObj highVma phys cache
      (addr, ⟨state, h.cleared highVma phys cache addr⟩)

def free (obj : ℕ) (h : SlabHeap) : Option SlabHeap :=
  (h.state.memory.free h.state.made.length h.state.madeCaches.length obj).map fun m =>
    { h with
      state := { h.state with memory := m, live := h.state.live.filter fun x => x.addr ≠ obj } }

def copyObject (lowMapped : Bool) (ret : Option ℕ) (obj n : ℕ) (h : SlabHeap) : Option SlabHeap :=
  match ret with
  | some p => some { h with bytes := memcpy8 h.bytes p obj n }
  | none => if lowMapped then some { h with bytes := memcpy8 h.bytes 0 obj n } else none

def realloc (highVma phys : ℕ) (lowMapped : Bool) (obj size : ℕ) (h : SlabHeap) :
    Option (Option ℕ × SlabHeap) :=
  if obj = 0 then h.alloc highVma phys size
  else
    let m := h.state.memory
    (m.objectSizeLoop h.state.made.length obj h.state.madeCaches.length m.rootCache).bind
      fun objectSize =>
        if objectSize ≥ size then some (some obj, h)
        else
          (h.alloc highVma phys size).bind fun r =>
            (r.2.copyObject lowMapped r.1 obj objectSize).bind fun copied =>
              (copied.free obj).map fun released => (r.1, released)

/-- **The contract of `realloc`**: a pointer that is returned is to an object with enough bytes, the
first of which are those of the old object, and unless it is the old one, that was freed once; after
a null pointer the old object is in use and has its bytes. -/
def Reallocated (highVma phys size : ℕ) (x : LiveObject) (h h' : SlabHeap) : Option ℕ → Prop
  | none => x ∈ h'.state.live ∧
      load h'.bytes x.addr (h.state.memory.caches x.cache).objectSize =
        load h.bytes x.addr (h.state.memory.caches x.cache).objectSize
  | some p =>
      (∃ y ∈ h'.state.live, y.addr = p ∧ size ≤ (h'.state.memory.caches y.cache).objectSize) ∧
      load h'.bytes p (min (h.state.memory.caches x.cache).objectSize size) =
        load h.bytes x.addr (min (h.state.memory.caches x.cache).objectSize size) ∧
      (p ≠ x.addr → ∃ cache state, h.state.step highVma (.alloc cache phys) = some state ∧
        state.step highVma (.free x.addr) = some h'.state)

end SlabHeap

section Copies

variable {bytes : ℕ → BitVec 8} {a b dest src n k x : ℕ}

theorem clearBytes_outside (hx : x < a ∨ a + n ≤ x) : clearBytes bytes a n x = bytes x :=
  if_neg (by omega)

theorem load_clearBytes (h : Apart a n b k) : load (clearBytes bytes a n) b k = load bytes b k := by
  refine load_of_agree fun x hx hx' => clearBytes_outside ?_
  unfold Apart at h
  omega

theorem memcpy8_outside (hx : x < dest ∨ dest + n ≤ x) : memcpy8 bytes dest src n x = bytes x := by
  induction n with
  | zero => rfl
  | succ n ih =>
    rw [memcpy8, Function.update_of_ne (by omega)]
    exact ih (by omega)

theorem load_memcpy8 (h : Apart dest n src n) :
    load (memcpy8 bytes dest src n) dest n = load bytes src n := by
  induction n with
  | zero => rfl
  | succ n ih =>
    unfold Apart at h
    have hlast : memcpy8 bytes dest src (n + 1) (dest + n) = bytes (src + n) := by
      rw [memcpy8, Function.update_self]
      exact memcpy8_outside (by omega)
    have hbefore : load (memcpy8 bytes dest src (n + 1)) dest n =
        load (memcpy8 bytes dest src n) dest n :=
      load_of_agree fun x hx hx' => by
        rw [memcpy8, Function.update_of_ne (by omega)]
    rw [load_succ, load_succ, hlast, hbefore, ih (by unfold Apart; omega)]

end Copies

section Realloc

open SlabState

variable {s : SlabState} {x y : LiveObject} {bytes : ℕ → BitVec 8} {lowMapped : Bool}
  {highVma phys size cache addr : ℕ}

section

variable (h : s.WellFormed)

include h

theorem objectSize_of_live (hx : x ∈ s.live) :
    x.addr ≠ 0 ∧ s.memory.objectSizeLoop s.made.length x.addr s.madeCaches.length
      s.memory.rootCache = some (s.memory.caches x.cache).objectSize := by
  obtain ⟨a, ha, i, hi, hcache, hset, haddr⟩ := h.placed x hx
  have hshape := h.inv.shape a ha
  have hlo := (hshape.object_inside hi).1
  have hpos := hshape.pos
  obtain ⟨p, f, hlists, honly, hin, hlisted⟩ := h.inv.located ha hi hset
  have hsize := ne_of_gt (h.inv.stride_pos ha)
  refine ⟨by omega, ?_⟩
  rw [haddr, ← hcache]
  exact SlabMemory.objectSizeLoop_spec h.inv.chain hlists honly hin (h.inv.cache_mem a ha) hlisted
    hsize le_rfl

theorem chosen_size (hcache : cache ∈ s.madeCaches)
    (hgrant : s.AllocGranted highVma cache phys) {slab : ℕ} {m : SlabMemory}
    (hchoose : s.memory.chooseSlab highVma phys cache = (slab, m)) :
    (m.caches (m.slabs slab).cache).objectSize = (s.memory.caches cache).objectSize := by
  obtain ⟨a, m', hchoose', -, hsame, -, -, e, p, f, hfiled, hcase⟩ := h.inv.choose hcache hgrant
  obtain ⟨rfl, rfl⟩ := Prod.mk.inj (hchoose.symm.trans hchoose')
  have hmem : slab ∈ e ++ p := by rcases hcase with ⟨rfl, rfl⟩ | ⟨rfl, rfl⟩ <;> simp
  rw [((hfiled.mem slab).mp (mem_append_left f hmem)).2, hsame.size cache hcache]

theorem allocObj_spec (hcache : cache ∈ s.madeCaches)
    (hgrant : s.AllocGranted highVma cache phys) :
    ∃ addr s', s.allocObj highVma phys cache = (some addr, s') ∧ s'.WellFormed ∧
      s.step highVma (.alloc cache phys) = some s' ∧ s'.live = ⟨cache, addr⟩ :: s.live ∧
      s'.madeCaches = s.madeCaches ∧
      SlabMemory.SameShape s.memory s'.memory s.made s.madeCaches := by
  have hstep := step_alloc hcache hgrant
  obtain ⟨hwell, hsame⟩ := h.step hstep
  obtain ⟨addr, m', halloc, -⟩ := h.alloc hcache hgrant
  have hfst : (s.allocObj highVma phys cache).1 = some addr := by rw [SlabState.allocObj, halloc]
  have hlive : (s.allocObj highVma phys cache).2.live = ⟨cache, addr⟩ :: s.live := by
    rw [SlabState.allocObj, halloc]
    rfl
  exact ⟨addr, _, Prod.ext hfst rfl, hwell, hstep, hlive, rfl, hsame⟩

theorem load_cleared (hcache : cache ∈ s.madeCaches)
    (hgrant : s.AllocGranted highVma cache phys) (hx : x ∈ s.live)
    (hapart : Apart addr (s.memory.caches cache).objectSize x.addr
      (s.memory.caches x.cache).objectSize) :
    load (SlabHeap.cleared highVma phys cache (some addr) ⟨s, bytes⟩) x.addr
        (s.memory.caches x.cache).objectSize =
      load bytes x.addr (s.memory.caches x.cache).objectSize := by
  obtain ⟨slab, m, hchoose⟩ : ∃ slab m, s.memory.chooseSlab highVma phys cache = (slab, m) :=
    ⟨_, _, rfl⟩
  unfold SlabHeap.cleared
  dsimp only
  rw [hchoose]
  rw [chosen_size h hcache hgrant hchoose, load_clearBytes hapart]
  split_ifs with hneeds
  · -- The pages of the new slab are not those of the slab of the object.
    obtain ⟨-, -, hend, hpages⟩ := hgrant hneeds
    obtain ⟨a, ha, i, hi, hcachea, -, haddr⟩ := h.placed x hx
    obtain ⟨hlo, hhi⟩ := (h.inv.shape a ha).object_inside hi
    have hroom := (h.inv.cache_shape cache hcache).room.2
    rw [wrap_of_lt (by omega)]
    refine load_clearBytes ?_
    have hslab := hpages a ha
    rw [SlabMemory.stride, hcachea] at hhi
    unfold Apart at hslab ⊢
    omega
  · rfl

theorem free_spec (hx : x ∈ s.live) (bytes : ℕ → BitVec 8) :
    ∃ s', SlabHeap.free x.addr ⟨s, bytes⟩ = some ⟨s', bytes⟩ ∧
      s.step highVma (.free x.addr) = some s' ∧ s'.WellFormed ∧ s'.madeCaches = s.madeCaches ∧
      s'.live = s.live.filter (fun y => y.addr ≠ x.addr) ∧
      SlabMemory.SameShape s.memory s'.memory s.made s.madeCaches := by
  obtain ⟨m', hfree, hsame, hwell⟩ := h.free hx
  have hfree' := hfree _ _ le_rfl le_rfl
  refine ⟨_, ?_, ?_, hwell, rfl, rfl, hsame⟩
  · rw [SlabHeap.free]
    rw [hfree']
    rfl
  · rw [SlabState.step, if_pos (mem_map_of_mem hx), hfree']
    rfl

theorem realloc_enough (hx : x ∈ s.live) (hsize : size ≤ (s.memory.caches x.cache).objectSize) :
    SlabHeap.realloc highVma phys lowMapped x.addr size ⟨s, bytes⟩ =
      some (some x.addr, ⟨s, bytes⟩) := by
  obtain ⟨hne, hloop⟩ := objectSize_of_live h hx
  rw [SlabHeap.realloc, if_neg hne]
  dsimp only
  rw [hloop, bind_some, if_pos hsize]

theorem realloc_small (hx : x ∈ s.live) (hsize : (s.memory.caches x.cache).objectSize < size) :
    SlabHeap.realloc highVma phys lowMapped x.addr size ⟨s, bytes⟩ =
      (SlabHeap.alloc highVma phys size ⟨s, bytes⟩).bind fun r =>
        (r.2.copyObject lowMapped r.1 x.addr (s.memory.caches x.cache).objectSize).bind
          fun copied => (copied.free x.addr).map fun released => (r.1, released) := by
  obtain ⟨hne, hloop⟩ := objectSize_of_live h hx
  rw [SlabHeap.realloc, if_neg hne]
  dsimp only
  rw [hloop, bind_some, if_neg (not_le.mpr hsize)]

theorem realloc_moves (hsizes : s.sizes = cacheSizes.reverse) {c : ℕ}
    (hc : allocSize size = some c) (hgrant : s.SizeGranted highVma phys size) (hx : x ∈ s.live)
    (hsize : (s.memory.caches x.cache).objectSize < size) (lowMapped : Bool)
    (bytes : ℕ → BitVec 8) :
    ∃ cache addr s₁ s₂ bytes', SlabHeap.realloc highVma phys lowMapped x.addr size ⟨s, bytes⟩ =
        some (some addr, ⟨s₂, bytes'⟩) ∧
      s.step highVma (.alloc cache phys) = some s₁ ∧ s₁.step highVma (.free x.addr) = some s₂ ∧
      s₂.WellFormed ∧ (s₂.memory.caches cache).objectSize = c ∧ addr ≠ x.addr ∧
      s₂.live = (⟨cache, addr⟩ :: s.live).filter (fun y => y.addr ≠ x.addr) ∧
      ((s.memory.caches x.cache).objectSize ≤ c →
        load bytes' addr (s.memory.caches x.cache).objectSize =
          load bytes x.addr (s.memory.caches x.cache).objectSize) := by
  obtain ⟨cache, hcache, hcsize, hfor⟩ := cacheFor_some h hsizes hc
  have hgranted := hgrant cache hcache hfor
  have hxcache := (h.placed x hx).cache_mem h.inv.toGeometry
  obtain ⟨addr, s₁, halloc, hwell₁, hstep₁, hlive₁, hcaches₁, hsame₁⟩ :=
    allocObj_spec h hcache hgranted
  -- The new object is apart from the old one, which has at least one byte.
  have hapart : Apart addr c x.addr (s.memory.caches x.cache).objectSize := by
    have hdisjoint := hwell₁.disjoint
    rw [hlive₁, pairwise_cons] at hdisjoint
    have hapart := hdisjoint.1 x hx
    rw [ObjectsApart, hsame₁.size _ hcache, hsame₁.size _ hxcache, hcsize] at hapart
    exact hapart
  have hne : addr ≠ x.addr := by
    have hpos := (h.inv.cache_shape _ hxcache).pos
    have hpos' := (h.inv.cache_shape _ hcache).pos
    unfold Apart at hapart
    omega
  have hx₁ := hlive₁ ▸ mem_cons_of_mem _ hx
  obtain ⟨bytes', hbytes'⟩ : ∃ bytes', bytes' = memcpy8
      (SlabHeap.cleared highVma phys cache (some addr) ⟨s, bytes⟩) addr x.addr
      (s.memory.caches x.cache).objectSize := ⟨_, rfl⟩
  obtain ⟨s₂, hfree, hstep₂, hwell₂, hcaches₂, hlive₂, hsame₂⟩ :=
    @free_spec s₁ x highVma hwell₁ hx₁ bytes'
  refine ⟨cache, addr, s₁, s₂, bytes', ?_, hstep₁, hstep₂, hwell₂, ?_, hne, hlive₁ ▸ hlive₂,
    fun hle => ?_⟩
  · rw [realloc_small h hx hsize, SlabHeap.alloc]
    rw [hfor, map_some]
    dsimp only
    rw [halloc, bind_some]
    dsimp only [SlabHeap.copyObject]
    rw [← hbytes', bind_some, hfree, map_some]
  · rw [hsame₂.size cache (hcaches₁ ▸ hcache), hsame₁.size cache hcache, hcsize]
  · have hover : Apart addr (s.memory.caches x.cache).objectSize x.addr
        (s.memory.caches x.cache).objectSize := by
      unfold Apart at hapart ⊢
      omega
    rw [hbytes', load_memcpy8 hover, load_cleared h hcache hgranted hx (hcsize.symm ▸ hapart)]

theorem realloc_loses (hsizes : s.sizes = cacheSizes.reverse)
    (hnone : allocSize size = none) (hx : x ∈ s.live)
    (hsize : (s.memory.caches x.cache).objectSize < size) {p : Option ℕ} {h' : SlabHeap}
    (hrealloc : SlabHeap.realloc highVma phys lowMapped x.addr size ⟨s, bytes⟩ = some (p, h')) :
    p = none ∧ x ∉ h'.state.live := by
  rw [realloc_small h hx hsize, SlabHeap.alloc] at hrealloc
  rw [cacheFor_none h hsizes hnone, map_some] at hrealloc
  dsimp only [SlabHeap.copyObject] at hrealloc
  cases lowMapped with
  | false => exact absurd hrealloc (by simp)
  | true =>
    obtain ⟨released, hfree, heq⟩ := map_eq_some_iff.mp hrealloc
    cases heq
    obtain ⟨m, -, rfl⟩ := map_eq_some_iff.mp hfree
    exact ⟨rfl, fun hmem => by simpa using (mem_filter.mp hmem).2⟩

end

/-- **When the contract of `realloc` holds**: in every state of a run with the caches of the kernel,
exactly for requests of less than 16384 bytes, and for those that the object has room for. -/
theorem realloc_contract_iff {tr : List (Event SlabState SlabOp)} {slabs : ℕ → Slab}
    {caches : ℕ → Cache}
    (run : Run (slabStep highVma) (start slabs caches) tr s)
    (hboot : createdSizes tr = cacheSizes) (hx : x ∈ s.live) (hsize : size < 2 ^ 64)
    (hgrant : s.SizeGranted highVma phys size) :
    (∃ p h', SlabHeap.realloc highVma phys lowMapped x.addr size ⟨s, bytes⟩ = some (p, h') ∧
      SlabHeap.Reallocated highVma phys size x ⟨s, bytes⟩ h' p) ↔
      size < 16384 ∨ size ≤ (s.memory.caches x.cache).objectSize := by
  obtain ⟨hwell, hsizes⟩ := sizes_of_run run
  rw [hboot] at hsizes
  by_cases henough : size ≤ (s.memory.caches x.cache).objectSize
  · refine iff_of_true ⟨_, _, realloc_enough hwell hx henough, ⟨x, hx, rfl, henough⟩, rfl, ?_⟩
      (.inr henough)
    exact fun hne => absurd rfl hne
  have hless := lt_of_not_ge henough
  by_cases hsmall : size < 16384
  · obtain ⟨c, hc, hlt⟩ := allocSize_spec (by omega) hsmall
    obtain ⟨cache, addr, s₁, s₂, bytes', hrealloc, hstep₁, hstep₂, -, hcsize, hne, hlive, hbytes⟩ :=
      realloc_moves hwell hsizes hc hgrant hx hless lowMapped bytes
    refine iff_of_true ⟨_, _, hrealloc, ⟨⟨cache, addr⟩, ?_, rfl, ?_⟩, ?_,
      fun _ => ⟨cache, s₁, hstep₁, hstep₂⟩⟩ (.inl hsmall)
    · rw [hlive]
      exact mem_filter.mpr ⟨mem_cons_self, by simpa using hne⟩
    · rw [hcsize]
      exact hlt.le
    · rw [min_eq_left hless.le]
      exact hbytes (by omega)
  · refine iff_of_false ?_ (by omega)
    rintro ⟨p, h', hrealloc, hcontract⟩
    by_cases hsparse : Sparse size
    · have hnone : allocSize size = none := by
        rw [allocSize_large (by omega) hsize, if_pos hsparse]
      obtain ⟨rfl, hlost⟩ := realloc_loses hwell hsizes hnone hx hless hrealloc
      exact hlost hcontract.1
    · -- The new object has 32 bytes.
      have hround : allocSize size = some 32 := by
        rw [allocSize_large (by omega) hsize, if_neg hsparse]
      obtain ⟨cache, addr, s₁, s₂, bytes', hrealloc', -, -, hwell₂, -⟩ :=
        realloc_moves hwell hsizes hround hgrant hx hless lowMapped bytes
      obtain ⟨rfl, rfl⟩ := Prod.mk.inj (Option.some.inj (hrealloc.symm.trans hrealloc'))
      obtain ⟨⟨y, hy, -, hroom⟩, -⟩ := hcontract
      have hycache := (hwell₂.placed y hy).cache_mem hwell₂.inv.toGeometry
      have hle := (hwell₂.inv.cache_shape _ hycache).le
      dsimp only at hroom
      exact hsparse (.inl (by omega))

end Realloc

theorem exists_object : ∃ tr s,
    Run (slabStep 0xffff800000000000) blankMemory tr s ∧
      createdSizes tr = cacheSizes ∧ (∀ cache ∈ s.madeCaches, ¬ s.memory.NeedsSlab cache) ∧
      s.live = [⟨0xffff800001000060, 0xffff8000010000a8⟩] ∧
      (SlabHeap.realloc 0xffff800000000000 0 true 0xffff8000010000a8 16384 ⟨s, fun _ => 0#8⟩).map
        (fun r => (r.1, r.2.state.live)) = some (none, []) := by
  obtain ⟨tr, s, run, -, hvalues⟩ := Run.computed (f := SlabState.step 0xffff800000000000)
    (P := fun tr s => createdSizes tr = cacheSizes ∧
      (∀ cache ∈ s.madeCaches, ¬ s.memory.NeedsSlab cache) ∧
      s.live = [⟨0xffff800001000060, 0xffff8000010000a8⟩] ∧
      (SlabHeap.realloc 0xffff800000000000 0 true 0xffff8000010000a8 16384 ⟨s, fun _ => 0#8⟩).map
        (fun r => (r.1, r.2.state.live)) = some (none, []))
    blankMemory (SlabState.tenCaches ++ [.alloc 0xffff800001000060 0]) (by decide +kernel)
  exact ⟨tr, s, run, hvalues⟩

theorem realloc_contract_iff_hundred : ∃ tr s p h',
    Run (slabStep 0xffff800000000000) blankMemory tr s ∧
      SlabHeap.realloc 0xffff800000000000 0 true 0xffff8000010000a8 100 ⟨s, fun _ => 0#8⟩ =
        some (p, h') ∧
      SlabHeap.Reallocated 0xffff800000000000 0 100 ⟨0xffff800001000060, 0xffff8000010000a8⟩
        ⟨s, fun _ => 0#8⟩ h' p := by
  obtain ⟨tr, s, run, hsizes, hready, hlive, -⟩ := exists_object
  have hx : ⟨0xffff800001000060, 0xffff8000010000a8⟩ ∈ s.live := by rw [hlive]; simp
  obtain ⟨p, h', hrealloc, hcontract⟩ := (realloc_contract_iff run hsizes hx (by decide)
    (SlabState.sizeGranted_of_ready hready)).mpr (.inl (by decide : 100 < 16384))
  exact ⟨tr, s, p, h', run, hrealloc, hcontract⟩

/-- **An object is lost**: `realloc` to 16384 bytes returns a null pointer, and the object that it
got is not in use any more. -/
theorem realloc_frees_on_failure : ∃ tr s h',
    Run (slabStep 0xffff800000000000) blankMemory tr s ∧
      createdSizes tr = cacheSizes ∧ s.SizeGranted 0xffff800000000000 0 16384 ∧
      s.live = [⟨0xffff800001000060, 0xffff8000010000a8⟩] ∧
      SlabHeap.realloc 0xffff800000000000 0 true 0xffff8000010000a8 16384 ⟨s, fun _ => 0#8⟩ =
        some (none, h') ∧ h'.state.live = [] := by
  obtain ⟨tr, s, run, hsizes, hready, hlive, hrealloc⟩ := exists_object
  obtain ⟨⟨p, h'⟩, hrealloc, hvalues⟩ := map_eq_some_iff.mp hrealloc
  obtain ⟨rfl, hlost⟩ := Prod.mk.inj hvalues
  exact ⟨tr, s, h', run, hsizes, SlabState.sizeGranted_of_ready hready, hlive, hrealloc, hlost⟩

end Pastoral
