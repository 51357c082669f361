import Pastoral.Lib.Macros
import Pastoral.Theory.BitArray
import Pastoral.Theory.DoublyLinked
import Pastoral.Theory.Run

/-!
# Slabs

`slab.c`: a cache has objects of one size, in slabs of 256 objects.

## Main definitions

* `cacheAllocObj`, `free`
-/

open DoublyLinked Function List Option

namespace Pastoral

/-! ## State -/

abbrev objectsPerSlab : ℕ := 256

abbrev sizeofSlab : ℕ := 56

abbrev sizeofCache : ℕ := 72

structure Slab where
  availableObjects : ℕ
  totalObjects : ℕ
  bitmap : ℕ
  bits : List (BitVec 8)
  buffer : ℕ
  cache : ℕ
  next : Option ℕ
  last : Option ℕ
  deriving DecidableEq, Repr

structure Cache where
  objectSize : ℕ
  pagesPerSlab : ℕ
  slabEmpty : Option ℕ
  slabPartial : Option ℕ
  slabFull : Option ℕ
  next : Option ℕ
  deriving DecidableEq, Repr

structure SlabMemory where
  slabs : ℕ → Slab
  caches : ℕ → Cache
  rootCache : Option ℕ

/-! ## Functions -/

def newSlab (highVma slab cache : ℕ) : Slab :=
  let bitmap := wrap (slab + sizeofSlab)
  { availableObjects := objectsPerSlab
    totalObjects := objectsPerSlab
    bitmap := bitmap
    bits := List.replicate (objectsPerSlab / 8) 0#8
    buffer := wrap (alignUp (wrap (bitmap + objectsPerSlab / 8 + (2 ^ 64 - highVma))) 16 + highVma)
    cache := cache
    next := none
    last := none }

def cacheAllocSlab (highVma phys cache : ℕ) (m : SlabMemory) : ℕ × SlabMemory :=
  let slab := wrap (phys + highVma)
  let slabs := match (m.caches cache).slabEmpty with
    | some head => update m.slabs head { m.slabs head with last := some slab }
    | none => m.slabs
  (slab, { m with
    slabs := update slabs slab
      { newSlab highVma slab cache with next := (m.caches cache).slabEmpty }
    caches := update m.caches cache { m.caches cache with slabEmpty := some slab } })

def unlinkSlab (slabs : ℕ → Slab) (slab : ℕ) : ℕ → Slab :=
  let slabs₁ := match (slabs slab).next with
    | some n => update slabs n { slabs n with last := (slabs slab).last }
    | none => slabs
  match (slabs₁ slab).last with
  | some p => update slabs₁ p { slabs₁ p with next := (slabs₁ slab).next }
  | none => slabs₁

def pushSlab (slabs : ℕ → Slab) (dest : Option ℕ) (slab : ℕ) : ℕ → Slab :=
  match dest with
  | none => update slabs slab { slabs slab with next := none, last := none }
  | some d =>
    let slabs₁ := update slabs slab { slabs slab with next := some d, last := none }
    update slabs₁ d { slabs₁ d with last := some slab }

def cacheMoveSlab (slabs : ℕ → Slab) (dest src : Option ℕ) (slab : ℕ) :
    (ℕ → Slab) × Option ℕ × Option ℕ :=
  if src = none then (slabs, dest, src)
  else
    let slabs' := unlinkSlab slabs slab
    (pushSlab slabs' dest slab, some slab, if src = some slab then (slabs' slab).next else src)

def slabAlloc (objectSize : ℕ) (b : Slab) : Option (ℕ × Slab) :=
  ((List.range b.totalObjects).find? fun i => !BitArray.test b.bits i).map fun i =>
    (wrap (b.buffer + wrap (i * objectSize)),
      { b with
        bits := BitArray.set b.bits i
        availableObjects := wrap (b.availableObjects + (2 ^ 64 - 1)) })

namespace SlabMemory

def chooseSlab (highVma phys cache : ℕ) (m : SlabMemory) : ℕ × SlabMemory :=
  match (m.caches cache).slabPartial, (m.caches cache).slabEmpty with
  | some slab, _ => (slab, m)
  | none, some slab => (slab, m)
  | none, none =>
    let (slab, m') := cacheAllocSlab highVma phys cache m
    (slab, { m' with
      caches := update m'.caches cache { m'.caches cache with slabEmpty := some slab } })

def takeObject (m : SlabMemory) (slab : ℕ) : Option ℕ × SlabMemory :=
  match slabAlloc (m.caches (m.slabs slab).cache).objectSize (m.slabs slab) with
  | some (obj, b) => (some obj, { m with slabs := update m.slabs slab b })
  | none => (none, m)

def sortSlab (m : SlabMemory) (cache slab : ℕ) : SlabMemory :=
  let c := m.caches cache
  if (m.slabs slab).availableObjects = 0 then
    let (slabs, full, part) := cacheMoveSlab m.slabs c.slabFull c.slabPartial slab
    { m with
      slabs := slabs
      caches := update m.caches cache { c with slabFull := full, slabPartial := part } }
  else if (m.slabs slab).availableObjects = wrap ((m.slabs slab).totalObjects + (2 ^ 64 - 1)) then
    let (slabs, part, empty) := cacheMoveSlab m.slabs c.slabPartial c.slabEmpty slab
    { m with
      slabs := slabs
      caches := update m.caches cache { c with slabPartial := part, slabEmpty := empty } }
  else m

def cacheAllocObj (highVma phys cache : ℕ) (m : SlabMemory) : Option ℕ × SlabMemory :=
  let (slab, m₁) := chooseSlab highVma phys cache m
  let (obj, m₂) := m₁.takeObject slab
  (obj, m₂.sortSlab cache slab)

def Contains (m : SlabMemory) (obj slab : ℕ) : Prop :=
  (m.slabs slab).buffer ≤ obj ∧
    obj < wrap ((m.slabs slab).buffer +
      wrap ((m.caches (m.slabs slab).cache).objectSize * (m.slabs slab).totalObjects))
  deriving Decidable

def returnObject (m : SlabMemory) (obj slab : ℕ) : SlabMemory :=
  let b := m.slabs slab
  { m with
    slabs := update m.slabs slab
      { b with
        bits := BitArray.clear b.bits
          (wrap (obj + (2 ^ 64 - b.buffer)) / (m.caches b.cache).objectSize)
        availableObjects := wrap (b.availableObjects + 1) } }

/-- The slab of a list that has the object. -/
def slabOf (m : SlabMemory) (obj : ℕ) : ℕ → Option ℕ → Option (Option ℕ) :=
  findNode (fun slab => (m.slabs slab).next) fun slab => m.Contains obj slab

def freed (m : SlabMemory) (obj : ℕ) : Option ℕ → Bool × SlabMemory
  | some slab => (true, m.returnObject obj slab)
  | none => (false, m)

def slabFreeObject (m : SlabMemory) (obj steps : ℕ) (head : Option ℕ) :
    Option (Bool × SlabMemory) :=
  (m.slabOf obj steps head).map (m.freed obj)

def cacheFreeObject (m : SlabMemory) (steps cache obj : ℕ) : Option (Bool × SlabMemory) :=
  (m.slabFreeObject obj steps (m.caches cache).slabPartial).bind fun r =>
    if r.1 then some r
    else r.2.slabFreeObject obj steps (r.2.caches cache).slabFull

def freeLoop (steps obj : ℕ) : ℕ → Option ℕ → SlabMemory → Option SlabMemory
  | _, none, m => some m
  | 0, some _, _ => none
  | n + 1, some cache, m =>
    (m.cacheFreeObject steps cache obj).bind fun r =>
      if r.1 then some r.2 else freeLoop steps obj n (r.2.caches cache).next r.2

def free (m : SlabMemory) (slabs caches obj : ℕ) : Option SlabMemory :=
  if obj = 0 then some m else freeLoop slabs obj caches m.rootCache m

def slabCacheCreate (highVma phys objectSize : ℕ) (m : SlabMemory) : SlabMemory :=
  let slab := wrap (phys + highVma)
  let b := newSlab highVma slab 0
  let available := wrap (b.availableObjects + (2 ^ 64 - divRoundup objectSize sizeofCache))
  { m with
    slabs := update m.slabs slab
      { b with
        cache := b.buffer
        buffer := wrap (b.buffer + sizeofCache)
        availableObjects := available
        totalObjects := available }
    caches := update m.caches b.buffer
      { objectSize := objectSize
        pagesPerSlab :=
          divRoundup (wrap (objectSize * objectsPerSlab + sizeofSlab + objectsPerSlab / 8)) pageSize
        slabEmpty := some slab
        slabPartial := none
        slabFull := none
        next := m.rootCache }
    rootCache := some b.buffer }

end SlabMemory

/-! ## Moves -/

def linksOf (slabs : ℕ → Slab) : Links ℕ := ⟨fun a => (slabs a).next, fun a => (slabs a).last⟩

def Slab.body (b : Slab) : Slab := { b with next := none, last := none }

section Moves

variable {slabs : ℕ → Slab} {slab : ℕ} {dest src : Option ℕ} {l l₁ l₂ : List ℕ}

theorem linksOf_update (slabs : ℕ → Slab) (a : ℕ) (next last : Option ℕ) :
    linksOf (update slabs a { slabs a with next := next, last := last }) =
      ⟨update (linksOf slabs).next a next, update (linksOf slabs).last a last⟩ := by
  ext1
  · funext b
    by_cases hb : b = a
    · subst hb
      simp [linksOf]
    · simp [linksOf, hb]
  · funext b
    by_cases hb : b = a
    · subst hb
      simp [linksOf]
    · simp [linksOf, hb]

theorem linksOf_setNext (slabs : ℕ → Slab) (a : ℕ) (p : Option ℕ) :
    linksOf (update slabs a { slabs a with next := p }) = (linksOf slabs).setNext a p := by
  have hupdate := linksOf_update slabs a p (slabs a).last
  rw [show update (linksOf slabs).last a (slabs a).last = (linksOf slabs).last from
    update_eq_self a _] at hupdate
  exact hupdate

theorem linksOf_setLast (slabs : ℕ → Slab) (a : ℕ) (p : Option ℕ) :
    linksOf (update slabs a { slabs a with last := p }) = (linksOf slabs).setLast a p := by
  have hupdate := linksOf_update slabs a (slabs a).next p
  rw [show update (linksOf slabs).next a (slabs a).next = (linksOf slabs).next from
    update_eq_self a _] at hupdate
  exact hupdate

theorem linksOf_unlinkSlab (slabs : ℕ → Slab) (slab : ℕ) :
    linksOf (unlinkSlab slabs slab) = (linksOf slabs).unlink slab := by
  unfold unlinkSlab Links.unlink
  cases hn : (slabs slab).next with
  | none =>
    rw [show (linksOf slabs).next slab = none from hn]
    dsimp only
    cases hp : (slabs slab).last with
    | none => rw [show (linksOf slabs).last slab = none from hp]
    | some p =>
      rw [show (linksOf slabs).last slab = some p from hp]
      exact linksOf_setNext slabs p _
  | some n =>
    rw [show (linksOf slabs).next slab = some n from hn]
    dsimp only
    have hset := linksOf_setLast slabs n (slabs slab).last
    have hlast : ((linksOf slabs).setLast n ((linksOf slabs).last slab)).last slab =
        (update slabs n { slabs n with last := (slabs slab).last } slab).last :=
      (congrFun (congrArg Links.last hset) slab).symm
    have hnext : ((linksOf slabs).setLast n ((linksOf slabs).last slab)).next slab =
        (update slabs n { slabs n with last := (slabs slab).last } slab).next :=
      (congrFun (congrArg Links.next hset) slab).symm
    rw [hlast]
    cases hp : (update slabs n { slabs n with last := (slabs slab).last } slab).last with
    | none => exact hset
    | some p =>
      rw [linksOf_setNext, hset, hnext]
      rfl

theorem linksOf_pushSlab (slabs : ℕ → Slab) (dest : Option ℕ) (slab : ℕ) :
    linksOf (pushSlab slabs dest slab) = (linksOf slabs).pushFront dest slab := by
  unfold pushSlab Links.pushFront
  cases dest with
  | none => exact linksOf_update slabs slab none none
  | some d =>
    rw [linksOf_setLast, linksOf_update]
    rfl

theorem body_update (slabs : ℕ → Slab) (a : ℕ) (next last : Option ℕ) (b : ℕ) :
    (update slabs a { slabs a with next := next, last := last } b).body = (slabs b).body := by
  by_cases hb : b = a
  · subst hb
    rw [update_self]
    rfl
  · rw [update_of_ne hb]

theorem body_unlinkSlab (slabs : ℕ → Slab) (slab b : ℕ) :
    (unlinkSlab slabs slab b).body = (slabs b).body := by
  unfold unlinkSlab
  cases (slabs slab).next with
  | none =>
    cases (slabs slab).last with
    | none => rfl
    | some p => exact body_update slabs p _ _ b
  | some n =>
    have hset := body_update slabs n (slabs n).next (slabs slab).last b
    cases (update slabs n { slabs n with last := (slabs slab).last } slab).last with
    | none => exact hset
    | some p => exact (body_update _ p _ _ b).trans hset

theorem body_pushSlab (slabs : ℕ → Slab) (dest : Option ℕ) (slab b : ℕ) :
    (pushSlab slabs dest slab b).body = (slabs b).body := by
  cases dest with
  | none => exact body_update slabs slab none none b
  | some d => exact (body_update _ d _ _ b).trans (body_update slabs slab (some d) none b)

theorem Slab.ext_body {b b' : Slab} (hbody : b.body = b'.body) (hnext : b.next = b'.next)
    (hlast : b.last = b'.last) : b = b' := by
  cases b
  simp only [Slab.body, Slab.mk.injEq] at hbody
  simp only at hnext hlast
  simp [hbody, hnext, hlast]

theorem cacheMoveSlab_spec (hsrc : IsList (linksOf slabs) none src (l₁ ++ slab :: l₂))
    (hdest : IsList (linksOf slabs) none dest l) (hnodup : (l₁ ++ slab :: l₂ ++ l).Nodup) :
    ∃ slabs' src', cacheMoveSlab slabs dest src slab = (slabs', some slab, src') ∧
      IsList (linksOf slabs') none (some slab) (slab :: l) ∧
      IsList (linksOf slabs') none src' (l₁ ++ l₂) ∧ (∀ b, (slabs' b).body = (slabs b).body) ∧
      ∀ b ∉ l₁ ++ slab :: l₂ ++ l, slabs' b = slabs b := by
  obtain ⟨hnodupSrc, hnodupDest, hdisjoint⟩ := nodup_append.mp hnodup
  have hsome : src ≠ none := by
    rw [hsrc.head_eq]
    cases l₁ <;> simp
  have hslab : slab ∉ l := fun hmem =>
    hdisjoint slab (mem_append_right _ mem_cons_self) slab hmem rfl
  -- Where the writes go to: the neighbours of the slab, the slab, and the old head.
  have hnext : ∀ b, b ∉ l₁ ++ slab :: l₂ → (linksOf slabs).next slab ≠ some b := by
    intro b hb heq
    rw [hsrc.next_eq] at heq
    exact hb (mem_append_right _ (mem_cons_of_mem _ (mem_of_head? heq)))
  have hlast : ∀ b, b ∉ l₁ ++ slab :: l₂ → (linksOf slabs).last slab ≠ some b := by
    intro b hb heq
    rw [hsrc.last_eq, or_none] at heq
    exact hb (mem_append_left _ (mem_of_getLast? heq))
  have hunlink : ∀ b, b ∉ l₁ ++ slab :: l₂ →
      ((linksOf slabs).unlink slab).next b = (linksOf slabs).next b ∧
        ((linksOf slabs).unlink slab).last b = (linksOf slabs).last b := by
    intro b hb
    rw [unlink_next, if_neg (hlast b hb), unlink_last, if_neg (hnext b hb)]
    exact ⟨rfl, rfl⟩
  have hpush : ∀ b, b ≠ slab → b ∉ l → (((linksOf slabs).unlink slab).pushFront dest slab).next b =
          ((linksOf slabs).unlink slab).next b ∧
        (((linksOf slabs).unlink slab).pushFront dest slab).last b =
          ((linksOf slabs).unlink slab).last b := by
    intro b hb hbl
    have hhead : dest ≠ some b := by
      rw [hdest.head_eq]
      exact fun heq => hbl (mem_of_head? heq)
    rw [pushFront_next, if_neg hb, pushFront_last, if_neg hhead, if_neg hb]
    exact ⟨rfl, rfl⟩
  have hlinks : linksOf (pushSlab (unlinkSlab slabs slab) dest slab) =
      ((linksOf slabs).unlink slab).pushFront dest slab := by
    rw [linksOf_pushSlab, linksOf_unlinkSlab]
  have hhead : (unlinkSlab slabs slab slab).next = (linksOf slabs).next slab := by
    have heq := congrFun (congrArg Links.next (linksOf_unlinkSlab slabs slab)) slab
    refine heq.trans ?_
    rw [unlink_next]
    split_ifs <;> rfl
  have hbody : ∀ b, (pushSlab (unlinkSlab slabs slab) dest slab b).body = (slabs b).body :=
    fun b => (body_pushSlab _ dest slab b).trans (body_unlinkSlab slabs slab b)
  refine ⟨_, _, if_neg hsome, ?_, ?_, hbody, fun b hb => ?_⟩
  · rw [hlinks]
    refine (hdest.congr fun b hb => hunlink b fun hmem => ?_).pushFront
      (nodup_cons.mpr ⟨hslab, hnodupDest⟩)
    exact hdisjoint b hmem b hb rfl
  · rw [hlinks, hhead]
    refine (hsrc.unlink hnodupSrc nofun).congr fun b hb => hpush b ?_ ?_
    · rintro rfl
      have hnot := (nodup_middle.mp hnodupSrc)
      exact (nodup_cons.mp hnot).1 hb
    · intro hmem
      refine hdisjoint b ?_ b hmem rfl
      rcases mem_append.mp hb with h₁ | h₂
      · exact mem_append_left _ h₁
      · exact mem_append_right _ (mem_cons_of_mem _ h₂)
  · have hsrc' : b ∉ l₁ ++ slab :: l₂ := fun h => hb (mem_append_left _ h)
    have hne : b ≠ slab := fun heq => hsrc' (heq ▸ mem_append_right _ mem_cons_self)
    obtain ⟨hn, hl⟩ := hpush b hne fun h => hb (mem_append_right _ h)
    obtain ⟨hn', hl'⟩ := hunlink b hsrc'
    refine Slab.ext_body (hbody b) ?_ ?_
    · exact (congrFun (congrArg Links.next hlinks) b).trans (hn.trans hn')
    · exact (congrFun (congrArg Links.last hlinks) b).trans (hl.trans hl')

end Moves

/-! ## Objects -/

section Objects

variable {b : Slab} {size i : ℕ}

theorem slabAlloc_spec (hcount : b.availableObjects = BitArray.clearCount b.bits b.totalObjects)
    (hpos : 0 < b.availableObjects) (hsmall : b.availableObjects < 2 ^ 64)
    (hend : b.buffer + b.totalObjects * size < 2 ^ 64) :
    ∃ i < b.totalObjects, BitArray.test b.bits i = false ∧
      slabAlloc size b = some (b.buffer + i * size, { b with
          bits := BitArray.set b.bits i
          availableObjects := b.availableObjects - 1 }) := by
  rw [hcount] at hpos
  obtain ⟨j, hj, hjclear⟩ := BitArray.exists_clear hpos
  have hfound : ∃ i, (range b.totalObjects).find? (fun i => !BitArray.test b.bits i) =
      some i := by
    refine isSome_iff_exists.mp (find?_isSome.mpr ⟨j, mem_range.mpr hj, ?_⟩)
    rw [hjclear]
    rfl
  obtain ⟨i, hi⟩ := hfound
  have hlt := mem_range.mp (mem_of_find?_eq_some hi)
  have hclear : BitArray.test b.bits i = false := by
    have hsome := find?_some hi
    simpa using hsome
  have hmul := Nat.mul_le_mul_right size (le_of_lt hlt)
  refine ⟨i, hlt, hclear, ?_⟩
  have hwrap : wrap (b.availableObjects + (2 ^ 64 - 1)) = b.availableObjects - 1 := by
    unfold wrap
    omega
  have haddress : wrap (b.buffer + wrap (i * size)) = b.buffer + i * size := by
    rw [wrap_of_lt (show i * size < 2 ^ 64 by omega), wrap_of_lt (by omega)]
  rw [slabAlloc, hi, map_some, hwrap, haddress]

theorem object_index (hsize : 0 < size) (hend : b.buffer + i * size < 2 ^ 64) :
    wrap (b.buffer + i * size + (2 ^ 64 - b.buffer)) / size = i := by
  have hwrap : wrap (b.buffer + i * size + (2 ^ 64 - b.buffer)) = i * size := by
    unfold wrap
    omega
  rw [hwrap, Nat.mul_div_cancel _ hsize]

end Objects

/-! ## The walks of `free` -/

namespace SlabMemory

/-- The caches from a head on. -/
abbrev Chain (m : SlabMemory) : Option ℕ → List ℕ → Prop := Linked fun c => (m.caches c).next

section Walks

variable {m : SlabMemory} {obj n steps cache slab : ℕ} {prev head : Option ℕ} {l : List ℕ}

theorem slabOf_eq (h : IsList (linksOf m.slabs) prev head l) (hn : l.length ≤ n) :
    m.slabOf obj n head = some (l.find? fun slab => m.Contains obj slab) :=
  findNode_eq h.linked hn

theorem cacheFreeObject_eq {p f : List ℕ}
    (hp : IsList (linksOf m.slabs) none (m.caches cache).slabPartial p)
    (hf : IsList (linksOf m.slabs) none (m.caches cache).slabFull f)
    (hplen : p.length ≤ steps) (hflen : f.length ≤ steps) :
    m.cacheFreeObject steps cache obj =
      some (m.freed obj ((p ++ f).find? fun slab => m.Contains obj slab)) := by
  rw [cacheFreeObject, slabFreeObject, slabOf_eq hp hplen, find?_append]
  cases p.find? fun slab => m.Contains obj slab with
  | some slab => rfl
  | none => exact congrArg (Option.map (m.freed obj)) (slabOf_eq hf hflen)

theorem freeLoop_spec {p f : ℕ → List ℕ} {cs : List ℕ} (hchain : m.Chain head cs)
    (hlists : ∀ c ∈ cs, IsList (linksOf m.slabs) none (m.caches c).slabPartial (p c) ∧
      IsList (linksOf m.slabs) none (m.caches c).slabFull (f c) ∧
      (p c).length ≤ steps ∧ (f c).length ≤ steps)
    (honly : ∀ c ∈ cs, ∀ b ∈ p c ++ f c, m.Contains obj b → b = slab)
    (hin : m.Contains obj slab) (hcache : cache ∈ cs) (hslab : slab ∈ p cache ++ f cache)
    (hn : cs.length ≤ n) : freeLoop steps obj n head m = some (m.returnObject obj slab) := by
  induction cs generalizing head n with
  | nil => exact absurd hcache (by simp)
  | cons c cs ih =>
    obtain ⟨rfl, hrest⟩ := hchain
    obtain ⟨n, rfl⟩ := Nat.exists_eq_add_one_of_ne_zero (ne_zero_of_lt hn)
    obtain ⟨hp, hf, hplen, hflen⟩ := hlists c mem_cons_self
    rw [freeLoop, cacheFreeObject_eq hp hf hplen hflen]
    cases hfind : (p c ++ f c).find? fun slab => m.Contains obj slab with
    | some b =>
      have hb := find?_some hfind
      obtain rfl := honly c mem_cons_self b (mem_of_find?_eq_some hfind)
        (by simpa using hb)
      rfl
    | none =>
      -- The slab is in the lists of another cache.
      have hne : cache ≠ c := by
        rintro rfl
        have hnot := find?_eq_none.mp hfind slab hslab
        exact hnot (by simpa using hin)
      refine ih hrest (fun c hc => hlists c (mem_cons_of_mem _ hc))
        (fun c hc => honly c (mem_cons_of_mem _ hc)) ?_ (Nat.le_of_succ_le_succ hn)
      exact (mem_cons.mp hcache).resolve_left hne

end Walks

end SlabMemory

end Pastoral
