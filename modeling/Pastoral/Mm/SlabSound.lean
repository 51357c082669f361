import Mathlib.Data.List.Pairwise
import Pastoral.Mm.Slab

/-!
# The objects of the slab allocator

Runs of `slab_cache_create`, `cache_alloc_obj` and `free`.

## Main definitions

* `SlabInv`: the invariant of the memory

## Main results

* `slabs_sound`: the objects in use are apart, after every run
-/

open DoublyLinked Function List Option Transition

namespace Pastoral

def Apart (a n b k : ℕ) : Prop := a + n ≤ b ∨ b + k ≤ a

theorem Apart.symm {a n b k : ℕ} (h : Apart a n b k) : Apart b k a n := Or.symm h

namespace SlabMemory

/-! ## Where things are -/

def extent (m : SlabMemory) (a : ℕ) : ℕ := (m.caches (m.slabs a).cache).pagesPerSlab * pageSize

def stride (m : SlabMemory) (a : ℕ) : ℕ := (m.caches (m.slabs a).cache).objectSize

def object (m : SlabMemory) (a i : ℕ) : ℕ := (m.slabs a).buffer + i * m.stride a

def pagesFor (objectSize : ℕ) : ℕ :=
  divRoundup (wrap (objectSize * objectsPerSlab + sizeofSlab + objectsPerSlab / 8)) pageSize

structure SlabShape (m : SlabMemory) (a : ℕ) : Prop where
  pos : 0 < a
  bitmap : (m.slabs a).bitmap = a + sizeofSlab
  width : (m.slabs a).bits.length = objectsPerSlab / 8
  front : a + sizeofSlab + objectsPerSlab / 8 ≤ (m.slabs a).buffer
  many : 1 < (m.slabs a).totalObjects
  few : (m.slabs a).totalObjects ≤ objectsPerSlab
  inside : m.object a (m.slabs a).totalObjects < a + m.extent a
  bound : a + m.extent a ≤ 2 ^ 64

structure CacheShape (c : Cache) : Prop where
  pos : 1 ≤ c.objectSize
  le : c.objectSize ≤ 16384
  pages : c.pagesPerSlab = pagesFor c.objectSize

def Describes (m : SlabMemory) (a c : ℕ) : Prop :=
  (m.slabs a).cache = c ∧ a + sizeofSlab + objectsPerSlab / 8 ≤ c ∧
    c + sizeofCache ≤ (m.slabs a).buffer

structure Geometry (m : SlabMemory) (made caches : List ℕ) : Prop where
  shape : ∀ a ∈ made, m.SlabShape a
  cache_mem : ∀ a ∈ made, (m.slabs a).cache ∈ caches
  apart : made.Pairwise fun a b => Apart a (m.extent a) b (m.extent b)
  cache_shape : ∀ c ∈ caches, CacheShape (m.caches c)
  descriptor : ∀ c ∈ caches, ∃ a ∈ made, m.Describes a c
  chain : m.Chain m.rootCache caches
  nodup : caches.Nodup

/-- What never changes of a slab. -/
structure SlabLayout where
  total : ℕ
  bitmap : ℕ
  width : ℕ
  buffer : ℕ
  cache : ℕ

def layout (s : Slab) : SlabLayout := ⟨s.totalObjects, s.bitmap, s.bits.length, s.buffer, s.cache⟩

/-- What never changes of a cache: the size of its objects, the pages of a slab and its successor. -/
def cacheLayout (c : Cache) : ℕ × ℕ × Option ℕ := (c.objectSize, c.pagesPerSlab, c.next)

structure SameShape (m m' : SlabMemory) (made caches : List ℕ) : Prop where
  slab : ∀ a ∈ made, layout (m'.slabs a) = layout (m.slabs a)
  desc : ∀ c ∈ caches, cacheLayout (m'.caches c) = cacheLayout (m.caches c)

section Layout

variable {m m' : SlabMemory} {made caches : List ℕ} {a b c i j x : ℕ}

namespace SameShape

variable (h : SameShape m m' made caches)

include h

theorem total (a : ℕ) (ha : a ∈ made) : (m'.slabs a).totalObjects = (m.slabs a).totalObjects :=
  congrArg SlabLayout.total (h.slab a ha)

theorem bitmap (a : ℕ) (ha : a ∈ made) : (m'.slabs a).bitmap = (m.slabs a).bitmap :=
  congrArg SlabLayout.bitmap (h.slab a ha)

theorem width (a : ℕ) (ha : a ∈ made) : (m'.slabs a).bits.length = (m.slabs a).bits.length :=
  congrArg SlabLayout.width (h.slab a ha)

theorem buffer (a : ℕ) (ha : a ∈ made) : (m'.slabs a).buffer = (m.slabs a).buffer :=
  congrArg SlabLayout.buffer (h.slab a ha)

theorem cache (a : ℕ) (ha : a ∈ made) : (m'.slabs a).cache = (m.slabs a).cache :=
  congrArg SlabLayout.cache (h.slab a ha)

theorem size (c : ℕ) (hc : c ∈ caches) : (m'.caches c).objectSize = (m.caches c).objectSize :=
  congrArg Prod.fst (h.desc c hc)

theorem pages (c : ℕ) (hc : c ∈ caches) : (m'.caches c).pagesPerSlab = (m.caches c).pagesPerSlab :=
  congrArg (fun d => d.2.1) (h.desc c hc)

theorem next (c : ℕ) (hc : c ∈ caches) : (m'.caches c).next = (m.caches c).next :=
  congrArg (fun d => d.2.2) (h.desc c hc)

end SameShape

theorem pagesFor_room {size : ℕ} (hsize : size ≤ 16384) :
    objectsPerSlab * (size + 1) ≤ pagesFor size * pageSize := by
  have hspec : size * 256 + 88 ≤ divRoundup (size * 256 + 88) 4096 * 4096 ∧
      divRoundup (size * 256 + 88) 4096 * 4096 < size * 256 + 88 + 4096 :=
    divRoundup_spec (by decide) (by omega)
  have hwrap : wrap (size * 256 + 56 + 32) = size * 256 + 88 := wrap_of_lt (by omega)
  change 256 * (size + 1) ≤ divRoundup (wrap (size * 256 + 56 + 32)) 4096 * 4096
  rw [hwrap]
  -- The pages end at a multiple of 256, and the bitmap behind one.
  omega

theorem object_le (m : SlabMemory) (a : ℕ) (hij : i < j) :
    m.object a i + m.stride a ≤ m.object a j := by
  have hmul := Nat.mul_le_mul_right (m.stride a) (Nat.succ_le_of_lt hij)
  rw [Nat.succ_mul] at hmul
  unfold object
  omega

theorem object_ge (m : SlabMemory) (a i : ℕ) : (m.slabs a).buffer ≤ m.object a i :=
  Nat.le_add_right _ _

theorem SlabShape.object_inside (h : m.SlabShape a) (hi : i < (m.slabs a).totalObjects) :
    a + sizeofSlab + objectsPerSlab / 8 ≤ m.object a i ∧
      m.object a i + m.stride a < a + m.extent a :=
  ⟨h.front.trans (m.object_ge a i), lt_of_le_of_lt (m.object_le a hi) h.inside⟩

theorem object_apart (hij : i ≠ j) :
    Apart (m.object a i) (m.stride a) (m.object a j) (m.stride a) := by
  rcases lt_or_gt_of_ne hij with hlt | hgt
  · exact .inl (m.object_le a hlt)
  · exact .inr (m.object_le a hgt)

theorem SlabShape.contains_iff (h : m.SlabShape a) :
    m.Contains x a ↔ (m.slabs a).buffer ≤ x ∧ x < m.object a (m.slabs a).totalObjects := by
  have hlt := lt_of_lt_of_le h.inside h.bound
  have hwrap : wrap ((m.slabs a).buffer +
      wrap ((m.caches (m.slabs a).cache).objectSize * (m.slabs a).totalObjects)) =
        m.object a (m.slabs a).totalObjects := by
    unfold object stride at hlt ⊢
    rw [mul_comm (m.slabs a).totalObjects] at hlt ⊢
    rw [wrap_of_lt (lt_of_le_of_lt (Nat.le_add_left _ _) hlt), wrap_of_lt hlt]
  rw [Contains, hwrap]

namespace Geometry

variable (h : Geometry m made caches)

include h

theorem extent_pos (ha : a ∈ made) : 0 < m.extent a := by
  have hinside := (h.shape a ha).inside
  have hfront := (h.shape a ha).front
  have hge := m.object_ge a (m.slabs a).totalObjects
  omega

theorem slabs_apart (ha : a ∈ made) (hb : b ∈ made) (hne : a ≠ b) :
    Apart a (m.extent a) b (m.extent b) := by
  have hsymm : Std.Symm fun a b => Apart a (m.extent a) b (m.extent b) := ⟨fun _ _ => Apart.symm⟩
  exact h.apart.forall ha hb hne

theorem eq_of_overlap (ha : a ∈ made) (hb : b ∈ made) (hx : a ≤ x ∧ x < a + m.extent a)
    (hx' : b ≤ x ∧ x < b + m.extent b) : a = b := by
  by_contra hne
  have hapart := h.slabs_apart ha hb hne
  unfold Apart at hapart
  omega

theorem stride_pos (ha : a ∈ made) : 0 < m.stride a :=
  (h.cache_shape _ (h.cache_mem a ha)).pos

theorem objects_apart (ha : a ∈ made) (hb : b ∈ made) (hi : i < (m.slabs a).totalObjects)
    (hj : j < (m.slabs b).totalObjects) (hne : a = b → i ≠ j) :
    Apart (m.object a i) (m.stride a) (m.object b j) (m.stride b) := by
  by_cases hab : a = b
  · subst hab
    exact object_apart (hne rfl)
  · have hapart := h.slabs_apart ha hb hab
    obtain ⟨hlo, hhi⟩ := (h.shape a ha).object_inside hi
    obtain ⟨hlo', hhi'⟩ := (h.shape b hb).object_inside hj
    unfold Apart at hapart ⊢
    omega

theorem front_apart (ha : a ∈ made) (hb : b ∈ made) (hi : i < (m.slabs a).totalObjects) {n : ℕ}
    (hx : b ≤ x) (hn : x + n ≤ (m.slabs b).buffer) :
    Apart (m.object a i) (m.stride a) x n := by
  obtain ⟨hlo, hhi⟩ := (h.shape a ha).object_inside hi
  by_cases hab : a = b
  · subst hab
    exact .inr (hn.trans (m.object_ge a i))
  · have hapart := h.slabs_apart ha hb hab
    have hinside := (h.shape b hb).inside
    have hge := m.object_ge b (m.slabs b).totalObjects
    unfold Apart at hapart ⊢
    omega

/-! ### Changes that keep the parts in their places -/

variable (hsame : SameShape m m' made caches)

include hsame

theorem extent_eq (ha : a ∈ made) : m'.extent a = m.extent a := by
  rw [extent, extent, hsame.cache a ha, hsame.pages _ (h.cache_mem a ha)]

theorem stride_eq (ha : a ∈ made) : m'.stride a = m.stride a := by
  rw [stride, stride, hsame.cache a ha, hsame.size _ (h.cache_mem a ha)]

theorem object_eq (ha : a ∈ made) (i : ℕ) : m'.object a i = m.object a i := by
  rw [object, object, hsame.buffer a ha, h.stride_eq hsame ha]

theorem shape_of_same (ha : a ∈ made) : m'.SlabShape a where
  pos := (h.shape a ha).pos
  bitmap := (hsame.bitmap a ha).trans (h.shape a ha).bitmap
  width := (hsame.width a ha).trans (h.shape a ha).width
  front := by
    rw [hsame.buffer a ha]
    exact (h.shape a ha).front
  many := by
    rw [hsame.total a ha]
    exact (h.shape a ha).many
  few := by
    rw [hsame.total a ha]
    exact (h.shape a ha).few
  inside := by
    rw [hsame.total a ha, h.object_eq hsame ha, h.extent_eq hsame ha]
    exact (h.shape a ha).inside
  bound := by
    rw [h.extent_eq hsame ha]
    exact (h.shape a ha).bound

theorem cache_shape_of_same (hc : c ∈ caches) : CacheShape (m'.caches c) where
  pos := by
    rw [hsame.size c hc]
    exact (h.cache_shape c hc).pos
  le := by
    rw [hsame.size c hc]
    exact (h.cache_shape c hc).le
  pages := by
    rw [hsame.size c hc, hsame.pages c hc]
    exact (h.cache_shape c hc).pages

theorem descriptor_of_same (hc : c ∈ caches) : ∃ a ∈ made, m'.Describes a c := by
  obtain ⟨a, ha, hdescribes⟩ := h.descriptor c hc
  refine ⟨a, ha, ?_⟩
  rw [Describes, hsame.cache a ha, hsame.buffer a ha]
  exact hdescribes

theorem apart_of_same : made.Pairwise fun a b => Apart a (m'.extent a) b (m'.extent b) := by
  refine h.apart.imp_of_mem fun {a b} ha hb hapart => ?_
  rw [h.extent_eq hsame ha, h.extent_eq hsame hb]
  exact hapart

theorem congr (hroot : m'.rootCache = m.rootCache) : Geometry m' made caches where
  shape _ ha := h.shape_of_same hsame ha
  cache_mem a ha := by
    rw [hsame.cache a ha]
    exact h.cache_mem a ha
  apart := h.apart_of_same hsame
  cache_shape _ hc := h.cache_shape_of_same hsame hc
  descriptor _ hc := h.descriptor_of_same hsame hc
  chain := by
    rw [hroot]
    exact Linked.congr h.chain hsame.next
  nodup := h.nodup

theorem grow {caches' : List ℕ} (hshape : m'.SlabShape a) (hcache : (m'.slabs a).cache ∈ caches')
    (hapart : ∀ b ∈ made, Apart a (m'.extent a) b (m.extent b)) (hsub : caches ⊆ caches')
    (hnew : ∀ c ∈ caches', c ∈ caches ∨ CacheShape (m'.caches c) ∧ m'.Describes a c)
    (hchain : m'.Chain m'.rootCache caches') (hnodup : caches'.Nodup) :
    Geometry m' (a :: made) caches' where
  shape b hb := by
    rcases mem_cons.mp hb with rfl | hb
    · exact hshape
    · exact h.shape_of_same hsame hb
  cache_mem b hb := by
    rcases mem_cons.mp hb with rfl | hb
    · exact hcache
    · rw [hsame.cache b hb]
      exact hsub (h.cache_mem b hb)
  apart := by
    refine pairwise_cons.mpr ⟨fun b hb => ?_, h.apart_of_same hsame⟩
    rw [h.extent_eq hsame hb]
    exact hapart b hb
  cache_shape c hc := by
    rcases hnew c hc with hold | ⟨hshape, -⟩
    · exact h.cache_shape_of_same hsame hold
    · exact hshape
  descriptor c hc := by
    rcases hnew c hc with hold | ⟨-, hdescribes⟩
    · obtain ⟨b, hb, hdescribes⟩ := h.descriptor_of_same hsame hold
      exact ⟨b, mem_cons_of_mem _ hb, hdescribes⟩
    · exact ⟨a, mem_cons_self, hdescribes⟩
  chain := hchain
  nodup := hnodup

end Geometry

end Layout

/-! ## The lists of a cache -/

structure Listed (m : SlabMemory) (made : List ℕ) (c : ℕ) (e p f : List ℕ) : Prop where
  empty : IsList (linksOf m.slabs) none (m.caches c).slabEmpty e
  part : IsList (linksOf m.slabs) none (m.caches c).slabPartial p
  full : IsList (linksOf m.slabs) none (m.caches c).slabFull f
  nodup : (e ++ p ++ f).Nodup
  mem : ∀ b, b ∈ e ++ p ++ f ↔ b ∈ made ∧ (m.slabs b).cache = c

structure Filed (m : SlabMemory) (made : List ℕ) (c : ℕ) (e p f : List ℕ) : Prop extends
    Listed m made c e p f where
  single : (e ++ p).length ≤ 1
  fresh : ∀ b ∈ e, ∀ i, BitArray.test (m.slabs b).bits i = false
  room : ∀ b ∈ p, 0 < (m.slabs b).availableObjects

structure Moved (m m' : SlabMemory) (made : List ℕ) (c : ℕ) : Prop where
  body : ∀ b, (m'.slabs b).body = (m.slabs b).body
  others : ∀ b ∈ made, (m.slabs b).cache ≠ c → m'.slabs b = m.slabs b
  caches : ∀ d, d ≠ c → m'.caches d = m.caches d
  desc : cacheLayout (m'.caches c) = cacheLayout (m.caches c)
  root : m'.rootCache = m.rootCache

section Lists

variable {m m' : SlabMemory} {made made' caches : List ℕ} {a b c d : ℕ} {e p f : List ℕ}

theorem Listed.congr (h : Listed m made d e p f)
    (hempty : (m'.caches d).slabEmpty = (m.caches d).slabEmpty)
    (hpart : (m'.caches d).slabPartial = (m.caches d).slabPartial)
    (hfull : (m'.caches d).slabFull = (m.caches d).slabFull)
    (hlinks : ∀ b ∈ e ++ p ++ f, (m'.slabs b).next = (m.slabs b).next ∧
      (m'.slabs b).last = (m.slabs b).last)
    (hmem : ∀ b, b ∈ made' ∧ (m'.slabs b).cache = d ↔ b ∈ made ∧ (m.slabs b).cache = d) :
    Listed m' made' d e p f where
  empty := by
    rw [hempty]
    exact h.empty.congr fun b hb => hlinks b (by simp [hb])
  part := by
    rw [hpart]
    exact h.part.congr fun b hb => hlinks b (by simp [hb])
  full := by
    rw [hfull]
    exact h.full.congr fun b hb => hlinks b (by simp [hb])
  nodup := h.nodup
  mem b := (h.mem b).trans (hmem b).symm

theorem Filed.other (h : Filed m made d e p f) (hcache : m'.caches d = m.caches d)
    (hsame : ∀ b ∈ made, (m.slabs b).cache = d → m'.slabs b = m.slabs b)
    (hmem : ∀ b, b ∈ made' ∧ (m'.slabs b).cache = d ↔ b ∈ made ∧ (m.slabs b).cache = d) :
    Filed m' made' d e p f := by
  have hslab : ∀ b ∈ e ++ p ++ f, m'.slabs b = m.slabs b := fun b hb =>
    hsame b ((h.mem b).mp hb).1 ((h.mem b).mp hb).2
  refine ⟨h.toListed.congr ?_ ?_ ?_ (fun b hb => ?_) hmem, h.single, fun b hb => ?_, fun b hb => ?_⟩
  · rw [hcache]
  · rw [hcache]
  · rw [hcache]
  · rw [hslab b hb]
    exact ⟨rfl, rfl⟩
  · rw [hslab b (by simp [hb])]
    exact h.fresh b hb
  · rw [hslab b (by simp [hb])]
    exact h.room b hb

theorem Listed.subset (h : Listed m made c e p f) : e ++ p ++ f ⊆ made := fun b hb =>
  ((h.mem b).mp hb).1

theorem Listed.length_le (h : Listed m made c e p f) :
    p.length ≤ made.length ∧ f.length ≤ made.length := by
  have hle := (subperm_of_subset h.nodup h.subset).length_le
  simp only [length_append] at hle
  omega

theorem Moved.refl (m : SlabMemory) (made : List ℕ) (c : ℕ) : Moved m m made c :=
  ⟨fun _ => rfl, fun _ _ _ => rfl, fun _ _ => rfl, rfl, rfl⟩

theorem Moved.cache (h : Moved m m' made c) (b : ℕ) : (m'.slabs b).cache = (m.slabs b).cache :=
  (congrArg Slab.cache (h.body b) :)

theorem Moved.sameShape (h : Moved m m' made c) (made₀ caches : List ℕ) :
    SameShape m m' made₀ caches where
  slab b _ := (congrArg layout (h.body b) :)
  desc d _ := by
    by_cases hd : d = c
    · rw [hd, h.desc]
    · rw [h.caches d hd]

theorem Moved.of_move {slabs' : ℕ → Slab} {k : Cache} {l : List ℕ} (h : Listed m made c e p f)
    (hbody : ∀ b, (slabs' b).body = (m.slabs b).body) (hothers : ∀ b ∉ l, slabs' b = m.slabs b)
    (hl : l ⊆ e ++ p ++ f) (hdesc : cacheLayout k = cacheLayout (m.caches c)) :
    Moved m { m with slabs := slabs', caches := update m.caches c k } made c where
  body := hbody
  others b _ hb := hothers b fun hmem => hb ((h.mem b).mp (hl hmem)).2
  caches _ hd := update_of_ne hd _ _
  desc := by simpa using hdesc
  root := rfl

theorem sortSlab_spec (h : Listed m made c e p f) (hcase : e = [a] ∧ p = [] ∨ e = [] ∧ p = [a])
    (htotal : 1 < (m.slabs a).totalObjects) (hsmall : (m.slabs a).totalObjects < 2 ^ 64)
    (hempty : e = [a] → (m.slabs a).availableObjects = (m.slabs a).totalObjects - 1) :
    Moved m (m.sortSlab c a) made c ∧
      (0 < (m.slabs a).availableObjects ∧ Listed (m.sortSlab c a) made c [] [a] f ∨
        (m.slabs a).availableObjects = 0 ∧ Listed (m.sortSlab c a) made c [] [] (a :: f)) := by
  have hwrap : wrap ((m.slabs a).totalObjects + (2 ^ 64 - 1)) = (m.slabs a).totalObjects - 1 := by
    unfold wrap
    omega
  have hnodup := h.nodup
  unfold sortSlab
  rw [hwrap]
  rcases hcase with ⟨rfl, rfl⟩ | ⟨rfl, rfl⟩
  · -- The slab was empty, and an object is left in it.
    have hleft := hempty rfl
    rw [if_neg (by omega), if_pos hleft]
    obtain ⟨slabs', src', hmove, hpart, hempty', hbody, hothers⟩ :=
      @cacheMoveSlab_spec m.slabs a _ _ [] [] [] h.empty h.part (by simp)
    rw [hmove]
    have hmoved : Moved m { m with
        slabs := slabs'
        caches := update m.caches c
          { m.caches c with slabPartial := some a, slabEmpty := src' } } made c :=
      .of_move h hbody hothers (by simp) rfl
    refine ⟨hmoved, .inl ⟨by omega, ?_, ?_, ?_, hnodup, fun b => ?_⟩⟩
    · simpa using hempty'
    · simpa using hpart
    · have hfull : IsList (linksOf slabs') none (m.caches c).slabFull f :=
        h.full.congr fun b hb => by
          have hba : b ≠ a := fun heq => (nodup_cons.mp hnodup).1 (heq ▸ hb)
          have hslab := hothers b (by simpa using hba)
          exact ⟨congrArg Slab.next hslab, congrArg Slab.last hslab⟩
      simpa using hfull
    · rw [hmoved.cache b]
      exact h.mem b
  · have hnone := h.empty
    by_cases hzero : (m.slabs a).availableObjects = 0
    · -- The last object was taken.
      rw [if_pos hzero]
      obtain ⟨slabs', src', hmove, hfull, hpart, hbody, hothers⟩ :=
        @cacheMoveSlab_spec m.slabs a _ _ f [] [] h.part h.full hnodup
      rw [hmove]
      have hmoved : Moved m { m with
          slabs := slabs'
          caches := update m.caches c
            { m.caches c with slabFull := some a, slabPartial := src' } } made c :=
        .of_move h hbody hothers (by simp) rfl
      refine ⟨hmoved, .inr ⟨hzero, ?_, ?_, ?_, hnodup, fun b => ?_⟩⟩
      · have hlist : IsList (linksOf slabs') none (m.caches c).slabEmpty [] := hnone
        simpa using hlist
      · simpa using hpart
      · simpa using hfull
      · rw [hmoved.cache b]
        exact h.mem b
    · -- The counter may read as if the slab came from the list of empty ones, which has no head.
      have hstay : cacheMoveSlab m.slabs (m.caches c).slabPartial (m.caches c).slabEmpty a =
          (m.slabs, (m.caches c).slabPartial, (m.caches c).slabEmpty) := if_pos hnone
      have hself := update_eq_self c m.caches
      rw [if_neg hzero, hstay]
      dsimp only
      rw [hself, ite_self]
      exact ⟨Moved.refl m made c, .inl ⟨pos_of_ne_zero hzero, h⟩⟩

end Lists

/-! ## The invariant -/

structure SlabInv (m : SlabMemory) (made caches : List ℕ) : Prop extends
    Geometry m made caches where
  counted : ∀ a ∈ made, (m.slabs a).availableObjects =
    BitArray.clearCount (m.slabs a).bits (m.slabs a).totalObjects
  filed : ∀ c ∈ caches, ∃ e p f, Filed m made c e p f

def Granted (m : SlabMemory) (made : List ℕ) (highVma pages phys : ℕ) : Prop :=
  phys % pageSize = 0 ∧ 0 < phys + highVma ∧ phys + highVma + pages * pageSize ≤ 2 ^ 64 ∧
    ∀ b ∈ made, Apart (phys + highVma) (pages * pageSize) b (m.extent b)

def NeedsSlab (m : SlabMemory) (c : ℕ) : Prop :=
  (m.caches c).slabPartial = none ∧ (m.caches c).slabEmpty = none
  deriving Decidable

instance (m : SlabMemory) (made : List ℕ) (highVma pages phys : ℕ) :
    Decidable (m.Granted made highVma pages phys) := by
  unfold Granted Apart
  infer_instance

def tally (m : SlabMemory) (a : ℕ) (bits : List (BitVec 8)) (n : ℕ) : SlabMemory :=
  { m with
    slabs := update m.slabs a { m.slabs a with bits := bits, availableObjects := n } }

def blankSlab (a c buffer n : ℕ) : Slab :=
  { availableObjects := n
    totalObjects := n
    bitmap := a + 56
    bits := List.replicate 32 0#8
    buffer := buffer
    cache := c
    next := none
    last := none }

def addSlab (m : SlabMemory) (a : ℕ) (b : Slab) (k : Cache) (root : Option ℕ) : SlabMemory :=
  { slabs := update m.slabs a b
    caches := update m.caches b.cache k
    rootCache := root }

def addEmpty (m : SlabMemory) (a c : ℕ) : SlabMemory :=
  m.addSlab a (blankSlab a c (a + 96) 256) { m.caches c with slabEmpty := some a } m.rootCache

def addRoot (m : SlabMemory) (a size : ℕ) : SlabMemory :=
  m.addSlab a (blankSlab a (a + 96) (a + 168) (256 - (size + 71) / 72))
    { objectSize := size
      pagesPerSlab := pagesFor size
      slabEmpty := some a
      slabPartial := none
      slabFull := none
      next := m.rootCache }
    (some (a + 96))

section Invariant

variable {m m' m'' : SlabMemory} {made caches : List ℕ} {a b c i highVma phys : ℕ}
  {e p f : List ℕ}

theorem SameShape.trans (h : SameShape m m' made caches) (h' : SameShape m' m'' made caches) :
    SameShape m m'' made caches where
  slab b hb := (h'.slab b hb).trans (h.slab b hb)
  desc d hd := (h'.desc d hd).trans (h.desc d hd)

theorem tally_self (m : SlabMemory) (a : ℕ) (bits : List (BitVec 8)) (n : ℕ) :
    (m.tally a bits n).slabs a = { m.slabs a with bits := bits, availableObjects := n } :=
  update_self _ _ _

theorem tally_other (m : SlabMemory) (bits : List (BitVec 8)) (n : ℕ) (hb : b ≠ a) :
    (m.tally a bits n).slabs b = m.slabs b :=
  update_of_ne hb _ _

theorem tally_proj {β : Type*} (m : SlabMemory) (a : ℕ) (bits : List (BitVec 8)) (n : ℕ)
    (g : Slab → β)
    (hg : g { m.slabs a with bits := bits, availableObjects := n } = g (m.slabs a)) (b : ℕ) :
    g ((m.tally a bits n).slabs b) = g (m.slabs b) := by
  by_cases hb : b = a
  · subst hb
    rw [tally_self, hg]
  · rw [tally_other m bits n hb]

theorem SameShape.of_tally {bits : List (BitVec 8)} {n : ℕ}
    (hbits : bits.length = (m.slabs a).bits.length) :
    SameShape m (m.tally a bits n) made caches where
  slab b _ := tally_proj m a bits n layout (by simp [layout, hbits]) b
  desc _ _ := rfl

/-! ### New slabs -/

theorem newSlab_eq (cache : ℕ) (hphys : phys % pageSize = 0)
    (hend : phys + highVma + 512 ≤ 2 ^ 64) :
    newSlab highVma (phys + highVma) cache =
      blankSlab (phys + highVma) cache (phys + highVma + 96) 256 := by
  have hbitmap : wrap (phys + highVma + 56) = phys + highVma + 56 := wrap_of_lt (by omega)
  have hback : wrap (phys + highVma + 56 + 32 + (2 ^ 64 - highVma)) = phys + 88 := by
    unfold wrap
    omega
  obtain ⟨hdvd, hle, hlt⟩ : 16 ∣ alignUp (phys + 88) 16 ∧ phys + 88 ≤ alignUp (phys + 88) 16 ∧
      alignUp (phys + 88) 16 < phys + 88 + 16 := alignUp_spec (by decide) (by omega)
  have halign : alignUp (phys + 88) 16 = phys + 96 := by
    have hmod : phys % 4096 = 0 := hphys
    omega
  have hbuffer : wrap (phys + 96 + highVma) = phys + highVma + 96 := by
    rw [wrap_of_lt] <;> omega
  have hbuffer' : wrap (alignUp (wrap (wrap (phys + highVma + 56) + 32 + (2 ^ 64 - highVma))) 16 +
      highVma) = phys + highVma + 96 := by
    rw [hbitmap, hback, halign, hbuffer]
  exact congrArg₂ (fun bitmap buffer =>
    (⟨256, 256, bitmap, replicate 32 0#8, buffer, cache, none, none⟩ : Slab)) hbitmap hbuffer'

theorem Granted.not_mem (h : Granted m made highVma c phys) (hgeo : Geometry m made caches)
    (hpos : 0 < c * pageSize) : phys + highVma ∉ made := by
  intro hmem
  have hapart := h.2.2.2 _ hmem
  have hextent := hgeo.extent_pos hmem
  unfold Apart at hapart
  omega

theorem CacheShape.room {k : Cache} (h : CacheShape k) :
    256 * (k.objectSize + 1) ≤ k.pagesPerSlab * pageSize ∧ 512 ≤ k.pagesPerSlab * pageSize := by
  have hroom := pagesFor_room h.le
  have hpos := h.pos
  rw [h.pages]
  refine ⟨hroom, le_trans ?_ hroom⟩
  change 512 ≤ 256 * (k.objectSize + 1)
  omega

section AddSlab

variable {k : Cache} {root : Option ℕ} {buffer n : ℕ}

theorem addSlab_self (m : SlabMemory) (a : ℕ) (b : Slab) (k : Cache) (root : Option ℕ) :
    (m.addSlab a b k root).slabs a = b := update_self _ _ _

theorem addSlab_other (m : SlabMemory) (s : Slab) (k : Cache) (root : Option ℕ) (hb : b ≠ a) :
    (m.addSlab a s k root).slabs b = m.slabs b := update_of_ne hb _ _

theorem addSlab_cache (m : SlabMemory) (a : ℕ) (b : Slab) (k : Cache) (root : Option ℕ) :
    (m.addSlab a b k root).caches b.cache = k := update_self _ _ _

theorem addSlab_cache_other (m : SlabMemory) (a : ℕ) (s : Slab) (k : Cache) (root : Option ℕ)
    (hc : c ≠ s.cache) : (m.addSlab a s k root).caches c = m.caches c :=
  update_of_ne hc _ _

theorem SlabShape.of_blank (hpos : 0 < a) (hbuffer : a + 88 ≤ buffer) (hmany : 1 < n)
    (hfew : n ≤ 256) (hinside : buffer + n * k.objectSize < a + k.pagesPerSlab * pageSize)
    (hend : a + k.pagesPerSlab * pageSize ≤ 2 ^ 64) :
    (m.addSlab a (blankSlab a c buffer n) k root).SlabShape a := by
  have hextent : (m.addSlab a (blankSlab a c buffer n) k root).extent a =
      k.pagesPerSlab * pageSize := by
    rw [extent, addSlab_self, addSlab_cache]
  have hobject : (m.addSlab a (blankSlab a c buffer n) k root).object a n =
      buffer + n * k.objectSize := by
    rw [object, stride, addSlab_self, addSlab_cache, blankSlab]
  constructor
  case pos => exact hpos
  case bound => rwa [hextent]
  all_goals rw [addSlab_self]
  case bitmap => rfl
  case width => rfl
  case front => exact hbuffer
  case many => exact hmany
  case few => exact hfew
  case inside =>
    rw [hextent]
    exact hobject.trans_lt hinside

structure FullSlabs (m : SlabMemory) (made : List ℕ) (c : ℕ) (head : Option ℕ) (f : List ℕ) :
    Prop where
  full : IsList (linksOf m.slabs) none head f
  nodup : f.Nodup
  mem : ∀ b, b ∈ f ↔ b ∈ made ∧ (m.slabs b).cache = c

theorem Filed.of_blank (hnot : a ∉ made) (hfull : FullSlabs m made c k.slabFull f)
    (hempty : k.slabEmpty = some a) (hpart : k.slabPartial = none) :
    Filed (m.addSlab a (blankSlab a c buffer n) k root) (a :: made) c [a] [] f := by
  have hself := m.addSlab_self a (blankSlab a c buffer n) k root
  have hcache : (m.addSlab a (blankSlab a c buffer n) k root).caches c = k :=
    m.addSlab_cache a (blankSlab a c buffer n) k root
  have hnotf : a ∉ f := fun hmem => hnot ((hfull.mem a).mp hmem).1
  refine ⟨⟨?_, ?_, ?_, ?_, fun b => ?_⟩, by simp, ?_, by simp⟩
  · rw [hcache]
    exact ⟨hempty, congrArg Slab.last hself, congrArg Slab.next hself⟩
  · rw [hcache]
    exact hpart
  · rw [hcache]
    refine hfull.full.congr fun b hb => ?_
    have hslab := m.addSlab_other (blankSlab a c buffer n) k root
      (show b ≠ a from fun heq => hnotf (heq ▸ hb))
    exact ⟨congrArg Slab.next hslab, congrArg Slab.last hslab⟩
  · exact nodup_cons.mpr ⟨hnotf, hfull.nodup⟩
  · by_cases hb : b = a
    · subst hb
      rw [hself]
      exact iff_of_true mem_cons_self ⟨mem_cons_self, rfl⟩
    · rw [m.addSlab_other _ _ _ hb, mem_cons, or_iff_right hb, ← hfull.mem b]
      simp [hb]
  · intro b hb i
    obtain rfl := mem_singleton.mp hb
    rw [hself]
    exact BitArray.test_replicate_zero 32 i

theorem SlabInv.add {caches' : List ℕ} (h : SlabInv m made caches) (hnot : a ∉ made)
    (hgeo : Geometry (m.addSlab a (blankSlab a c buffer n) k root) (a :: made) caches')
    (hsub : ∀ d ∈ caches', d = c ∨ d ∈ caches) (hfull : FullSlabs m made c k.slabFull f)
    (hempty : k.slabEmpty = some a) (hpart : k.slabPartial = none) :
    SlabInv (m.addSlab a (blankSlab a c buffer n) k root) (a :: made) caches' := by
  have hself := m.addSlab_self a (blankSlab a c buffer n) k root
  have hmade : ∀ b ∈ made, (m.addSlab a (blankSlab a c buffer n) k root).slabs b = m.slabs b :=
    fun b hb => m.addSlab_other _ _ _ fun heq => hnot (heq ▸ hb)
  refine ⟨hgeo, fun b hb => ?_, fun d hd => ?_⟩
  · rcases mem_cons.mp hb with rfl | hb
    · rw [hself]
      exact (BitArray.clearCount_zeros 32 n).symm
    · rw [hmade b hb]
      exact h.counted b hb
  · by_cases hdc : d = c
    · rw [hdc]
      exact ⟨_, _, _, Filed.of_blank hnot hfull hempty hpart⟩
    · obtain ⟨e, p, f, hfiled⟩ := h.filed d ((hsub d hd).resolve_left hdc)
      refine ⟨e, p, f, hfiled.other (m.addSlab_cache_other a _ k root hdc)
        (fun b hb _ => hmade b hb) fun b => ?_⟩
      by_cases hb : b = a
      · subst hb
        rw [hself]
        exact iff_of_false (fun hand => hdc hand.2.symm) fun hand => hnot hand.1
      · rw [m.addSlab_other _ _ _ hb, mem_cons, or_iff_right hb]

end AddSlab

theorem SlabInv.newSlab (h : SlabInv m made caches) (hc : c ∈ caches) (hneeds : m.NeedsSlab c)
    (hgrant : m.Granted made highVma (m.caches c).pagesPerSlab phys) :
    ∃ m', m.chooseSlab highVma phys c = (phys + highVma, m') ∧
      SlabInv m' ((phys + highVma) :: made) caches ∧ SameShape m m' made caches ∧
      (∀ b ∈ made, m'.slabs b = m.slabs b) ∧
      ∃ f, Filed m' ((phys + highVma) :: made) c [phys + highVma] [] f := by
  obtain ⟨hpart, hempty⟩ := hneeds
  obtain ⟨e, p, f, hfiled⟩ := h.filed c hc
  obtain rfl : e = [] := head?_eq_none_iff.mp (hfiled.empty.head_eq.symm.trans hempty)
  obtain rfl : p = [] := head?_eq_none_iff.mp (hfiled.part.head_eq.symm.trans hpart)
  have hcache := h.cache_shape c hc
  have hroom := hcache.room
  have hnot := hgrant.not_mem h.toGeometry (by omega)
  obtain ⟨hphys, hpos, hend, hapart⟩ := hgrant
  have hwrap : wrap (phys + highVma) = phys + highVma := wrap_of_lt (by omega)
  have hnew := newSlab_eq c hphys (show phys + highVma + 512 ≤ 2 ^ 64 by omega)
  generalize ha : phys + highVma = a at *
  have hchoose : m.chooseSlab highVma phys c = (a, m.addEmpty a c) := by
    rw [chooseSlab, hpart]
    simp only [cacheAllocSlab, ha, hwrap, hempty, hnew, update_self,
      update_idem]
    rfl
  have hmade : ∀ b ∈ made, (m.addEmpty a c).slabs b = m.slabs b :=
    fun b hb => m.addSlab_other _ _ _ fun heq => hnot (heq ▸ hb)
  have hsame : SameShape m (m.addEmpty a c) made caches := by
    have hk : (m.addEmpty a c).caches c = { m.caches c with slabEmpty := some a } :=
      m.addSlab_cache a (blankSlab a c (a + 96) 256) _ _
    have hothers : ∀ d, d ≠ c → (m.addEmpty a c).caches d = m.caches d :=
      fun d hd => m.addSlab_cache_other a _ _ _ hd
    refine ⟨fun b hb => congrArg layout (hmade b hb), fun d _ => ?_⟩
    by_cases hd : d = c
    · rw [hd, hk]
      rfl
    · rw [hothers d hd]
  have hfull : FullSlabs m made c (m.caches c).slabFull f :=
    ⟨hfiled.full, hfiled.nodup, hfiled.mem⟩
  refine ⟨_, hchoose, h.add hnot ?_ (fun d hd => .inr hd) hfull rfl hpart, hsame, hmade, f,
    .of_blank hnot hfull rfl hpart⟩
  refine h.toGeometry.grow hsame ?_ ?_ ?_ (fun _ hd => hd) (fun d hd => .inl hd) ?_ h.nodup
  · refine .of_blank hpos (by omega) (by decide) le_rfl ?_ hend
    change a + 96 + 256 * (m.caches c).objectSize < a + (m.caches c).pagesPerSlab * pageSize
    omega
  · rw [addEmpty, addSlab_self]
    exact hc
  · rw [extent, addEmpty, addSlab_self, addSlab_cache]
    exact hapart
  · exact Linked.congr h.chain hsame.next

theorem slabCacheCreate_eq {size : ℕ} (m : SlabMemory) (hle : size ≤ 16384)
    (hphys : phys % pageSize = 0) (hend : phys + highVma + 512 ≤ 2 ^ 64) :
    m.slabCacheCreate highVma phys size = m.addRoot (phys + highVma) size := by
  have hwrap : wrap (phys + highVma) = phys + highVma := wrap_of_lt (by omega)
  have hnew := newSlab_eq 0 hphys hend
  have hobjects : divRoundup size 72 = (size + 71) / 72 := divRoundup_of_lt (by omega)
  have havailable : wrap (256 + (2 ^ 64 - divRoundup size 72)) = 256 - (size + 71) / 72 := by
    rw [wrap]
    omega
  have hbuffer : wrap (phys + highVma + 96 + 72) = phys + highVma + 168 := wrap_of_lt (by omega)
  unfold slabCacheCreate
  dsimp only
  rw [hwrap, hnew]
  dsimp only [blankSlab, addRoot]
  rw [havailable, hbuffer]
  rfl

theorem Geometry.fresh_descriptor (h : Geometry m made caches) {pages : ℕ}
    (hapart : ∀ b ∈ made, Apart a (pages * pageSize) b (m.extent b))
    (hpages : 512 ≤ pages * pageSize) : a + 96 ∉ caches := by
  intro hmem
  obtain ⟨b, hb, -, hlo, hhi⟩ := h.descriptor _ hmem
  have hinside := (h.shape b hb).inside
  have hge := m.object_ge b (m.slabs b).totalObjects
  have hapartb := hapart b hb
  unfold Apart at hapartb
  omega

theorem SlabInv.create {size : ℕ} (h : SlabInv m made caches) (hpos : 1 ≤ size)
    (hle : size ≤ 16384) (hstart : 0 < a) (hend : a + pagesFor size * pageSize ≤ 2 ^ 64)
    (hapart : ∀ b ∈ made, Apart a (pagesFor size * pageSize) b (m.extent b)) (hnot : a ∉ made) :
    SlabInv (m.addRoot a size) (a :: made) ((a + 96) :: caches) ∧
      SameShape m (m.addRoot a size) made caches ∧
      (∀ b ∈ made, (m.addRoot a size).slabs b = m.slabs b) ∧
      ∀ d ∈ caches, (m.addRoot a size).caches d = m.caches d := by
  have hshape : CacheShape ⟨size, pagesFor size, some a, none, none, m.rootCache⟩ :=
    ⟨hpos, hle, rfl⟩
  have hroom : 256 * (size + 1) ≤ pagesFor size * pageSize ∧ 512 ≤ pagesFor size * pageSize :=
    hshape.room
  have hfresh := h.fresh_descriptor hapart hroom.2
  have hmade : ∀ b ∈ made, (m.addRoot a size).slabs b = m.slabs b :=
    fun b hb => m.addSlab_other _ _ _ fun heq => hnot (heq ▸ hb)
  have hself : (m.addRoot a size).caches (a + 96) =
      ⟨size, pagesFor size, some a, none, none, m.rootCache⟩ :=
    m.addSlab_cache a (blankSlab a (a + 96) (a + 168) (256 - (size + 71) / 72)) _ _
  have hothers : ∀ d ∈ caches, (m.addRoot a size).caches d = m.caches d :=
    fun d hd => m.addSlab_cache_other a _ _ _ fun heq : d = a + 96 => hfresh (heq ▸ hd)
  have hsame : SameShape m (m.addRoot a size) made caches :=
    ⟨fun b hb => congrArg layout (hmade b hb), fun d hd => congrArg cacheLayout (hothers d hd)⟩
  have hnone : FullSlabs m made (a + 96) none [] :=
    ⟨rfl, nodup_nil, fun b => iff_of_false not_mem_nil fun hb =>
      hfresh (hb.2 ▸ h.cache_mem b hb.1)⟩
  refine ⟨h.add hnot ?_ (fun d hd => mem_cons.mp hd) hnone rfl rfl, hsame, hmade, hothers⟩
  refine h.toGeometry.grow hsame ?_ ?_ ?_ (subset_cons_self _ _) (fun d hd => ?_) ?_
    (nodup_cons.mpr ⟨hfresh, h.nodup⟩)
  · refine .of_blank hstart (by omega) (by omega) (by omega) ?_ hend
    change a + 168 + (256 - (size + 71) / 72) * size < a + pagesFor size * pageSize
    have hmul : (256 - (size + 71) / 72) * size ≤ 256 * size :=
      Nat.mul_le_mul_right size (Nat.sub_le _ _)
    omega
  · rw [addRoot, addSlab_self]
    exact mem_cons_self
  · rw [extent, addRoot, addSlab_self, addSlab_cache]
    exact hapart
  · rcases mem_cons.mp hd with rfl | hd
    · refine .inr ⟨?_, ?_⟩
      · rw [hself]
        exact ⟨hpos, hle, rfl⟩
      · rw [Describes, addRoot, addSlab_self]
        refine ⟨rfl, ?_, le_rfl⟩
        change a + 56 + 32 ≤ a + 96
        omega
    · exact .inl hd
  · refine ⟨rfl, ?_⟩
    dsimp only
    rw [hself]
    exact Linked.congr h.chain hsame.next

/-! ### Objects taken and given back -/

theorem Listed.tally (h : Listed m made c e p f) (a : ℕ) (bits : List (BitVec 8)) (n : ℕ) :
    Listed (m.tally a bits n) made c e p f := by
  refine h.congr rfl rfl rfl (fun b _ => ⟨?_, ?_⟩) fun b => ?_
  · exact tally_proj m a bits n Slab.next rfl b
  · exact tally_proj m a bits n Slab.last rfl b
  · rw [tally_proj m a bits n Slab.cache rfl b]

theorem SlabInv.counted_tally (h : SlabInv m made caches) {bits : List (BitVec 8)} {n : ℕ}
    (hn : n = BitArray.clearCount bits (m.slabs a).totalObjects) (hb : b ∈ made) :
    ((m.tally a bits n).slabs b).availableObjects =
      BitArray.clearCount ((m.tally a bits n).slabs b).bits
        ((m.tally a bits n).slabs b).totalObjects := by
  by_cases hba : b = a
  · subst hba
    rw [tally_self]
    exact hn
  · rw [tally_other m bits n hba]
    exact h.counted b hb

theorem SlabInv.filed_tally (h : SlabInv m made caches) (ha : a ∈ made) (hc : c ∈ caches)
    (hne : c ≠ (m.slabs a).cache) (bits : List (BitVec 8)) (n : ℕ) :
    ∃ e p f, Filed (m.tally a bits n) made c e p f := by
  obtain ⟨e, p, f, hfiled⟩ := h.filed c hc
  refine ⟨e, p, f, hfiled.other rfl (fun b _ hcache => tally_other m bits n ?_) fun b => ?_⟩
  · rintro rfl
    exact hne hcache.symm
  · rw [tally_proj m a bits n Slab.cache rfl b]

section Objects

variable (h : SlabInv m made caches)

include h

theorem SlabInv.available_pos (hfiled : Filed m made c e p f) (ha : a ∈ e ++ p) :
    0 < (m.slabs a).availableObjects := by
  rcases mem_append.mp ha with hempty | hpart
  · have hmade := hfiled.subset (by simp [hempty] : a ∈ e ++ p ++ f)
    rw [h.counted a hmade, BitArray.clearCount_of_clear fun i _ => hfiled.fresh a hempty i]
    exact Nat.lt_of_succ_lt (h.shape a hmade).many
  · exact hfiled.room a hpart

theorem SlabInv.available_le (ha : a ∈ made) :
    (m.slabs a).availableObjects ≤ (m.slabs a).totalObjects := by
  rw [h.counted a ha]
  exact BitArray.clearCount_le _ _

theorem SlabInv.in_bitmap (ha : a ∈ made) (hi : i < (m.slabs a).totalObjects) :
    i < 8 * (m.slabs a).bits.length := by
  rw [(h.shape a ha).width]
  exact lt_of_lt_of_le hi (h.shape a ha).few

theorem SlabInv.take (ha : a ∈ made) (hpos : 0 < (m.slabs a).availableObjects) :
    ∃ i < (m.slabs a).totalObjects, BitArray.test (m.slabs a).bits i = false ∧
      m.takeObject a = (some (m.object a i),
        m.tally a (BitArray.set (m.slabs a).bits i) ((m.slabs a).availableObjects - 1)) := by
  have hshape := h.shape a ha
  have hsmall : (m.slabs a).availableObjects < 2 ^ 64 :=
    lt_of_le_of_lt ((h.available_le ha).trans hshape.few) (by decide)
  obtain ⟨i, hi, hclear, halloc⟩ := slabAlloc_spec (h.counted a ha) hpos hsmall
    (lt_of_lt_of_le hshape.inside hshape.bound)
  refine ⟨i, hi, hclear, ?_⟩
  rw [takeObject, show (m.caches (m.slabs a).cache).objectSize = m.stride a from rfl, halloc]
  rfl

theorem SlabInv.serve (hfiled : Filed m made c e p f)
    (hcase : e = [a] ∧ p = [] ∨ e = [] ∧ p = [a]) :
    ∃ i < (m.slabs a).totalObjects, BitArray.test (m.slabs a).bits i = false ∧
      ∃ m', m.takeObject a = (some (m.object a i), m') ∧
        SlabInv (m'.sortSlab c a) made caches ∧ SameShape m (m'.sortSlab c a) made caches ∧
        (∀ b, ((m'.sortSlab c a).slabs b).bits =
          if b = a then BitArray.set (m.slabs a).bits i else (m.slabs b).bits) ∧
        (((m'.sortSlab c a).slabs a).availableObjects = 0 ∨
          ((m'.sortSlab c a).caches c).slabPartial = some a) := by
  have hmem : a ∈ e ++ p := by rcases hcase with ⟨rfl, rfl⟩ | ⟨rfl, rfl⟩ <;> simp
  obtain ⟨ha, hcache⟩ := (hfiled.mem a).mp (mem_append_left f hmem)
  have hshape := h.shape a ha
  obtain ⟨i, hi, hclear, htake⟩ := h.take ha (h.available_pos hfiled hmem)
  have hcount := BitArray.clearCount_set (h.in_bitmap ha hi) hi hclear
  rw [← h.counted a ha] at hcount
  refine ⟨i, hi, hclear, _, htake, ?_⟩
  generalize hbits : BitArray.set (m.slabs a).bits i = bits at *
  generalize hn : (m.slabs a).availableObjects - 1 = n at *
  have hself := m.tally_self a bits n
  have hsmall : (m.slabs a).totalObjects < 2 ^ 64 := lt_of_le_of_lt hshape.few (by decide)
  obtain ⟨hmoved, hlists⟩ := sortSlab_spec (hfiled.toListed.tally a bits n) hcase
    (by rw [hself]; exact hshape.many) (by rw [hself]; exact hsmall) (by
      rintro rfl
      rw [hself]
      have hfresh := BitArray.clearCount_of_clear fun j (_ : j < (m.slabs a).totalObjects) =>
        hfiled.fresh a mem_cons_self j
      rw [← h.counted a ha] at hfresh
      exact hn.symm.trans (congrArg (· - 1) hfresh))
  have htally : SameShape m (m.tally a bits n) made caches :=
    .of_tally (by rw [← hbits, BitArray.length_set])
  have hsame := htally.trans (hmoved.sameShape made caches)
  have hbodies : ∀ b, (((m.tally a bits n).sortSlab c a).slabs b).bits =
      ((m.tally a bits n).slabs b).bits := fun b => (congrArg Slab.bits (hmoved.body b) :)
  have havailable : ∀ b, (((m.tally a bits n).sortSlab c a).slabs b).availableObjects =
      ((m.tally a bits n).slabs b).availableObjects :=
    fun b => (congrArg Slab.availableObjects (hmoved.body b) :)
  refine ⟨⟨h.toGeometry.congr hsame (hmoved.root.trans rfl), fun b hb => ?_, fun d hd => ?_⟩, hsame,
    fun b => ?_, ?_⟩
  · rw [hbodies, havailable, (hmoved.sameShape made caches).total b hb]
    refine h.counted_tally ?_ hb
    omega
  · by_cases hdc : d = c
    · rw [hdc]
      rcases hlists with ⟨hleft, hpart⟩ | ⟨-, hfull⟩
      · refine ⟨[], [a], f, hpart, by simp, by simp, fun b hb => ?_⟩
        obtain rfl := mem_singleton.mp hb
        rw [havailable]
        exact hleft
      · exact ⟨[], [], a :: f, hfull, by simp, by simp, by simp⟩
    · obtain ⟨e', p', f', hother⟩ := h.filed_tally ha hd (hcache ▸ hdc) bits n
      refine ⟨e', p', f', hother.other (hmoved.caches d hdc) (fun b hb hb' => ?_) fun b => ?_⟩
      · exact hmoved.others b hb (hb' ▸ hdc)
      · rw [hmoved.cache b]
  · rw [hbodies]
    split_ifs with hb
    · subst hb
      rw [hself]
    · rw [tally_other m bits n hb]
  · rcases hlists with ⟨-, hpart⟩ | ⟨hzero, -⟩
    · exact .inr hpart.part.head_eq
    · exact .inl ((havailable a).trans hzero)

section

variable (ha : a ∈ made) (hi : i < (m.slabs a).totalObjects)

include ha hi

theorem SlabInv.release (hset : BitArray.test (m.slabs a).bits i = true) :
    SlabInv (m.returnObject (m.object a i) a) made caches ∧
      SameShape m (m.returnObject (m.object a i) a) made caches ∧
      ∀ b, ((m.returnObject (m.object a i) a).slabs b).bits =
        if b = a then BitArray.clear (m.slabs a).bits i else (m.slabs b).bits := by
  have hshape := h.shape a ha
  have hlt := lt_of_lt_of_le ((hshape.object_inside hi).2) hshape.bound
  have hindex : wrap (m.object a i + (2 ^ 64 - (m.slabs a).buffer)) / m.stride a = i :=
    object_index (h.stride_pos ha) (by unfold object at hlt; omega)
  have hcount := BitArray.clearCount_clear (h.in_bitmap ha hi) hi hset
  rw [← h.counted a ha] at hcount
  have hsmall := (BitArray.clearCount_le (BitArray.clear (m.slabs a).bits i)
    (m.slabs a).totalObjects).trans hshape.few
  have hplus : wrap ((m.slabs a).availableObjects + 1) = (m.slabs a).availableObjects + 1 := by
    refine wrap_of_lt (lt_of_le_of_lt (hcount ▸ hsmall) (by decide))
  have hreturn : m.returnObject (m.object a i) a =
      m.tally a (BitArray.clear (m.slabs a).bits i) ((m.slabs a).availableObjects + 1) := by
    unfold returnObject
    dsimp only
    rw [show (m.caches (m.slabs a).cache).objectSize = m.stride a from rfl, hindex, hplus]
    rfl
  have hsame : SameShape m (m.tally a (BitArray.clear (m.slabs a).bits i)
      ((m.slabs a).availableObjects + 1)) made caches := .of_tally (BitArray.length_clear _ _)
  rw [hreturn]
  refine ⟨⟨h.toGeometry.congr hsame rfl, fun b hb => h.counted_tally hcount.symm hb,
    fun d hd => ?_⟩, hsame, fun b => ?_⟩
  · by_cases hdc : d = (m.slabs a).cache
    · obtain ⟨e, p, f, hfiled⟩ := h.filed d hd
      -- A slab with an object in use is not in the list of empty ones.
      have hnot : a ∉ e := fun hmem => by
        rw [hfiled.fresh a hmem i] at hset
        exact absurd hset (by decide)
      refine ⟨e, p, f, hfiled.toListed.tally _ _ _, hfiled.single, fun b hb j => ?_, fun b hb => ?_⟩
      · rw [tally_other _ _ _ (show b ≠ a from fun heq => hnot (heq ▸ hb))]
        exact hfiled.fresh b hb j
      · by_cases hba : b = a
        · subst hba
          rw [tally_self]
          exact Nat.succ_pos _
        · rw [tally_other _ _ _ hba]
          exact hfiled.room b hb
    · exact h.filed_tally ha hd hdc _ _
  · split_ifs with hb
    · subst hb
      rw [tally_self]
    · rw [tally_other _ _ _ hb]

theorem SlabInv.eq_of_contains {b : ℕ}
    (hb : b ∈ made) (hcontains : m.Contains (m.object a i) b) : b = a := by
  obtain ⟨hlo, hhi⟩ := (h.shape a ha).object_inside hi
  have hshape := h.shape b hb
  obtain ⟨hlo', hhi'⟩ := hshape.contains_iff.mp hcontains
  have hfront := hshape.front
  have hinside := hshape.inside
  exact h.eq_of_overlap hb ha (x := m.object a i) ⟨by omega, by omega⟩ ⟨by omega, by omega⟩

theorem SlabInv.contains_object : m.Contains (m.object a i) a := by
  have hle := m.object_le a hi
  have hstride := h.stride_pos ha
  exact (h.shape a ha).contains_iff.mpr ⟨m.object_ge a i, by omega⟩

theorem SlabInv.located (hset : BitArray.test (m.slabs a).bits i = true) : ∃ p f : ℕ → List ℕ,
      (∀ c ∈ caches, IsList (linksOf m.slabs) none (m.caches c).slabPartial (p c) ∧
        IsList (linksOf m.slabs) none (m.caches c).slabFull (f c) ∧
        (p c).length ≤ made.length ∧ (f c).length ≤ made.length) ∧
      (∀ c ∈ caches, ∀ b ∈ p c ++ f c, m.Contains (m.object a i) b → b = a) ∧
      m.Contains (m.object a i) a ∧ a ∈ p (m.slabs a).cache ++ f (m.slabs a).cache := by
  have hlists : ∀ c, ∃ e p f, c ∈ caches → Filed m made c e p f := by
    intro c
    by_cases hc : c ∈ caches
    · obtain ⟨e, p, f, hfiled⟩ := h.filed c hc
      exact ⟨e, p, f, fun _ => hfiled⟩
    · exact ⟨[], [], [], fun hmem => absurd hmem hc⟩
  choose e p f hfiled using hlists
  have hcache := h.cache_mem a ha
  refine ⟨p, f, fun c hc => ?_, fun c hc b hb hcontains => ?_, h.contains_object ha hi, ?_⟩
  · obtain ⟨hp, hf⟩ := (hfiled c hc).length_le
    exact ⟨(hfiled c hc).part, (hfiled c hc).full, hp, hf⟩
  · have hb' := (hfiled c hc).subset (by
      rw [append_assoc]
      exact mem_append_right _ hb)
    exact h.eq_of_contains ha hi hb' hcontains
  · have hall := ((hfiled _ hcache).mem a).mpr ⟨ha, rfl⟩
    rw [append_assoc] at hall
    refine (mem_append.mp hall).resolve_left fun hmem => ?_
    rw [(hfiled _ hcache).fresh a hmem i] at hset
    exact absurd hset (by decide)

theorem SlabInv.free_eq (hset : BitArray.test (m.slabs a).bits i = true) {n k : ℕ}
    (hn : made.length ≤ n)
    (hk : caches.length ≤ k) :
    m.free n k (m.object a i) = some (m.returnObject (m.object a i) a) := by
  have hshape := h.shape a ha
  have hlo := (hshape.object_inside hi).1
  have hpos := hshape.pos
  obtain ⟨p, f, hlists, honly, hin, hlisted⟩ := h.located ha hi hset
  rw [free, if_neg (by omega)]
  refine freeLoop_spec h.chain (fun c hc => ?_) honly hin (h.cache_mem a ha) hlisted hk
  obtain ⟨hpart, hfull, hp, hf⟩ := hlists c hc
  exact ⟨hpart, hfull, hp.trans hn, hf.trans hn⟩

end

end Objects

/-! ### Whole allocations -/

def madeAfter (m : SlabMemory) (made : List ℕ) (c a : ℕ) : List ℕ :=
  if m.NeedsSlab c then a :: made else made

theorem subset_madeAfter (m : SlabMemory) (made : List ℕ) (c a : ℕ) :
    made ⊆ m.madeAfter made c a := by
  unfold madeAfter
  split_ifs
  · exact subset_cons_self a made
  · exact fun _ hb => hb

theorem SameShape.subset {made' : List ℕ} (h : SameShape m m' made' caches) (hsub : made ⊆ made') :
    SameShape m m' made caches where
  slab b hb := h.slab b (hsub hb)
  desc := h.desc

theorem SlabInv.choose (h : SlabInv m made caches) (hc : c ∈ caches)
    (hgrant : m.NeedsSlab c → m.Granted made highVma (m.caches c).pagesPerSlab phys) :
    ∃ a m', m.chooseSlab highVma phys c = (a, m') ∧
      SlabInv m' (m.madeAfter made c (phys + highVma)) caches ∧ SameShape m m' made caches ∧
      (∀ b ∈ made, m'.slabs b = m.slabs b) ∧
      (∀ b ∈ m.madeAfter made c (phys + highVma), b ≠ a → b ∈ made) ∧
      ∃ e p f, Filed m' (m.madeAfter made c (phys + highVma)) c e p f ∧
        (e = [a] ∧ p = [] ∨ e = [] ∧ p = [a]) := by
  by_cases hneeds : m.NeedsSlab c
  · rw [madeAfter, if_pos hneeds]
    obtain ⟨m', hchoose, hinv, hsame, hmade, f, hfiled⟩ := h.newSlab hc hneeds (hgrant hneeds)
    exact ⟨_, m', hchoose, hinv, hsame, hmade,
      fun b hb hne => (mem_cons.mp hb).resolve_left hne, _, _, f, hfiled, .inl ⟨rfl, rfl⟩⟩
  · rw [madeAfter, if_neg hneeds]
    have hsame : SameShape m m made caches := ⟨fun _ _ => rfl, fun _ _ => rfl⟩
    obtain ⟨e, p, f, hfiled⟩ := h.filed c hc
    have hsingle := hfiled.single
    rw [length_append] at hsingle
    have hhead := hfiled.part.head_eq
    have hhead' := hfiled.empty.head_eq
    -- One of the two lists has a slab, and then the other one has none.
    cases p with
    | cons a p =>
      rw [length_cons] at hsingle
      obtain rfl : p = [] := eq_nil_of_length_eq_zero (by omega)
      obtain rfl : e = [] := eq_nil_of_length_eq_zero (by omega)
      refine ⟨a, m, ?_, h, hsame, fun _ _ => rfl, fun _ hb _ => hb, _, _, f, hfiled,
        .inr ⟨rfl, rfl⟩⟩
      rw [chooseSlab, hhead]
      rfl
    | nil =>
      cases e with
      | nil => exact absurd ⟨hhead, hhead'⟩ hneeds
      | cons a e =>
        rw [length_cons] at hsingle
        obtain rfl : e = [] := eq_nil_of_length_eq_zero (by omega)
        refine ⟨a, m, ?_, h, hsame, fun _ _ => rfl, fun _ hb _ => hb, _, _, f, hfiled,
          .inl ⟨rfl, rfl⟩⟩
        rw [chooseSlab, hhead, hhead']
        rfl

theorem SlabInv.allocObj (h : SlabInv m made caches) (hc : c ∈ caches)
    (hgrant : m.NeedsSlab c → m.Granted made highVma (m.caches c).pagesPerSlab phys) :
    ∃ a i m', m.cacheAllocObj highVma phys c = (some (m'.object a i), m') ∧
      SlabInv m' (m.madeAfter made c (phys + highVma)) caches ∧ SameShape m m' made caches ∧
      (a ∈ m.madeAfter made c (phys + highVma) ∧ i < (m'.slabs a).totalObjects ∧
        (m'.slabs a).cache = c ∧ BitArray.test (m'.slabs a).bits i = true) ∧
      ∀ b ∈ made, ∀ j, BitArray.test (m.slabs b).bits j = true →
        BitArray.test (m'.slabs b).bits j = true ∧ (a = b → i ≠ j) := by
  obtain ⟨a, m₁, hchoose, hinv₁, hsame₁, hmade, -, e, p, f, hfiled, hcase⟩ := h.choose hc hgrant
  obtain ⟨i, hi, hclear, m₂, htake, hinv, hsame, hbits, -⟩ := hinv₁.serve hfiled hcase
  have hmem : a ∈ e ++ p := by rcases hcase with ⟨rfl, rfl⟩ | ⟨rfl, rfl⟩ <;> simp
  obtain ⟨ha, hcache⟩ := (hfiled.mem a).mp (mem_append_left f hmem)
  have hin := hinv₁.in_bitmap ha hi
  have hsame' := hsame₁.trans (hsame.subset (m.subset_madeAfter made c (phys + highVma)))
  refine ⟨a, i, m₂.sortSlab c a, ?_, hinv, hsame', ⟨ha, ?_, ?_, ?_⟩, fun b hb j hset => ⟨?_, ?_⟩⟩
  · rw [hinv₁.object_eq hsame ha, cacheAllocObj, hchoose]
    dsimp only
    rw [htake]
  · rwa [hsame.total a ha]
  · rwa [hsame.cache a ha]
  · rw [hbits, if_pos rfl, BitArray.test_set hin]
    simp
  · rw [← hmade b hb] at hset
    rw [hbits]
    split_ifs with hba
    · subst hba
      rw [BitArray.test_set hin, hset, Bool.or_true]
    · exact hset
  · rintro rfl rfl
    rw [← hmade a hb, hclear] at hset
    exact absurd hset (by decide)

end Invariant

end SlabMemory

/-! ## Runs -/

structure LiveObject where
  cache : ℕ
  addr : ℕ
  deriving DecidableEq, Repr

structure SlabState where
  memory : SlabMemory
  made : List ℕ
  madeCaches : List ℕ
  live : List LiveObject

inductive SlabOp where
  | create (objectSize phys : ℕ)
  | alloc (cache phys : ℕ)
  | free (addr : ℕ)
  deriving DecidableEq, Repr

namespace SlabState

def start (slabs : ℕ → Slab) (caches : ℕ → Cache) : SlabState := ⟨⟨slabs, caches, none⟩, [], [], []⟩

/-- The pages for `cache_alloc_obj` are granted, if it asks for some. -/
def AllocGranted (highVma cache phys : ℕ) (s : SlabState) : Prop :=
  s.memory.NeedsSlab cache →
    s.memory.Granted s.made highVma (s.memory.caches cache).pagesPerSlab phys
  deriving Decidable

def step (highVma : ℕ) (s : SlabState) : SlabOp → Option SlabState
  | .create objectSize phys =>
    if 1 ≤ objectSize ∧ objectSize ≤ 16384 ∧
        s.memory.Granted s.made highVma (SlabMemory.pagesFor objectSize) phys then
      let m := s.memory.slabCacheCreate highVma phys objectSize
      some { s with
        memory := m
        made := wrap (phys + highVma) :: s.made
        madeCaches := m.rootCache.toList ++ s.madeCaches }
    else none
  | .alloc cache phys =>
    if cache ∈ s.madeCaches ∧ s.AllocGranted highVma cache phys then
      let (addr, m) := s.memory.cacheAllocObj highVma phys cache
      some { s with
        memory := m
        made := if s.memory.NeedsSlab cache then wrap (phys + highVma) :: s.made else s.made
        live := (addr.map (LiveObject.mk cache)).toList ++ s.live }
    else none
  | .free addr =>
    if addr ∈ s.live.map LiveObject.addr then
      (s.memory.free s.made.length s.madeCaches.length addr).map fun m =>
        { s with memory := m, live := s.live.filter fun x => x.addr ≠ addr }
    else none

/-- **Soundness**: the objects in use are apart, and in their slabs behind what the allocator has
there itself; every slab is in one list of its cache, and the counters count the clear bits. -/
structure Sound (s : SlabState) : Prop where
  disjoint : s.live.Pairwise fun x y =>
    Apart x.addr (s.memory.caches x.cache).objectSize y.addr (s.memory.caches y.cache).objectSize
  inside : ∀ x ∈ s.live, ∃ a ∈ s.made, (s.memory.slabs a).cache = x.cache ∧ a ≤ x.addr ∧
    x.addr + (s.memory.caches x.cache).objectSize ≤
      a + (s.memory.caches x.cache).pagesPerSlab * pageSize
  headers : ∀ x ∈ s.live, ∀ a ∈ s.made,
    Apart x.addr (s.memory.caches x.cache).objectSize a sizeofSlab
  bitmaps : ∀ x ∈ s.live, ∀ a ∈ s.made,
    Apart x.addr (s.memory.caches x.cache).objectSize (s.memory.slabs a).bitmap (objectsPerSlab / 8)
  descriptors : ∀ x ∈ s.live, ∀ c ∈ s.madeCaches,
    Apart x.addr (s.memory.caches x.cache).objectSize c sizeofCache
  owned : ∀ a ∈ s.made, (s.memory.slabs a).cache ∈ s.madeCaches
  listed : ∀ c ∈ s.madeCaches, ∃ e p f, s.memory.Listed s.made c e p f
  counted : ∀ a ∈ s.made, (s.memory.slabs a).availableObjects =
    BitArray.clearCount (s.memory.slabs a).bits (s.memory.slabs a).totalObjects

def Placed (m : SlabMemory) (made : List ℕ) (x : LiveObject) : Prop :=
  ∃ a ∈ made, ∃ i < (m.slabs a).totalObjects, (m.slabs a).cache = x.cache ∧
    BitArray.test (m.slabs a).bits i = true ∧ x.addr = m.object a i

def ObjectsApart (m : SlabMemory) (x y : LiveObject) : Prop :=
  Apart x.addr (m.caches x.cache).objectSize y.addr (m.caches y.cache).objectSize

/-- The invariant of runs. -/
structure WellFormed (s : SlabState) : Prop where
  inv : s.memory.SlabInv s.made s.madeCaches
  placed : ∀ x ∈ s.live, Placed s.memory s.made x
  disjoint : s.live.Pairwise (ObjectsApart s.memory)

section Steps

open SlabMemory (Geometry SameShape)

variable {m m' : SlabMemory} {made made' caches : List ℕ} {x y : LiveObject} {s : SlabState}
  {highVma : ℕ}

theorem Placed.mono (h : Placed m made x) (hgeo : Geometry m made caches)
    (hsame : SameShape m m' made caches) (hsub : made ⊆ made')
    (hbits : ∀ a ∈ made, ∀ i, BitArray.test (m.slabs a).bits i = true → x.addr = m.object a i →
      BitArray.test (m'.slabs a).bits i = true) : Placed m' made' x := by
  obtain ⟨a, ha, i, hi, hcache, hset, haddr⟩ := h
  refine ⟨a, hsub ha, i, ?_, ?_, hbits a ha i hset haddr, ?_⟩
  · rwa [hsame.total a ha]
  · rwa [hsame.cache a ha]
  · rwa [hgeo.object_eq hsame ha]

theorem Placed.cache_mem (h : Placed m made x) (hgeo : Geometry m made caches) :
    x.cache ∈ caches := by
  obtain ⟨a, ha, -, -, hcache, -⟩ := h
  exact hcache ▸ hgeo.cache_mem a ha

theorem ObjectsApart.congr (h : ObjectsApart m x y) (hsame : SameShape m m' made caches)
    (hx : x.cache ∈ caches) (hy : y.cache ∈ caches) : ObjectsApart m' x y := by
  rw [ObjectsApart, hsame.size _ hx, hsame.size _ hy]
  exact h

theorem WellFormed.mono (h : WellFormed s) {m' : SlabMemory} {made' caches' : List ℕ}
    (hinv : m'.SlabInv made' caches') (hsame : SameShape s.memory m' s.made s.madeCaches)
    (hsub : s.made ⊆ made')
    (hbits : ∀ a ∈ s.made, ∀ i, BitArray.test (s.memory.slabs a).bits i = true →
      BitArray.test (m'.slabs a).bits i = true) : WellFormed ⟨m', made', caches', s.live⟩ where
  inv := hinv
  placed x hx := (h.placed x hx).mono h.inv.toGeometry hsame hsub fun a ha i hset _ =>
    hbits a ha i hset
  disjoint := h.disjoint.imp_of_mem fun {x y} hx hy hapart =>
    hapart.congr hsame ((h.placed x hx).cache_mem h.inv.toGeometry)
      ((h.placed y hy).cache_mem h.inv.toGeometry)

theorem WellFormed.create (h : WellFormed s) {size phys : ℕ} (hpos : 1 ≤ size)
    (hle : size ≤ 16384)
    (hgrant : s.memory.Granted s.made highVma (SlabMemory.pagesFor size) phys) :
    WellFormed { s with
      memory := s.memory.slabCacheCreate highVma phys size
      made := wrap (phys + highVma) :: s.made
      madeCaches :=
        (s.memory.slabCacheCreate highVma phys size).rootCache.toList ++ s.madeCaches } ∧
      SameShape s.memory (s.memory.slabCacheCreate highVma phys size) s.made s.madeCaches := by
  have hroom : 256 * (size + 1) ≤ SlabMemory.pagesFor size * pageSize :=
    SlabMemory.pagesFor_room hle
  have hnot := hgrant.not_mem h.inv.toGeometry (by omega)
  obtain ⟨hphys, hstart, hend, hapart⟩ := hgrant
  have hwrap : wrap (phys + highVma) = phys + highVma := wrap_of_lt (by omega)
  obtain ⟨hinv, hsame, hmade, -⟩ := h.inv.create hpos hle hstart hend hapart hnot
  rw [s.memory.slabCacheCreate_eq hle hphys (by omega), hwrap]
  refine ⟨h.mono hinv hsame (subset_cons_self _ _) fun a ha i hset => ?_, hsame⟩
  rwa [hmade a ha]

theorem made_eq_madeAfter (h : WellFormed s) {cache phys : ℕ} (hcache : cache ∈ s.madeCaches)
    (hgrant : s.AllocGranted highVma cache phys) :
    (if s.memory.NeedsSlab cache then wrap (phys + highVma) :: s.made else s.made) =
      s.memory.madeAfter s.made cache (phys + highVma) := by
  unfold SlabMemory.madeAfter
  split_ifs with hneeds
  · have hroom := (h.inv.cache_shape cache hcache).room.2
    obtain ⟨-, -, hend, -⟩ := hgrant hneeds
    rw [wrap_of_lt (by omega)]
  · rfl

theorem WellFormed.alloc (h : WellFormed s) {cache phys : ℕ} (hcache : cache ∈ s.madeCaches)
    (hgrant : s.AllocGranted highVma cache phys) :
    ∃ addr m', s.memory.cacheAllocObj highVma phys cache = (some addr, m') ∧
      SameShape s.memory m' s.made s.madeCaches ∧
      WellFormed { s with
        memory := m'
        made := if s.memory.NeedsSlab cache then wrap (phys + highVma) :: s.made else s.made
        live := ⟨cache, addr⟩ :: s.live } := by
  obtain ⟨a, i, m', halloc, hinv, hsame, ⟨ha, hi, hcachea, hset⟩, hbits⟩ :=
    h.inv.allocObj hcache hgrant
  refine ⟨_, m', halloc, hsame, ?_⟩
  rw [made_eq_madeAfter h hcache hgrant]
  have hold := h.mono hinv hsame (s.memory.subset_madeAfter s.made cache (phys + highVma))
    fun b hb j hj => (hbits b hb j hj).1
  refine ⟨hinv, fun x hx => ?_, pairwise_cons.mpr ⟨fun x hx => ?_, hold.disjoint⟩⟩
  · rcases mem_cons.mp hx with rfl | hx
    · exact ⟨a, ha, i, hi, hcachea, hset, rfl⟩
    · exact hold.placed x hx
  · -- The bit of the object was clear, and those of the others were set.
    obtain ⟨b, hb, j, hj, hcacheb, hsetb, haddr⟩ := h.placed x hx
    have hapart := hinv.objects_apart ha (s.memory.subset_madeAfter _ _ _ hb) hi
      (by rwa [hsame.total b hb]) (hbits b hb j hsetb).2
    have hstride : m'.stride b = (m'.caches x.cache).objectSize := by
      rw [SlabMemory.stride, hsame.cache b hb, hcacheb]
    have hstride' : m'.stride a = (m'.caches cache).objectSize := by
      rw [SlabMemory.stride, hcachea]
    rw [h.inv.object_eq hsame hb, ← haddr, hstride, hstride'] at hapart
    exact hapart

theorem WellFormed.free (h : WellFormed s) (hx : x ∈ s.live) :
    ∃ m', (∀ n k, s.made.length ≤ n → s.madeCaches.length ≤ k →
        s.memory.free n k x.addr = some m') ∧ SameShape s.memory m' s.made s.madeCaches ∧
      WellFormed { s with memory := m', live := s.live.filter fun y => y.addr ≠ x.addr } := by
  obtain ⟨a, ha, i, hi, hcache, hset, haddr⟩ := h.placed x hx
  obtain ⟨hinv, hsame, hbits⟩ := h.inv.release ha hi hset
  -- The bits of the other objects stay set.
  have hkept : ∀ y : LiveObject, y.addr ≠ x.addr → ∀ b ∈ s.made, ∀ j,
      BitArray.test (s.memory.slabs b).bits j = true → y.addr = s.memory.object b j →
      BitArray.test ((s.memory.returnObject (s.memory.object a i) a).slabs b).bits j = true := by
    intro y hne b hb j hj heq
    rw [hbits]
    split_ifs with hba
    · subst hba
      have hji : j ≠ i := by
        rintro rfl
        exact hne (heq.trans haddr.symm)
      rw [BitArray.test_clear (h.inv.in_bitmap ha hi), hj]
      simpa using hji
    · exact hj
  refine ⟨s.memory.returnObject (s.memory.object a i) a,
    fun n k hn hk => haddr ▸ h.inv.free_eq ha hi hset hn hk, hsame, hinv, fun y hy => ?_, ?_⟩
  · obtain ⟨hmem, hne⟩ := mem_filter.mp hy
    exact (h.placed y hmem).mono h.inv.toGeometry hsame (fun _ hb => hb)
      (hkept y (of_decide_eq_true hne))
  · refine (h.disjoint.filter _).imp_of_mem fun {y z} hy hz hapart => ?_
    exact hapart.congr hsame ((h.placed y (mem_of_mem_filter hy)).cache_mem h.inv.toGeometry)
      ((h.placed z (mem_of_mem_filter hz)).cache_mem h.inv.toGeometry)

theorem WellFormed.step {op : SlabOp} {s' : SlabState} (h : WellFormed s)
    (hstep : s.step highVma op = some s') :
    WellFormed s' ∧ SameShape s.memory s'.memory s.made s.madeCaches := by
  cases op with
  | create size phys =>
    rw [SlabState.step, ite_none_right_eq_some] at hstep
    obtain ⟨hguard, hstep⟩ := hstep
    cases hstep
    exact h.create hguard.1 hguard.2.1 hguard.2.2
  | alloc cache phys =>
    rw [SlabState.step, ite_none_right_eq_some] at hstep
    obtain ⟨hguard, hstep⟩ := hstep
    obtain ⟨addr, m', halloc, hsame, hwell⟩ := h.alloc hguard.1 hguard.2
    rw [halloc] at hstep
    cases hstep
    exact ⟨hwell, hsame⟩
  | free addr =>
    rw [SlabState.step, ite_none_right_eq_some] at hstep
    obtain ⟨hguard, hstep⟩ := hstep
    obtain ⟨x, hx, rfl⟩ := mem_map.mp hguard
    obtain ⟨m', hfree, hsame, hwell⟩ := h.free hx
    rw [hfree _ _ le_rfl le_rfl] at hstep
    cases hstep
    exact ⟨hwell, hsame⟩

theorem WellFormed.start (slabs : ℕ → Slab) (caches : ℕ → Cache) :
    WellFormed (SlabState.start slabs caches) where
  inv :=
    { shape := fun _ ha => absurd ha not_mem_nil
      cache_mem := fun _ ha => absurd ha not_mem_nil
      apart := Pairwise.nil
      cache_shape := fun _ hc => absurd hc not_mem_nil
      descriptor := fun _ hc => absurd hc not_mem_nil
      chain := rfl
      nodup := nodup_nil
      counted := fun _ ha => absurd ha not_mem_nil
      filed := fun _ hc => absurd hc not_mem_nil }
  placed _ hx := absurd hx not_mem_nil
  disjoint := Pairwise.nil

theorem WellFormed.sound (h : WellFormed s) : s.Sound := by
  have hgeo := h.inv.toGeometry
  -- What is in front of the objects of a slab is apart from every object in use.
  have hfront : ∀ x ∈ s.live, ∀ b ∈ s.made, ∀ z n, b ≤ z → z + n ≤ (s.memory.slabs b).buffer →
      Apart x.addr (s.memory.caches x.cache).objectSize z n := by
    intro x hx b hb z n hz hn
    obtain ⟨a, ha, i, hi, hcache, -, haddr⟩ := h.placed x hx
    have hapart := hgeo.front_apart ha hb hi hz hn
    rw [← haddr, SlabMemory.stride, hcache] at hapart
    exact hapart
  refine ⟨h.disjoint, fun x hx => ?_, fun x hx a ha => ?_, fun x hx a ha => ?_, fun x hx c hc => ?_,
    hgeo.cache_mem, fun c hc => ?_, h.inv.counted⟩
  · obtain ⟨a, ha, i, hi, hcache, -, haddr⟩ := h.placed x hx
    obtain ⟨hlo, hhi⟩ := (hgeo.shape a ha).object_inside hi
    rw [← haddr, SlabMemory.stride, SlabMemory.extent, hcache] at hhi
    refine ⟨a, ha, hcache, ?_, hhi.le⟩
    omega
  · have hlo := (hgeo.shape a ha).front
    exact hfront x hx a ha a sizeofSlab le_rfl (by omega)
  · have hlo := (hgeo.shape a ha).front
    have hbitmap := (hgeo.shape a ha).bitmap
    exact hfront x hx a ha _ _ (by omega) (by omega)
  · obtain ⟨a, ha, -, hlo, hhi⟩ := hgeo.descriptor c hc
    exact hfront x hx a ha c sizeofCache (by omega) hhi
  · obtain ⟨e, p, f, hfiled⟩ := h.inv.filed c hc
    exact ⟨e, p, f, hfiled.toListed⟩

end Steps

end SlabState

abbrev slabStep (highVma : ℕ) (s : SlabState) (op : SlabOp) (s' : SlabState) : Prop :=
  s.step highVma op = some s'

/-- **The allocator is sound**: after every run the objects in use are apart, the lists and the
counters are right, `free` of an object in use returns, and `cache_alloc_obj` returns an object. -/
theorem slabs_sound {highVma : ℕ} {slabs : ℕ → Slab} {caches : ℕ → Cache}
    {tr : List (Event SlabState SlabOp)} {s : SlabState}
    (run : Run (slabStep highVma) (SlabState.start slabs caches) tr s) :
    s.Sound ∧
      (∀ x ∈ s.live, ∃ m', ∀ n k, s.made.length ≤ n → s.madeCaches.length ≤ k →
        s.memory.free n k x.addr = some m') ∧
      ∀ c ∈ s.madeCaches, ∀ phys, s.AllocGranted highVma c phys →
        ∃ addr, (s.memory.cacheAllocObj highVma phys c).1 = some addr := by
  have hwell : s.WellFormed := run.invariant (I := fun _ s => s.WellFormed)
    (SlabState.WellFormed.start slabs caches) fun _ _ _ _ h hstep => (h.step hstep).1
  refine ⟨hwell.sound, fun x hx => ?_, fun c hc phys hgrant => ?_⟩
  · obtain ⟨m', hfree, -⟩ := hwell.free hx
    exact ⟨m', hfree⟩
  · obtain ⟨addr, m', halloc, -⟩ := hwell.alloc hc hgrant
    exact ⟨addr, by rw [halloc]⟩

def blankMemory : SlabState :=
  .start (fun _ => SlabMemory.blankSlab 0 0 0 0) fun _ => ⟨0, 0, none, none, none, none⟩

def twoCaches : List SlabOp :=
  [.create 32 0x10000, .create 64 0x20000, .alloc 0xffff800000010060 0,
    .alloc 0xffff800000010060 0, .alloc 0xffff800000020060 0, .free 0xffff8000000100a8,
    .free 0xffff8000000100c8, .alloc 0xffff800000010060 0]

theorem slabs_sound_two_caches :
    ∃ tr s, Run (slabStep 0xffff800000000000) blankMemory tr s ∧
      s.live = [⟨0xffff800000010060, 0xffff8000000100a8⟩,
        ⟨0xffff800000020060, 0xffff8000000200a8⟩] ∧ s.Sound := by
  obtain ⟨tr, s, run, -, hlive⟩ := Run.computed (f := SlabState.step 0xffff800000000000)
    (P := fun _ s => s.live = [⟨0xffff800000010060, 0xffff8000000100a8⟩,
      ⟨0xffff800000020060, 0xffff8000000200a8⟩]) blankMemory twoCaches (by decide +kernel)
  exact ⟨tr, s, run, hlive, (slabs_sound run).1⟩

end Pastoral
