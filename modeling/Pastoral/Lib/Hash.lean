import Mathlib.Data.BitVec
import Mathlib.Algebra.Order.Ring.Nat
import Pastoral.Theory.Probe
import Pastoral.Theory.Run

/-!
# The kernel hash table

`hash.c`: an open-addressing table with linear probing, without wrap-around and without tombstones.

## Main definitions

* `hashTableSearch`, `hashTablePush`, `hashTableDelete`: the calls, over a table of any size
* `hashTableSearchInt`: the search with the `int` that `capacity` is
* `HashTable.Good`: no key twice, and each at or behind its home slot

## Main results

* `hashTable_refines_map`: when the table is a finite map, along every run
* `hashTablePush_growth`: what the growth of a table keeps
-/

open List Option Probe Transition

namespace Pastoral

def fnvHash (data : List (BitVec 8)) : BitVec 64 :=
  data.foldl (fun hash c => (hash ^^^ c.signExtend 64) * 0x100000001b3#64) 0xcbf29ce484222325#64

structure HashTable (K D : Type*) where
  slots : Slots K D

variable {K D : Type*}

def HashTable.capacity (t : HashTable K D) : ℕ := t.slots.length

def HashTable.empty : HashTable K D := ⟨[]⟩

variable [DecidableEq K] (hash : K → BitVec 64)

def homeSlot (capacity : ℕ) (k : K) : ℕ := (hash k).toNat &&& (capacity - 1)

def hashTableSearch (t : HashTable K D) (k : K) : Option D :=
  if t.capacity = 0 then none
  else
    match findFrom (holds k) t.slots (homeSlot hash t.capacity k) with
    | some i => (t.slots[i]?).join.map Prod.snd
    | none => none

/-- The number of slots is an `int`, here as a `size_t`. -/
def intSize (n : BitVec 32) : ℕ := (n.signExtend 64).toNat

/-- The search with the `int` that `capacity` is. None is a read behind the arrays. -/
def hashTableSearchInt (t : HashTable K D) (k : K) : Option (Option D) :=
  let capacity := BitVec.ofNat 32 t.capacity
  if capacity = 0 then some none
  else
    match findFrom (holds k) (t.slots.take (intSize capacity))
      ((hash k).toNat &&& intSize (capacity - 1)) with
    | some i => some ((t.slots[i]?).join.map Prod.snd)
    | none => if intSize capacity ≤ t.capacity then some none else none

def hashTableDelete (t : HashTable K D) (k : K) : HashTable K D :=
  if t.capacity = 0 then t
  else
    match findFrom (holds k) t.slots (homeSlot hash t.capacity k) with
    | some i => ⟨t.slots.set i none⟩
    | none => t

def hashTableStore (t : HashTable K D) (k : K) (d : D) : HashTable K D :=
  match findFrom (holds k) t.slots (homeSlot hash t.capacity k) with
  | some i => ⟨t.slots.set i (some (k, d))⟩
  | none => t

def HashTable.allocated (t : HashTable K D) : HashTable K D :=
  if t.capacity = 0 then ⟨List.replicate 16 none⟩ else t

def accepts (k : K) (slot : Option (K × D)) : Bool := slot.isNone || holds k slot

def hashTablePushWithin : ℕ → HashTable K D → K → D → Option (HashTable K D)
  | 0, _, _, _ => none
  | growths + 1, table, k, d =>
    let t := table.allocated
    match findFrom (accepts k) t.slots (homeSlot hash t.capacity k) with
    | some i => some ⟨t.slots.set i (some (k, d))⟩
    | none => do
      let expanded ← (entries t.slots).foldlM
        (fun e kd => hashTablePushWithin growths e kd.1 kd.2)
        ⟨List.replicate (t.capacity * 2) none⟩
      hashTablePushWithin growths expanded k d

def hashTablePush (t : HashTable K D) (k : K) (d : D) : HashTable K D :=
  (hashTablePushWithin hash ((entries t.slots).length + 66) t k d).getD t

/-! ## The home slot and the allocated table -/

section Allocated

variable (t : HashTable K D) {k : K} {d : D} {growths i : ℕ}

omit [DecidableEq K] in
theorem homeSlot_lt_two_pow (capacity : ℕ) (k : K) : homeSlot hash capacity k < 2 ^ 64 :=
  lt_of_le_of_lt Nat.and_le_left (hash k).isLt

omit [DecidableEq K] in
theorem allocated_capacity_pos : 0 < t.allocated.capacity := by
  unfold HashTable.allocated
  split_ifs with h
  · simp [HashTable.capacity]
  · exact pos_of_ne_zero h

omit [DecidableEq K] in
theorem entries_allocated : entries t.allocated.slots = entries t.slots := by
  unfold HashTable.allocated
  split_ifs with h
  · have hnil := length_eq_zero_iff.mp h
    rw [hnil]
    exact entries_replicate_none 16
  · rfl

omit [DecidableEq K] in
theorem allocated_eq_self (h : 0 < t.capacity) : t.allocated = t := by
  simp [HashTable.allocated, ne_of_gt h]

/-- The slot that a push stores to if the table does not have to grow. -/
abbrev pushSlot (t : HashTable K D) (k : K) : Option ℕ :=
  findFrom (accepts k) t.allocated.slots (homeSlot hash t.allocated.capacity k)

theorem hashTablePushWithin_found
    (hf : pushSlot hash t k = some i) :
    hashTablePushWithin hash (growths + 1) t k d =
      some ⟨t.allocated.slots.set i (some (k, d))⟩ := by
  rw [hashTablePushWithin]
  simp only [hf]

theorem hashTablePushWithin_grow
    (hf : pushSlot hash t k = none) :
    hashTablePushWithin hash (growths + 1) t k d =
      ((entries t.slots).foldlM (fun e kd => hashTablePushWithin hash growths e kd.1 kd.2)
        ⟨replicate (t.allocated.capacity * 2) none⟩).bind
        fun expanded => hashTablePushWithin hash growths expanded k d := by
  rw [hashTablePushWithin]
  simp only [hf, entries_allocated]
  rfl

end Allocated

/-! ## Termination of the growth -/

section Termination

variable {i : ℕ}

omit [DecidableEq K] in
theorem length_sub_le_entries {l : Slots K D}
    (h : ∀ n x, i ≤ n → l[n]? = some x → x ≠ none) : l.length - i ≤ (entries l).length := by
  induction l generalizing i with
  | nil => simp
  | cons o l ih =>
    cases i with
    | zero =>
      have ho := h 0 o le_rfl rfl
      obtain ⟨e, rfl⟩ := ne_none_iff_exists'.mp ho
      have hl := ih (i := 0) fun n x _ hx => h (n + 1) x (by omega) (by simpa using hx)
      simp only [entries, filterMap_cons_some (f := id) rfl, length_cons] at hl ⊢
      omega
    | succ i =>
      have hl := ih (i := i) fun n x hn hx => h (n + 1) x (by omega) (by simpa using hx)
      have hcons : (entries l).length ≤ (entries (o :: l)).length := by
        cases o <;> simp [entries]
      simp only [length_cons] at hl ⊢
      omega

omit [DecidableEq K] in
theorem length_entries_set_le {l : Slots K D} (hi : i < l.length) (o : Option (K × D)) :
    (entries (l.set i o)).length ≤ (entries l).length + 1 := by
  have hself := set_getElem_self hi
  have hold := (entries_set hi l[i]).length_eq
  have hnew := (entries_set hi o).length_eq
  rw [hself] at hold
  simp only [length_append] at hold hnew
  have ho : o.toList.length ≤ 1 := by cases o <;> simp
  omega

def PushReturns (growths : ℕ) (t : HashTable K D) (k : K) (d : D) : Prop :=
  ∃ t', hashTablePushWithin hash growths t k d = some t' ∧
    (entries t'.slots).length ≤ (entries t.slots).length + 1 ∧
    t.allocated.capacity ≤ t'.capacity

theorem pushReturns_of_found {t : HashTable K D} {k : K} {d : D} {growths : ℕ}
    (hf : pushSlot hash t k = some i) :
    PushReturns hash (growths + 1) t k d := by
  refine ⟨_, hashTablePushWithin_found hash t hf, ?_, by simp [HashTable.capacity]⟩
  rw [← entries_allocated t]
  exact length_entries_set_le (lt_length_of_findFrom hf) _

theorem exists_accepting_slot {t : HashTable K D} (k : K)
    (hroom : 2 ^ 64 + (entries t.slots).length < t.allocated.capacity) :
    ∃ i, pushSlot hash t k = some i := by
  by_contra hno
  have hf := eq_none_iff_forall_ne_some.mpr fun i hi => hno ⟨i, hi⟩
  have hfull := length_sub_le_entries (l := t.allocated.slots)
    (i := homeSlot hash t.allocated.capacity k) fun n x hn hx hnone => by
      have := findFrom_eq_none_iff.mp hf n x hn hx
      simp [accepts, hnone] at this
  have hhome := homeSlot_lt_two_pow hash t.allocated.capacity k
  rw [entries_allocated] at hfull
  simp only [HashTable.capacity] at hroom hfull hhome
  omega

theorem rehash_returns {growths capacity bound : ℕ} (hpos : 0 < capacity)
    (hpush : ∀ (e : HashTable K D) (k : K) (d : D), capacity ≤ e.capacity →
      (entries e.slots).length ≤ bound → PushReturns hash growths e k d) (l : List (K × D)) :
    ∀ e : HashTable K D, capacity ≤ e.capacity → (entries e.slots).length + l.length ≤ bound →
      ∃ e', l.foldlM (fun e kd => hashTablePushWithin hash growths e kd.1 kd.2) e = some e' ∧
        capacity ≤ e'.capacity ∧ (entries e'.slots).length ≤ bound := by
  induction l with
  | nil => exact fun e hcap hlen => ⟨e, rfl, hcap, by simpa using hlen⟩
  | cons kd l ih =>
    intro e hcap hlen
    rw [length_cons] at hlen
    obtain ⟨e₁, he₁, hlen₁, hcap₁⟩ := hpush e kd.1 kd.2 hcap (by omega)
    rw [allocated_eq_self e (by omega)] at hcap₁
    obtain ⟨e', he', hcap', hlen'⟩ := ih e₁ (hcap.trans hcap₁) (by omega)
    exact ⟨e', by rw [foldlM_cons, he₁]; exact he', hcap', hlen'⟩

theorem pushReturns_of_room (growths : ℕ) : ∀ (t : HashTable K D) (k : K) (d : D),
      2 ^ 64 + (entries t.slots).length < t.allocated.capacity * 2 ^ growths →
      PushReturns hash (growths + 1) t k d := by
  induction growths with
  | zero =>
    intro t k d hroom
    obtain ⟨i, hf⟩ := exists_accepting_slot hash k (by simpa using hroom)
    exact pushReturns_of_found hash hf
  | succ growths ih =>
    intro t k d hroom
    cases hf : pushSlot hash t k with
    | some i => exact pushReturns_of_found hash hf
    | none =>
      have hpos := allocated_capacity_pos t
      have hroom' : 2 ^ 64 + (entries t.slots).length < t.allocated.capacity * 2 * 2 ^ growths := by
        rwa [mul_assoc, ← pow_succ']
      have hpush : ∀ (e : HashTable K D) (k : K) (d : D), t.allocated.capacity * 2 ≤ e.capacity →
          (entries e.slots).length ≤ (entries t.slots).length →
          PushReturns hash (growths + 1) e k d := fun e k d hcap hlen => ih e k d (by
        rw [allocated_eq_self e (by omega)]
        have hmul := Nat.mul_le_mul_right (2 ^ growths) hcap
        omega)
      obtain ⟨e, he, hcap, hlen⟩ := rehash_returns hash (by omega) hpush (entries t.slots)
        ⟨replicate (t.allocated.capacity * 2) none⟩ (by simp [HashTable.capacity]) (by simp)
      obtain ⟨t', ht', hlen', hcap'⟩ := hpush e k d hcap hlen
      rw [allocated_eq_self e (by omega)] at hcap'
      refine ⟨t', ?_, by omega, by omega⟩
      rw [hashTablePushWithin_grow hash t hf, he]
      exact ht'

theorem hashTablePushWithin_eq_some (t : HashTable K D) (k : K) (d : D) :
    hashTablePushWithin hash ((entries t.slots).length + 66) t k d =
      some (hashTablePush hash t k d) := by
  have hroom : 2 ^ 64 + (entries t.slots).length <
      t.allocated.capacity * 2 ^ ((entries t.slots).length + 65) := by
    have hpos := allocated_capacity_pos t
    have hlt : (entries t.slots).length + 1 ≤ 2 ^ (entries t.slots).length := Nat.lt_two_pow_self
    have hcap := Nat.mul_le_mul_right (2 ^ ((entries t.slots).length + 65)) hpos
    rw [pow_add] at hcap ⊢
    omega
  obtain ⟨t', ht', -⟩ := pushReturns_of_room hash ((entries t.slots).length + 65) t k d hroom
  rw [hashTablePush, ht']
  rfl

end Termination

/-! ## What a push does to a good table -/

section Push

variable {hash}

/-- A good table: no key twice, every key at or after its home slot. -/
def HashTable.Good (hash : K → BitVec 64) (t : HashTable K D) : Prop :=
  Probe.Good (homeSlot hash t.capacity) t.slots

omit [DecidableEq K] in
theorem good_empty : (HashTable.empty : HashTable K D).Good hash := good_replicate_none _ 0

variable {t : HashTable K D} {k : K} {d : D}

omit [DecidableEq K] in
theorem HashTable.Good.allocated (h : t.Good hash) : t.allocated.Good hash := by
  unfold HashTable.allocated
  split_ifs
  · exact good_replicate_none _ 16
  · exact h

theorem accepting_slot_cases {i home : ℕ}
    (hf : findFrom (accepts k) t.slots home = some i) :
    (∃ d, t.slots[i]? = some (some (k, d))) ∨ t.slots[i]? = some none := by
  obtain ⟨-, ⟨o, ho, hacc⟩, -⟩ := findFrom_eq_some_iff.mp hf
  rcases o with - | ⟨k', d⟩
  · exact .inr ho
  · obtain rfl : k' = k := by simpa [accepts] using hacc
    exact .inl ⟨d, ho⟩

def PushAdds (hash : K → BitVec 64) (growths : ℕ) : Prop :=
  ∀ {t t' : HashTable K D} {k : K} {d : D}, t.Good hash → k ∉ keys t.slots →
    hashTablePushWithin hash growths t k d = some t' →
    t'.Good hash ∧ (entries t'.slots).Perm ((k, d) :: entries t.slots)

theorem rehash_fresh {growths : ℕ} (hpush : PushAdds (D := D) hash growths) (l : List (K × D)) :
    ∀ {e₀ e : HashTable K D}, e₀.Good hash → ((l ++ entries e₀.slots).map Prod.fst).Nodup →
      l.foldlM (fun e kd => hashTablePushWithin hash growths e kd.1 kd.2) e₀ = some e →
      e.Good hash ∧ (entries e.slots).Perm (l ++ entries e₀.slots) := by
  induction l with
  | nil =>
    intro e₀ e hg _ hfold
    obtain rfl : e₀ = e := by simpa using hfold
    exact ⟨hg, Perm.refl _⟩
  | cons kd l ih =>
    intro e₀ e hg hnd hfold
    obtain ⟨e₁, he₁, hrest⟩ := bind_eq_some_iff.mp hfold
    have hsplit := hnd
    simp only [cons_append, map_cons, nodup_cons, map_append,
      mem_append, not_or] at hsplit
    obtain ⟨hg₁, hp₁⟩ := hpush hg hsplit.1.2 he₁
    have hperm := (hp₁.append_left l).trans perm_middle
    obtain ⟨hg', hp'⟩ := ih hg₁ ((hperm.map Prod.fst).nodup_iff.mpr hnd) hrest
    exact ⟨hg', hp'.trans hperm⟩

theorem pushWithin_fresh (growths : ℕ) : PushAdds (D := D) hash growths := by
  induction growths with
  | zero =>
    intro t t' k d _ _ h
    simp [hashTablePushWithin] at h
  | succ growths ih =>
    intro t t' k d hgood hk h
    have hka : k ∉ keys t.allocated.slots := by rwa [Probe.keys, entries_allocated]
    cases hf : pushSlot hash t k with
    | some i =>
      rw [hashTablePushWithin_found hash t hf, some.injEq] at h
      subst h
      have hhome := (findFrom_eq_some_iff.mp hf).1
      rcases accepting_slot_cases hf with ⟨d', hi⟩ | hi
      · exact absurd (mem_keys_iff.mpr ⟨d', mem_entries_iff.mpr ⟨i, hi⟩⟩) hka
      · obtain ⟨hg, hp⟩ := hgood.allocated.set_fresh (d := d) hi hhome hka
        refine ⟨?_, by rwa [entries_allocated] at hp⟩
        simpa [HashTable.Good, HashTable.capacity] using hg
    | none =>
      rw [hashTablePushWithin_grow hash t hf, bind_eq_some_iff] at h
      obtain ⟨e, he, hpush⟩ := h
      obtain ⟨hge, hpe⟩ := rehash_fresh ih (entries t.slots) (good_replicate_none _ _)
        (by simpa [Probe.keys] using hgood.keys_nodup) he
      rw [entries_replicate_none, append_nil] at hpe
      have hke : k ∉ keys e.slots := fun hmem => hk ((hpe.map Prod.fst).mem_iff.mp hmem)
      obtain ⟨hg', hp'⟩ := ih hge hke hpush
      exact ⟨hg', hp'.trans (hpe.cons _)⟩

theorem hashTablePush_fresh (hgood : t.Good hash)
    (hk : k ∉ keys t.slots) :
    (hashTablePush hash t k d).Good hash ∧
      (entries (hashTablePush hash t k d).slots).Perm ((k, d) :: entries t.slots) :=
  pushWithin_fresh _ hgood hk (hashTablePushWithin_eq_some hash t k d)

theorem mem_keys_hashTablePush {k' : K} (hgood : t.Good hash)
    (hk : k ∉ keys t.slots) :
    k' ∈ keys (hashTablePush hash t k d).slots ↔ k' = k ∨ k' ∈ keys t.slots := by
  have hperm := (hashTablePush_fresh (d := d) hgood hk).2.map Prod.fst
  rw [Probe.keys, hperm.mem_iff, map_cons, mem_cons]
  rfl

def PushReaches (hash : K → BitVec 64) (t : HashTable K D) (k : K) : Prop :=
  ∀ i j d, t.slots[i]? = some (some (k, d)) → homeSlot hash t.capacity k ≤ j →
    t.slots[j]? = some none → i < j

omit [DecidableEq K] in
theorem pushReaches_of_notMem (hk : k ∉ keys t.slots) :
    PushReaches hash t k := fun i _ d hi _ _ =>
  absurd (mem_keys_iff.mpr ⟨d, mem_entries_iff.mpr ⟨i, hi⟩⟩) hk

theorem hashTablePush_reaches (hgood : t.Good hash)
    (hreach : PushReaches hash t k) :
    (hashTablePush hash t k d).Good hash ∧
      ∀ k' d', (k', d') ∈ entries (hashTablePush hash t k d).slots ↔
        (k' = k ∧ d' = d) ∨ (k' ≠ k ∧ (k', d') ∈ entries t.slots) := by
  have hfresh : k ∉ keys t.slots → (hashTablePush hash t k d).Good hash ∧
      ∀ k' d', (k', d') ∈ entries (hashTablePush hash t k d).slots ↔
        (k' = k ∧ d' = d) ∨ (k' ≠ k ∧ (k', d') ∈ entries t.slots) := by
    intro hk
    obtain ⟨hg, hp⟩ := hashTablePush_fresh (d := d) hgood hk
    refine ⟨hg, fun k' d' => ?_⟩
    rw [hp.mem_iff, mem_cons, Prod.mk.injEq]
    have hne : (k', d') ∈ entries t.slots → k' ≠ k := fun hmem heq =>
      hk (mem_keys_iff.mpr ⟨d', heq ▸ hmem⟩)
    tauto
  by_cases hk : k ∈ keys t.slots
  · -- the key is stored
    obtain ⟨d₀, hd₀⟩ := mem_keys_iff.mp hk
    obtain ⟨i, hi⟩ := mem_entries_iff.mp hd₀
    have hlt := (List.getElem?_eq_some_iff.mp hi).1
    have halloc := allocated_eq_self t (lt_of_le_of_lt (Nat.zero_le i) hlt)
    -- the copy is the first slot that accepts the key
    have hf : pushSlot hash t k = some i := by
      rw [pushSlot, halloc]
      refine findFrom_eq_some_iff.mpr ⟨hgood.placed hi, ⟨_, hi, by simp [accepts]⟩, ?_⟩
      rintro n (- | ⟨k', d'⟩) hn hni hx
      · exact absurd (hreach i n d₀ hi hn hx) (by omega)
      · by_contra hacc
        obtain rfl : k' = k := by simpa [accepts] using hacc
        exact absurd (hgood.unique hx hi) (ne_of_lt hni)
    have hval : hashTablePush hash t k d = ⟨t.slots.set i (some (k, d))⟩ := by
      rw [hashTablePush, hashTablePushWithin_found hash t hf, halloc]
      rfl
    obtain ⟨hg, rest, hold, hnew⟩ := hgood.set_replace (d := d) hi
    rw [hval]
    refine ⟨by simpa [HashTable.Good, HashTable.capacity] using hg, fun k' d' => ?_⟩
    rw [hnew.mem_iff, hold.mem_iff, mem_cons, mem_cons, Prod.mk.injEq, Prod.mk.injEq]
    have hrest : (k', d') ∈ rest → k' ≠ k := by
      rintro hmem rfl
      have hnd := (hold.map Prod.fst).nodup_iff.mp hgood.keys_nodup
      exact (nodup_cons.mp hnd).1 (mem_map.mpr ⟨_, hmem, rfl⟩)
    tauto
  · exact hfresh hk

theorem hashTableSearch_eq_some_iff (hgood : t.Good hash) :
    hashTableSearch hash t k = some d ↔ (k, d) ∈ entries t.slots := by
  have hfind := hgood.find_iff (k := k) (d := d)
  unfold hashTableSearch
  split_ifs with hcap
  · have hnil := length_eq_zero_iff.mp hcap
    simp [hnil]
  · rw [← hfind]
    cases hf : findFrom (holds k) t.slots (homeSlot hash t.capacity k) with
    | none => simp
    | some i =>
      obtain ⟨-, ⟨o, ho, hhold⟩, -⟩ := findFrom_eq_some_iff.mp hf
      rcases o with - | ⟨k', d'⟩
      · simp at hhold
      · obtain rfl : k' = k := by simpa using hhold
        simp [ho]

theorem hashTableSearch_eq_none_iff (hgood : t.Good hash) :
    hashTableSearch hash t k = none ↔ k ∉ keys t.slots := by
  rw [mem_keys_iff, eq_none_iff_forall_ne_some, not_exists]
  exact forall_congr' fun d => not_congr (hashTableSearch_eq_some_iff hgood)

theorem intSize_ofNat {n : ℕ} (h : n < 2 ^ 31) : intSize (BitVec.ofNat 32 n) = n := by
  have hn : n % 2 ^ 32 = n := Nat.mod_eq_of_lt (by omega)
  have hmsb : (BitVec.ofNat 32 n).msb = false := by
    rw [BitVec.msb_eq_false_iff_two_mul_lt, BitVec.toNat_ofNat, hn]
    omega
  rw [intSize, BitVec.signExtend_eq_setWidth_of_msb_false hmsb, BitVec.toNat_setWidth,
    BitVec.toNat_ofNat, hn, Nat.mod_eq_of_lt (by omega)]

theorem hashTableSearchInt_eq (h : t.capacity < 2 ^ 31) :
    hashTableSearchInt hash t k = some (hashTableSearch hash t k) := by
  by_cases hzero : t.capacity = 0
  · simp [hashTableSearchInt, hashTableSearch, hzero]
  · have hne : BitVec.ofNat 32 t.capacity ≠ 0 := fun heq => hzero (by
      have hnat := congrArg BitVec.toNat heq
      rwa [BitVec.toNat_ofNat, Nat.mod_eq_of_lt (by omega)] at hnat)
    have hmask : BitVec.ofNat 32 t.capacity - 1 = BitVec.ofNat 32 (t.capacity - 1) :=
      BitVec.ofNat_sub_ofNat_of_le t.capacity 1 (by decide) (pos_of_ne_zero hzero)
    have hall : t.slots.take t.capacity = t.slots := take_length
    rw [hashTableSearchInt, hashTableSearch, if_neg hne, if_neg hzero, hmask,
      intSize_ofNat h, intSize_ofNat (by omega), hall, if_pos le_rfl]
    unfold homeSlot
    cases findFrom (holds k) t.slots ((hash k).toNat &&& (t.capacity - 1)) with
    | none => rfl
    | some i => rfl

/-- A push takes the growth branch: no slot from the home slot on accepts the key. -/
def TakesGrowth (hash : K → BitVec 64) (t : HashTable K D) (k : K) : Prop :=
  pushSlot hash t k = none

theorem TakesGrowth.notMem (h : TakesGrowth hash t k)
    (hgood : t.Good hash) : k ∉ keys t.slots := by
  intro hmem
  obtain ⟨d, hd⟩ := mem_keys_iff.mp hmem
  rw [← entries_allocated t] at hd
  obtain ⟨i, hi⟩ := mem_entries_iff.mp hd
  have hrefuses := findFrom_eq_none_iff.mp h i _ (hgood.allocated.placed hi) hi
  simp [accepts] at hrefuses

theorem search_pushWithin_fresh {t' : HashTable K D} {growths : ℕ}
    (hgood : t.Good hash) (hk : k ∉ keys t.slots)
    (hpush : hashTablePushWithin hash growths t k d = some t') :
    t'.Good hash ∧ hashTableSearch hash t' k = some d ∧
      ∀ k' ≠ k, hashTableSearch hash t' k' = hashTableSearch hash t k' := by
  obtain ⟨hgood', hperm⟩ := pushWithin_fresh growths hgood hk hpush
  refine ⟨hgood', ?_, fun k' hne => ext fun d' => ?_⟩
  · rw [hashTableSearch_eq_some_iff hgood', hperm.mem_iff]
    exact mem_cons_self
  · rw [hashTableSearch_eq_some_iff hgood', hashTableSearch_eq_some_iff hgood, hperm.mem_iff,
      mem_cons, Prod.mk.injEq]
    exact or_iff_right fun h => hne h.1

theorem hashTableStore_good {d₀ : D} (hgood : t.Good hash)
    (hk : (k, d₀) ∈ entries t.slots) :
    (hashTableStore hash t k d).Good hash ∧ ∃ rest, (entries t.slots).Perm ((k, d₀) :: rest) ∧
        (entries (hashTableStore hash t k d).slots).Perm ((k, d) :: rest) := by
  obtain ⟨i, hf, hi⟩ := hgood.find_iff.mpr hk
  have hval : hashTableStore hash t k d = ⟨t.slots.set i (some (k, d))⟩ := by
    rw [hashTableStore, hf]
  obtain ⟨hg, rest, hold, hnew⟩ := hgood.set_replace (d := d) hi
  rw [hval]
  exact ⟨by simpa [HashTable.Good, HashTable.capacity] using hg, rest, hold, hnew⟩

theorem mem_entries_hashTableStore {k' : K} {d₀ d' : D}
    (hgood : t.Good hash) (hk : (k, d₀) ∈ entries t.slots) :
    (k', d') ∈ entries (hashTableStore hash t k d).slots ↔
      (k' = k ∧ d' = d) ∨ (k' ≠ k ∧ (k', d') ∈ entries t.slots) := by
  obtain ⟨-, rest, hold, hnew⟩ := hashTableStore_good (d := d) hgood hk
  rw [hnew.mem_iff, hold.mem_iff, mem_cons, mem_cons, Prod.mk.injEq, Prod.mk.injEq]
  have hrest : (k', d') ∈ rest → k' ≠ k := by
    rintro hmem rfl
    have hnodup := (hold.map Prod.fst).nodup_iff.mp hgood.keys_nodup
    exact (nodup_cons.mp hnodup).1 (mem_map.mpr ⟨_, hmem, rfl⟩)
  tauto

theorem hashTableDelete_slot {i : ℕ} (hgood : t.Good hash)
    (hi : t.slots[i]? = some (some (k, d))) :
    hashTableDelete hash t k = ⟨t.slots.set i none⟩ := by
  have hcap : t.capacity ≠ 0 := by
    have hlt := (List.getElem?_eq_some_iff.mp hi).1
    exact ne_of_gt (Nat.zero_lt_of_lt hlt)
  obtain ⟨j, hfind, hj⟩ := hgood.find_iff.mpr (mem_entries_iff.mpr ⟨i, hi⟩)
  rw [hashTableDelete, if_neg hcap, hfind, hgood.unique hj hi]

theorem hashTableDelete_good (hgood : t.Good hash) :
    (hashTableDelete hash t k).Good hash ∧
      ∀ k' d', (k', d') ∈ entries (hashTableDelete hash t k).slots ↔
        k' ≠ k ∧ (k', d') ∈ entries t.slots := by
  have habsent : k ∉ keys t.slots →
      ∀ k' d', (k', d') ∈ entries t.slots ↔ k' ≠ k ∧ (k', d') ∈ entries t.slots := by
    intro hk k' d'
    exact ⟨fun hmem => ⟨fun heq => hk (mem_keys_iff.mpr ⟨d', heq ▸ hmem⟩), hmem⟩, And.right⟩
  unfold hashTableDelete
  split_ifs with hcap
  · have hnil := length_eq_zero_iff.mp hcap
    exact ⟨hgood, habsent (by simp [Probe.keys, hnil])⟩
  · cases hf : findFrom (holds k) t.slots (homeSlot hash t.capacity k) with
    | none => exact ⟨hgood, habsent (hgood.find_none hf)⟩
    | some i =>
      obtain ⟨-, ⟨o, ho, hhold⟩, -⟩ := findFrom_eq_some_iff.mp hf
      rcases o with - | ⟨k₁, d₁⟩
      · simp at hhold
      · obtain rfl : k₁ = k := by simpa using hhold
        obtain ⟨hg, hp⟩ := hgood.set_empty ho
        refine ⟨by simpa [HashTable.Good, HashTable.capacity] using hg, fun k' d' => ?_⟩
        have hnd := (hp.map Prod.fst).nodup_iff.mp hgood.keys_nodup
        rw [hp.mem_iff, mem_cons, Prod.mk.injEq]
        have hrest : (k', d') ∈ entries (t.slots.set i none) → k' ≠ k₁ := by
          rintro hmem rfl
          exact (nodup_cons.mp hnd).1 (mem_map.mpr ⟨_, hmem, rfl⟩)
        tauto

theorem hashTableDelete_perm (hgood : t.Good hash)
    (hmem : (k, d) ∈ entries t.slots) :
    (entries t.slots).Perm ((k, d) :: entries (hashTableDelete hash t k).slots) := by
  obtain ⟨hgood', hentries⟩ := hashTableDelete_good (k := k) hgood
  have hnot : (k, d) ∉ entries (hashTableDelete hash t k).slots :=
    fun h => ((hentries k d).mp h).1 rfl
  refine (perm_ext_iff_of_nodup hgood.entries_nodup
    (nodup_cons.mpr ⟨hnot, hgood'.entries_nodup⟩)).mpr fun e => ?_
  obtain ⟨k', d'⟩ := e
  rw [mem_cons, hentries, Prod.mk.injEq]
  constructor
  · intro h
    by_cases hk : k' = k
    · subst hk
      exact .inl ⟨rfl, hgood.entry_unique h hmem⟩
    · exact .inr ⟨hk, h⟩
  · rintro (⟨rfl, rfl⟩ | ⟨-, h⟩)
    · exact hmem
    · exact h

end Push

/-! ## The table as a finite map -/

section Refinement

inductive HashOp (K D : Type*)
  | push (k : K) (d : D)
  | delete (k : K)

def HashOp.key : HashOp K D → K
  | .push k _ => k
  | .delete k => k

def lastData (ops : List (HashOp K D)) (k : K) : Option D :=
  match ops.reverse.find? (fun op => op.key = k) with
  | some (.push _ d) => some d
  | _ => none

/-- One call. -/
def hashStep (t : HashTable K D) (op : HashOp K D) (t' : HashTable K D) : Prop :=
  match op with
  | .push k d => t' = hashTablePush hash t k d
  | .delete k => t' = hashTableDelete hash t k

theorem hashStep_push (t : HashTable K D) (k : K) (d : D) :
    hashStep hash t (.push k d) (hashTablePush hash t k d) := rfl

theorem hashStep_delete (t : HashTable K D) (k : K) :
    hashStep hash t (.delete k) (hashTableDelete hash t k) := rfl

/-- Every push of the run meets the stored copy of its key before any empty slot. -/
def HashOp.Reaches (e : Event (HashTable K D) (HashOp K D)) : Prop :=
  match e.act with
  | .push k _ => PushReaches hash e.pre k
  | .delete _ => True

@[simp] theorem lastData_nil (k : K) : lastData ([] : List (HashOp K D)) k = none := rfl

theorem lastData_push (ops : List (HashOp K D)) (k k' : K) (d : D) :
    lastData (ops ++ [.push k d]) k' = if k' = k then some d else lastData ops k' := by
  by_cases h : k' = k
  · simp [lastData, HashOp.key, h]
  · simp [lastData, HashOp.key, h, Ne.symm h]

theorem lastData_delete (ops : List (HashOp K D)) (k k' : K) :
    lastData (ops ++ [.delete k]) k' = if k' = k then none else lastData ops k' := by
  by_cases h : k' = k
  · simp [lastData, HashOp.key, h]
  · simp [lastData, HashOp.key, h, Ne.symm h]

def HoldsMap (tr : List (Event (HashTable K D) (HashOp K D))) (t : HashTable K D) : Prop :=
  t.Good hash ∧ ∀ k d, (k, d) ∈ entries t.slots ↔ lastData (tr.map Event.act) k = some d

theorem holdsMap_step {tr : List (Event (HashTable K D) (HashOp K D))} {t t' : HashTable K D}
    {op : HashOp K D} (h : HoldsMap hash tr t) (hstep : hashStep hash t op t')
    (hreach : HashOp.Reaches hash ⟨t, op, t'⟩) : HoldsMap hash (tr ++ [⟨t, op, t'⟩]) t' := by
  obtain ⟨hgood, hmap⟩ := h
  cases op with
  | push k d =>
    obtain rfl : t' = hashTablePush hash t k d := hstep
    obtain ⟨hg, hmem⟩ := hashTablePush_reaches (d := d) hgood hreach
    refine ⟨hg, fun k' d' => ?_⟩
    rw [hmem, hmap, map_append, map_singleton, lastData_push]
    by_cases hk : k' = k <;> simp [hk, eq_comm]
  | delete k =>
    obtain rfl : t' = hashTableDelete hash t k := hstep
    obtain ⟨hg, hmem⟩ := hashTableDelete_good (k := k) hgood
    refine ⟨hg, fun k' d' => ?_⟩
    rw [hmem, hmap, map_append, map_singleton, lastData_delete]
    by_cases hk : k' = k <;> simp [hk]

theorem HoldsMap.search {tr : List (Event (HashTable K D) (HashOp K D))} {t : HashTable K D}
    (h : HoldsMap hash tr t) (k : K) :
    hashTableSearch hash t k = lastData (tr.map Event.act) k := by
  refine ext fun d => ?_
  rw [hashTableSearch_eq_some_iff h.1, h.2]

end Refinement

/-! ## Keys of bytes -/

section Bytes

def Key (keySize : ℕ) := { bytes : List (BitVec 8) // bytes.length = keySize }

instance (keySize : ℕ) : DecidableEq (Key keySize) :=
  inferInstanceAs (DecidableEq { bytes : List (BitVec 8) // bytes.length = keySize })

def keyHash {keySize : ℕ} (k : Key keySize) : BitVec 64 := fnvHash k.val

variable {keySize : ℕ}

/-- **The table refines a finite map** along every run of pushes and deletes from the empty table
whose pushes each meet the stored copy of their key before any empty slot, and leave a capacity that
fits in an `int`. -/
theorem hashTable_refines_map
    {tr : List (Event (HashTable (Key keySize) D) (HashOp (Key keySize) D))}
    {t : HashTable (Key keySize) D} (run : Run (hashStep keyHash) HashTable.empty tr t)
    (hreach : ∀ e ∈ tr, HashOp.Reaches keyHash e) (hint : ∀ e ∈ tr, e.post.capacity < 2 ^ 31)
    (k : Key keySize) :
    hashTableSearchInt keyHash t k = some (lastData (tr.map Event.act) k) := by
  have hmap := run.guarded (I := HoldsMap keyHash) ⟨good_empty, by simp [HashTable.empty]⟩
    (fun _ _ _ _ h hs hr => holdsMap_step keyHash h hs hr) hreach
  have hcapacity : t.capacity < 2 ^ 31 := by
    cases run with
    | nil => exact Nat.two_pow_pos 31
    | snoc _ _ => exact hint _ (mem_append_right _ mem_cons_self)
  rw [hashTableSearchInt_eq hcapacity, hmap.search]

/-- A key whose home slot of 16 is 12, as is that of `keySeventeen`. -/
def keyOne : Key 1 := ⟨[0x01#8], rfl⟩

@[inherit_doc keyOne] def keySeventeen : Key 1 := ⟨[0x11#8], rfl⟩

abbrev ByteRun := Run (hashStep (D := ℕ) (keyHash : Key 1 → BitVec 64)) HashTable.empty

theorem hashTable_refines_map_behind_hole :
    hashTableSearchInt keyHash (hashTableDelete keyHash (hashTablePush keyHash
      (hashTablePush keyHash HashTable.empty keyOne 1) keySeventeen 2) keyOne) keySeventeen =
      some (some 2) := by
  have hrun : ByteRun _ _ := ((Run.nil.snoc (hashStep_push _ _ keyOne 1)).snoc
    (hashStep_push _ _ keySeventeen 2)).snoc (hashStep_delete _ _ keyOne)
  refine (hashTable_refines_map hrun ?_ ?_ keySeventeen).trans (by decide)
  all_goals
    simp only [nil_append, cons_append, mem_cons, not_mem_nil, or_false, forall_eq_or_imp, forall_eq]
  · exact ⟨pushReaches_of_notMem (by decide), pushReaches_of_notMem (by decide +kernel), trivial⟩
  · decide +kernel

theorem hashTable_search_returns_deleted : ∃ tr t, ByteRun tr t ∧
      tr.map Event.act = [.push keyOne 1, .push keySeventeen 2, .delete keyOne,
        .push keySeventeen 3, .delete keySeventeen] ∧
      lastData (tr.map Event.act) keySeventeen = none ∧
      hashTableSearchInt keyHash t keySeventeen = some (some 2) := by
  have hrun : ByteRun _ _ := ((((Run.nil.snoc (hashStep_push _ _ keyOne 1)).snoc
    (hashStep_push _ _ keySeventeen 2)).snoc (hashStep_delete _ _ keyOne)).snoc
    (hashStep_push _ _ keySeventeen 3)).snoc (hashStep_delete _ _ keySeventeen)
  exact ⟨_, _, hrun, rfl, by decide, by decide +kernel⟩

/-- **Growing keeps the table**: where a push into a good table takes the growth branch, it returns,
and what it returns, after however many nested growths, is good. If its capacity fits in an `int`, it
has the new datum for the key and answers every other search as before. -/
theorem hashTablePush_growth {t : HashTable (Key keySize) D} {k : Key keySize} {d : D}
    (hgood : t.Good keyHash) (hgrowth : TakesGrowth keyHash t k) :
    (∃ growths t', hashTablePushWithin keyHash growths t k d = some t') ∧
      ∀ growths t', hashTablePushWithin keyHash growths t k d = some t' →
        t.capacity < 2 ^ 31 → t'.capacity < 2 ^ 31 →
        t'.Good keyHash ∧ hashTableSearchInt keyHash t' k = some (some d) ∧
          ∀ k' ≠ k, hashTableSearchInt keyHash t' k' = hashTableSearchInt keyHash t k' := by
  refine ⟨⟨_, _, hashTablePushWithin_eq_some keyHash t k d⟩, fun growths t' hpush hint hint' => ?_⟩
  obtain ⟨hgood', hkey, hother⟩ := search_pushWithin_fresh hgood (hgrowth.notMem hgood) hpush
  refine ⟨hgood', by rw [hashTableSearchInt_eq hint', hkey], fun k' hne => ?_⟩
  rw [hashTableSearchInt_eq hint', hashTableSearchInt_eq hint, hother k' hne]

/-- A key whose home slot is the last one of 16 and of 32, as is that of `keyThirtyTwo`. -/
def keyZero : Key 1 := ⟨[0x00#8], rfl⟩

@[inherit_doc keyZero] def keyThirtyTwo : Key 1 := ⟨[0x20#8], rfl⟩

/-- **Two growths in one push**: the second key meets the first at the end of both tables. -/
theorem hashTablePush_growth_twice :
    (hashTablePush keyHash (hashTablePush keyHash HashTable.empty keyZero 1) keyThirtyTwo
      2).capacity = 64 ∧
    hashTableSearchInt keyHash (hashTablePush keyHash
      (hashTablePush keyHash HashTable.empty keyZero 1) keyThirtyTwo 2) keyZero = some (some 1) := by
  have hgood : (hashTablePush keyHash HashTable.empty keyZero 1).Good keyHash :=
    (hashTablePush_fresh good_empty (by decide)).1
  have hgrowth : TakesGrowth keyHash (hashTablePush keyHash HashTable.empty keyZero 1)
      keyThirtyTwo := by
    unfold TakesGrowth
    decide +kernel
  have hcapacity : (hashTablePush keyHash (hashTablePush keyHash HashTable.empty keyZero 1)
      keyThirtyTwo 2).capacity = 64 := by decide +kernel
  have hother := ((hashTablePush_growth hgood hgrowth).2 _ _ (hashTablePushWithin_eq_some keyHash
    (hashTablePush keyHash HashTable.empty keyZero 1) keyThirtyTwo 2) (by decide +kernel)
    (by rw [hcapacity]; decide)).2.2 keyZero (by decide)
  exact ⟨hcapacity, hother.trans (by decide +kernel)⟩

/-! ## The end of an `int` -/

/-- A table of `n` slots with one entry. -/
def oneEntry (n i : ℕ) (k : K) (d : D) : HashTable K D := ⟨(replicate n none).set i (some (k, d))⟩

section OneEntry

variable {hash : K → BitVec 64} {n i : ℕ} {k k' : K} {d d' : D}

omit [DecidableEq K] in
theorem oneEntry_good (hi : i < n) (hhome : homeSlot hash n k ≤ i) :
    (oneEntry n i k d).Good hash ∧ entries (oneEntry n i k d).slots = [(k, d)] := by
  have hempty : (replicate n none : Slots K D)[i]? = some none := by simp [hi]
  obtain ⟨hgood, hperm⟩ := (good_replicate_none (homeSlot hash n) n).set_fresh (d := d) hempty hhome
    (by simp [Probe.keys])
  rw [entries_replicate_none] at hperm
  refine ⟨?_, perm_singleton.mp hperm⟩
  simpa [HashTable.Good, HashTable.capacity, oneEntry] using hgood

omit [DecidableEq K] in
@[simp] theorem capacity_oneEntry (n i : ℕ) (k : K) (d : D) : (oneEntry n i k d).capacity = n := by
  simp [oneEntry, HashTable.capacity]

theorem accepts_oneEntry (hne : k' ≠ k) (hi : i < n) {x : Option (K × D)}
    (hx : (oneEntry n i k d).slots[i]? = some x) : accepts k' x = false := by
  rw [oneEntry, getElem?_set_self (by simpa using hi)] at hx
  obtain rfl := some.inj hx
  simp [accepts, hne.symm]

theorem takesGrowth_oneEntry (hne : k' ≠ k) (hlast : homeSlot hash (i + 1) k' = i) :
    TakesGrowth hash (oneEntry (i + 1) i k d) k' := by
  rw [TakesGrowth, pushSlot, allocated_eq_self _ (by simp), capacity_oneEntry, hlast]
  refine findFrom_eq_none_iff.mpr fun n x hn hx => ?_
  have hlt := (List.getElem?_eq_some_iff.mp hx).1
  rw [show (oneEntry (i + 1) i k d).slots.length = i + 1 from capacity_oneEntry ..] at hlt
  obtain rfl : n = i := by omega
  exact accepts_oneEntry hne hlt hx

theorem push_oneEntry (hne : k' ≠ k) (hhome : homeSlot hash (i + 1) k ≤ i)
    (hlast : homeSlot hash (i + 1) k' = i) (hhome' : homeSlot hash ((i + 1) * 2) k = i)
    (hnext : homeSlot hash ((i + 1) * 2) k' = i) :
    hashTablePushWithin hash 2 (oneEntry (i + 1) i k d) k' d' =
      some ⟨(oneEntry ((i + 1) * 2) i k d).slots.set (i + 1) (some (k', d'))⟩ := by
  have hfirst : pushSlot hash (⟨replicate ((i + 1) * 2) none⟩ : HashTable K D) k = some i := by
    rw [pushSlot, allocated_eq_self _ (by simp [HashTable.capacity])]
    simp only [HashTable.capacity, length_replicate, hhome']
    exact findFrom_eq_some_iff.mpr ⟨le_rfl, ⟨none, getElem?_replicate_of_lt (by omega), rfl⟩,
      by omega⟩
  have hsecond : pushSlot hash (oneEntry ((i + 1) * 2) i k d) k' = some (i + 1) := by
    rw [pushSlot, allocated_eq_self _ (by simp), capacity_oneEntry, hnext]
    refine findFrom_eq_some_iff.mpr ⟨Nat.le_succ i, ⟨none, ?_, rfl⟩, fun n x hn hlt hx => ?_⟩
    · rw [oneEntry, getElem?_set_ne (by omega), getElem?_replicate_of_lt (by omega)]
    · obtain rfl : n = i := by omega
      exact accepts_oneEntry hne (by omega) hx
  have hone := @hashTablePushWithin_found _ _ _ hash _ _ d 0 _ hfirst
  have htwo := @hashTablePushWithin_found _ _ _ hash _ _ d' 0 _ hsecond
  rw [allocated_eq_self _ (by simp [HashTable.capacity])] at hone
  rw [allocated_eq_self _ (by simp)] at htwo
  have hentries := (oneEntry_good (d := d) (Nat.lt_succ_self i) hhome).2
  rw [hashTablePushWithin_grow hash _ (takesGrowth_oneEntry hne hlast), hentries, foldlM_cons,
    allocated_eq_self _ (by simp), capacity_oneEntry, hone]
  exact htwo

theorem searchInt_of_sign {t : HashTable K D} (hcapacity : t.capacity = 2 ^ 31)
    (hk : k ∉ keys t.slots) : hashTableSearchInt hash t k = none := by
  have hnone : ∀ l i, (∀ x ∈ l, x ∈ t.slots) → findFrom (holds k) l i = none := by
    intro l i hl
    refine findFrom_eq_none_iff.mpr fun n x _ hx => ?_
    by_contra hheld
    obtain - | ⟨k', d⟩ := x
    · exact hheld rfl
    · obtain rfl : k' = k := by simpa using hheld
      obtain ⟨j, hj⟩ := mem_iff_getElem?.mp (hl _ (mem_of_getElem? hx))
      exact hk (mem_keys_iff.mpr ⟨d, mem_entries_iff.mpr ⟨j, hj⟩⟩)
  rw [hashTableSearchInt, hcapacity, hnone _ _ fun x hx => mem_of_mem_take hx]
  exact (if_neg (by decide)).trans (if_neg (by decide))

end OneEntry

/-- A key whose hash ends in 30 ones behind a zero, as does that of `keyCollides`. -/
def keyOnes : Key 5 := ⟨[0x26#8, 0x65#8, 0x21#8, 0x43#8, 0x01#8], rfl⟩

@[inherit_doc keyOnes] def keyCollides : Key 5 := ⟨[0xd8#8, 0x9b#8, 0x21#8, 0x43#8, 0x01#8], rfl⟩

def keyAbsent : Key 5 := ⟨[0#8, 0#8, 0#8, 0#8, 0#8], rfl⟩

/-- **The capacity overflows**: a push into a good table of `2 ^ 30` slots grows, and the search of a
key that is in neither table then reads behind the arrays. -/
theorem search_behind_grown_table : ∃ t t' : HashTable (Key 5) ℕ, t.capacity = 2 ^ 30 ∧
    t.Good keyHash ∧ TakesGrowth keyHash t keyCollides ∧
    hashTablePushWithin keyHash 2 t keyCollides 2 = some t' ∧
    hashTableSearchInt keyHash t keyAbsent = some none ∧
    hashTableSearchInt keyHash t' keyAbsent = none := by
  have hne : keyCollides ≠ keyOnes := by decide
  obtain ⟨hgood, hentries⟩ := @oneEntry_good (Key 5) ℕ keyHash (1073741823 + 1)
    1073741823 keyOnes 1 (by decide) (by decide +kernel)
  have hgrowth := @takesGrowth_oneEntry (Key 5) ℕ _ keyHash 1073741823 _ _ 1 hne
    (by decide +kernel)
  have hpush := @push_oneEntry (Key 5) ℕ _ keyHash 1073741823 _ _ 1 2 hne
    (by decide +kernel) (by decide +kernel) (by decide +kernel) (by decide +kernel)
  have habsent : keyAbsent ∉ keys (oneEntry (1073741823 + 1) 1073741823 keyOnes 1).slots := by
    rw [Probe.keys, hentries]
    decide
  obtain ⟨-, hperm⟩ := pushWithin_fresh 2 hgood (hgrowth.notMem hgood) hpush
  refine ⟨oneEntry (1073741823 + 1) 1073741823 keyOnes 1, _, capacity_oneEntry .., hgood, hgrowth,
    hpush, ?_, searchInt_of_sign ?_ ?_⟩
  · rw [hashTableSearchInt_eq (by rw [capacity_oneEntry]; decide),
      (hashTableSearch_eq_none_iff hgood).mpr habsent]
  · rw [HashTable.capacity, length_set]
    exact capacity_oneEntry ..
  · rw [Probe.keys, (hperm.map Prod.fst).mem_iff, hentries]
    decide

end Bytes

end Pastoral
