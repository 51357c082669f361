import Pastoral.Lib.Vector

/-!
# The records of the MADT

The loop of `apic_init` over the table.

## Main definitions

* `apicInit`: the loop; none is a push to a vector that is full
* `MadtRecord`: a record whose payload has at least the bytes of its struct
* `MadtLists.of`: the structs of the records, by type

## Main results

* `madt_walk_iff`: the loop ends with these lists if and only if they fit in the vectors
-/

open BitVec List

namespace Pastoral

/-! ## Structs -/

def read16 (m : ℕ → BitVec 8) (a : ℕ) : BitVec 16 := m (a + 1) ++ m a

def read32 (m : ℕ → BitVec 8) (a : ℕ) : BitVec 32 := read16 m (a + 2) ++ read16 m a

structure MadtEnt0 where
  acpiId : BitVec 8
  apicId : BitVec 8
  flags : BitVec 32

def MadtEnt0.read (m : ℕ → BitVec 8) (a : ℕ) : MadtEnt0 := ⟨m a, m (a + 1), read32 m (a + 2)⟩

structure MadtEnt1 where
  ioapicId : BitVec 8
  reserved : BitVec 8
  ioapicAddr : BitVec 32
  gsiBase : BitVec 32
  deriving DecidableEq

def MadtEnt1.read (m : ℕ → BitVec 8) (a : ℕ) : MadtEnt1 :=
  ⟨m a, m (a + 1), read32 m (a + 2), read32 m (a + 6)⟩

structure MadtEnt2 where
  busSrc : BitVec 8
  irqSrc : BitVec 8
  gsi : BitVec 32
  flags : BitVec 16
  deriving DecidableEq

def MadtEnt2.read (m : ℕ → BitVec 8) (a : ℕ) : MadtEnt2 :=
  ⟨m a, m (a + 1), read32 m (a + 2), read16 m (a + 6)⟩

structure MadtEnt4 where
  acpiId : BitVec 8
  flags : BitVec 16
  lint : BitVec 8

def MadtEnt4.read (m : ℕ → BitVec 8) (a : ℕ) : MadtEnt4 := ⟨m a, read16 m (a + 1), m (a + 3)⟩

structure MadtEnt5 where
  reserved : BitVec 16
  lapicOverride : BitVec 8

def MadtEnt5.read (m : ℕ → BitVec 8) (a : ℕ) : MadtEnt5 := ⟨read16 m a, m (a + 2)⟩

structure MadtLists where
  ent0 : List MadtEnt0
  ent1 : List MadtEnt1
  ent2 : List MadtEnt2
  ent4 : List MadtEnt4
  ent5 : List MadtEnt5

def MadtLists.append (a b : MadtLists) : MadtLists :=
  ⟨a.ent0 ++ b.ent0, a.ent1 ++ b.ent1, a.ent2 ++ b.ent2, a.ent4 ++ b.ent4, a.ent5 ++ b.ent5⟩

/-! ## The loop -/

def madtCase {α : Type} (sizeof : ℕ) (type : BitVec 8) (read : (ℕ → BitVec 8) → ℕ → α)
    (list : List α) (entryType : BitVec 8) (m : ℕ → BitVec 8) (i : ℕ) : Option (List α) :=
  if entryType = type then vectorPush sizeof list (read m i) else some list

def MadtLists.push (l : MadtLists) (entryType : BitVec 8) (m : ℕ → BitVec 8) (i : ℕ) :
    Option MadtLists := do
  let ent0 ← madtCase 6 0 MadtEnt0.read l.ent0 entryType m i
  let ent1 ← madtCase 10 1 MadtEnt1.read l.ent1 entryType m i
  let ent2 ← madtCase 8 2 MadtEnt2.read l.ent2 entryType m i
  let ent4 ← madtCase 4 4 MadtEnt4.read l.ent4 entryType m i
  let ent5 ← madtCase 3 5 MadtEnt5.read l.ent5 entryType m i
  return ⟨ent0, ent1, ent2, ent4, ent5⟩

def sizeofMadtHdr : BitVec 64 := 44#64

def madtLoop (entries : ℕ → BitVec 8) (length : BitVec 64) :
    ℕ → BitVec 64 → MadtLists → Option MadtLists
  | 0, _, _ => none
  | fuel + 1, i, lists =>
    if i < length then
      let entryType := entries i.toNat
      let entrySize := entries (i + 1#64).toNat
      let i := i + 2#64
      (lists.push entryType entries i.toNat).bind
        (madtLoop entries length fuel (i + (entrySize.setWidth 64 - 3#64) + 1#64))
    else some lists

def apicInit (entries : ℕ → BitVec 8) (length : BitVec 32) (fuel : ℕ) : Option MadtLists :=
  madtLoop entries (length.setWidth 64 - sizeofMadtHdr) fuel 0 ⟨[], [], [], [], []⟩

/-! ## The records -/

def structSize (type : BitVec 8) : ℕ :=
  if type = 0 then 6 else if type = 1 then 10 else if type = 2 then 8 else
    if type = 4 then 4 else if type = 5 then 3 else 0

structure MadtRecord where
  entryType : BitVec 8
  payload : List (BitVec 8)
  short : 2 + payload.length ≤ 255
  long : structSize entryType ≤ payload.length

namespace MadtRecord

def bytes (r : MadtRecord) : List (BitVec 8) :=
  r.entryType :: BitVec.ofNat 8 (2 + r.payload.length) :: r.payload

def struct {α : Type} (read : (ℕ → BitVec 8) → ℕ → α) (r : MadtRecord) : α :=
  read (r.payload.getD · 0#8) 0

end MadtRecord

def structsOf {α : Type} (type : BitVec 8) (read : (ℕ → BitVec 8) → ℕ → α) (rs : List MadtRecord) :
    List α :=
  (rs.filter (·.entryType = type)).map (·.struct read)

def MadtLists.of (rs : List MadtRecord) : MadtLists :=
  ⟨structsOf 0 MadtEnt0.read rs, structsOf 1 MadtEnt1.read rs, structsOf 2 MadtEnt2.read rs,
    structsOf 4 MadtEnt4.read rs, structsOf 5 MadtEnt5.read rs⟩

/-- The lists are not longer than their vectors can be. -/
def MadtLists.Fits (l : MadtLists) : Prop :=
  l.ent0.length ≤ 2 ^ 11 ∧ l.ent1.length ≤ 2 ^ 10 ∧ l.ent2.length ≤ 2 ^ 10 ∧
    l.ent4.length ≤ 2 ^ 11 ∧ l.ent5.length ≤ 2 ^ 12
  deriving Decidable

def madtBytes (rs : List MadtRecord) : List (BitVec 8) := rs.flatMap MadtRecord.bytes

section Walk

variable {m : ℕ → BitVec 8} {i : ℕ} {r : MadtRecord} {rs : List MadtRecord}

theorem structsOf_cons {α : Type} (type : BitVec 8) (read : (ℕ → BitVec 8) → ℕ → α) :
    structsOf type read (r :: rs) = structsOf type read [r] ++ structsOf type read rs := by
  rw [structsOf, ← singleton_append, filter_append, map_append]
  rfl

theorem append_of_cons (lists : MadtLists) :
    (lists.append (.of [r])).append (.of rs) = lists.append (.of (r :: rs)) := by
  simp only [MadtLists.append, MadtLists.of, List.append_assoc, ← structsOf_cons]

theorem MadtLists.Fits.of_append {a b : MadtLists} (h : (a.append b).Fits) : a.Fits := by
  simp only [Fits, append, length_append] at h
  unfold Fits
  omega

theorem madtCase_eq {α : Type} {sizeof k : ℕ} {type : BitVec 8} {read : (ℕ → BitVec 8) → ℕ → α}
    {list : List α} (hlast : (objectAfter sizeof k).isSome)
    (hfull : (objectAfter sizeof (k + 1)).isNone) (hroom : list.length ≤ 2 ^ k)
    (h : r.entryType = type → read m i = r.struct read) :
    madtCase sizeof type read list r.entryType m i =
      if (list ++ structsOf type read [r]).length ≤ 2 ^ k then some (list ++ structsOf type read [r])
      else none := by
  unfold madtCase
  by_cases htype : r.entryType = type
  · have hone : structsOf type read [r] = [read m i] := by simp [structsOf, htype, h htype]
    rw [if_pos htype, hone, vectorPush_eq hlast hfull]
    exact if_congr (by rw [length_append, length_singleton]; rfl) rfl rfl
  · have hnil : structsOf type read [r] = [] := by simp [structsOf, htype]
    rw [if_neg htype, hnil, append_nil, if_pos hroom]

theorem push_eq {lists : MadtLists} (hroom : lists.Fits)
    (h : ∀ k < r.payload.length, r.payload[k]? = some (m (i + k))) :
    lists.push r.entryType m i =
      if (lists.append (.of [r])).Fits then some (lists.append (.of [r])) else none := by
  have hread : ∀ k < structSize r.entryType, m (i + k) = r.payload.getD k 0#8 :=
    fun k hk => by
      rw [getD_eq_getElem?_getD, h k (Nat.lt_of_lt_of_le hk r.long), Option.getD_some]
  obtain ⟨h₀, h₁, h₂, h₄, h₅⟩ := hroom
  unfold MadtLists.push
  rw [madtCase_eq (k := 11) (by decide) (by decide) h₀ fun ht => ?_,
    madtCase_eq (k := 10) (by decide) (by decide) h₁ fun ht => ?_,
    madtCase_eq (k := 10) (by decide) (by decide) h₂ fun ht => ?_,
    madtCase_eq (k := 11) (by decide) (by decide) h₄ fun ht => ?_,
    madtCase_eq (k := 12) (by decide) (by decide) h₅ fun ht => ?_]
  · by_cases hall : (lists.append (.of [r])).Fits
    · rw [if_pos hall]
      simp only [MadtLists.Fits, MadtLists.append, MadtLists.of] at hall
      simp only [hall, if_true]
      rfl
    · rw [if_neg hall]
      simp only [MadtLists.Fits, MadtLists.append, MadtLists.of] at hall
      split_ifs <;> first | rfl | tauto
  all_goals
    rw [ht] at hread
    have hfirst : m i = r.payload.getD 0 0#8 := hread 0 (by decide)
    simp (disch := decide) only [MadtRecord.struct, MadtEnt0.read, MadtEnt1.read, MadtEnt2.read,
      MadtEnt4.read, MadtEnt5.read, read32, read16, Nat.add_assoc, hread, hfirst]

theorem madtLoop_index {n : ℕ} (hn : 2 + n ≤ 255) :
    BitVec.ofNat 64 i + 2#64 + ((BitVec.ofNat 8 (2 + n)).setWidth 64 - 3#64) + 1#64 =
      BitVec.ofNat 64 (i + (2 + n)) := by
  have hsize : (BitVec.ofNat 8 (2 + n)).setWidth 64 = BitVec.ofNat 64 (2 + n) := by
    apply eq_of_toNat_eq
    rw [toNat_setWidth, toNat_ofNat, toNat_ofNat]
    omega
  rw [ofNat_add i]
  grind

theorem madtLoop_records {length : BitVec 64} {fuel : ℕ} {lists : MadtLists} (hroom : lists.Fits)
    (hm : ∀ k < (madtBytes rs).length, (madtBytes rs)[k]? = some (m (i + k)))
    (hlength : length.toNat = i + (madtBytes rs).length) (hfuel : rs.length < fuel) :
    madtLoop m length fuel (BitVec.ofNat 64 i) lists =
      if (lists.append (.of rs)).Fits then some (lists.append (.of rs)) else none := by
  obtain ⟨fuel, rfl⟩ : ∃ f, fuel = f + 1 := ⟨fuel - 1, by omega⟩
  induction rs generalizing i fuel lists with
  | nil =>
    have hend : ¬ BitVec.ofNat 64 i < length := by
      rw [lt_def, toNat_ofNat, Nat.mod_eq_of_lt (by omega), hlength]
      exact Nat.lt_irrefl i
    have hnil : lists.append (.of []) = lists := by simp [MadtLists.append, MadtLists.of, structsOf]
    rw [madtLoop, if_neg hend, hnil, if_pos hroom]
  | cons r rs ih =>
    have hbytes : madtBytes (r :: rs) = r.entryType :: BitVec.ofNat 8 (2 + r.payload.length) ::
        (r.payload ++ madtBytes rs) := rfl
    rw [hbytes] at hm hlength
    simp only [length_cons, length_append] at hm hlength hfuel
    have hat : ∀ j, j ≤ 2 → (BitVec.ofNat 64 i + BitVec.ofNat 64 j).toNat = i + j := fun j hj => by
      rw [← ofNat_add, toNat_ofNat, Nat.mod_eq_of_lt (by omega)]
    have htype : m i = r.entryType := (Option.some.inj (hm 0 (by omega))).symm
    have hsize : m (i + 1) = BitVec.ofNat 8 (2 + r.payload.length) :=
      (Option.some.inj (hm 1 (by omega))).symm
    have hpayload : ∀ k < r.payload.length, r.payload[k]? = some (m (i + 2 + k)) := fun k hk => by
      rw [Nat.add_assoc, Nat.add_comm 2 k, ← hm (k + 2) (by omega)]
      exact (getElem?_append_left hk).symm
    have hrest : ∀ k < (madtBytes rs).length,
        (madtBytes rs)[k]? = some (m (i + (2 + r.payload.length) + k)) := fun k hk => by
      rw [show i + (2 + r.payload.length) + k = i + (r.payload.length + k + 2) by omega,
        ← hm _ (by omega), getElem?_cons_succ, getElem?_cons_succ,
        getElem?_append_right (Nat.le_add_right _ _), Nat.add_sub_cancel_left]
    have hi : (BitVec.ofNat 64 i).toNat = i := by
      rw [toNat_ofNat, Nat.mod_eq_of_lt (by omega)]
    have hin : BitVec.ofNat 64 i < length := by
      rw [lt_def]
      omega
    obtain ⟨fuel, rfl⟩ : ∃ f, fuel = f + 1 := ⟨fuel - 1, by omega⟩
    rw [madtLoop, if_pos hin]
    dsimp only
    rw [hi, htype, hat 1 (by omega), hsize, madtLoop_index r.short, hat 2 (by omega),
      push_eq hroom hpayload, ← @append_of_cons r rs]
    split_ifs with hfits hall hall
    · rw [Option.bind_some, ih hfits hrest (by omega) _ (by omega), if_pos hall]
    · rw [Option.bind_some, ih hfits hrest (by omega) _ (by omega), if_neg hall]
    · exact absurd hall.of_append hfits
    · rfl

theorem apicInit_eq {entries : ℕ → BitVec 8} {length : BitVec 32} {fuel : ℕ} (rs : List MadtRecord)
    (hentries : ∀ k < (madtBytes rs).length, (madtBytes rs)[k]? = some (entries k))
    (hlength : length.toNat = 44 + (madtBytes rs).length) (hfuel : rs.length < fuel) :
    apicInit entries length fuel =
      if (MadtLists.of rs).Fits then some (.of rs) else none := by
  have hcut : (length.setWidth 64 - sizeofMadtHdr).toNat = 0 + (madtBytes rs).length := by
    rw [sizeofMadtHdr, toNat_sub, toNat_setWidth, toNat_ofNat]
    omega
  exact @madtLoop_records entries 0 rs _ fuel ⟨[], [], [], [], []⟩ (by decide)
    (by simpa using hentries) hcut hfuel

/-- **The walk**: it ends, and the lists have the structs of the records of their types, in order, if
and only if none of the vectors is full before. -/
theorem madt_walk_iff {entries : ℕ → BitVec 8} {length : BitVec 32} (rs : List MadtRecord)
    (hentries : ∀ k < (madtBytes rs).length, (madtBytes rs)[k]? = some (entries k))
    (hlength : length.toNat = 44 + (madtBytes rs).length) :
    (∀ fuel > rs.length, apicInit entries length fuel = some (.of rs)) ↔
      (MadtLists.of rs).Fits := by
  constructor
  · intro h
    have hwalk := h _ (Nat.lt_succ_self _)
    rw [apicInit_eq rs hentries hlength (Nat.lt_succ_self _)] at hwalk
    by_contra hfull
    rw [if_neg hfull] at hwalk
    exact absurd hwalk (by simp)
  · intro hfits fuel hfuel
    rw [apicInit_eq rs hentries hlength hfuel, if_pos hfits]

def override : MadtRecord := ⟨2#8, [0, 0, 2, 0, 0, 0, 0, 0], by decide, by decide⟩

/-- **A table** with the record of an interrupt source override and an empty one. -/
theorem madt_walk_iff_override : ∃ entries rs,
    (∀ fuel > 2, apicInit entries 56#32 fuel = some (MadtLists.of rs)) ∧
      (MadtLists.of rs).ent2 = [⟨0#8, 0#8, 2#32, 0#16⟩] :=
  ⟨([2, 10, 0, 0, 2, 0, 0, 0, 0, 0, 9, 2].getD · 0#8),
    [override, ⟨9#8, [], by decide, by decide⟩],
    (madt_walk_iff [override, ⟨9#8, [], by decide, by decide⟩] (by decide) (by decide)).mpr
      (by decide), by decide⟩

theorem length_overrides (n : ℕ) : (madtBytes (replicate n override)).length = n * 10 := by
  simp [madtBytes, MadtRecord.bytes, override]

theorem ent2_overrides (n : ℕ) : (MadtLists.of (replicate n override)).ent2.length = n := by
  simp [MadtLists.of, structsOf, override]

/-- **A table of 1025 overrides**: the last push of its walk writes through NULL. -/
theorem madt_walk_faults : (madtBytes (replicate 1025 override)).length = 10250 ∧
    ∀ fuel > 1025,
      apicInit (fun k => (madtBytes (replicate 1025 override)).getD k 0#8) 10294#32 fuel = none := by
  refine ⟨length_overrides 1025, fun fuel hfuel => ?_⟩
  have hfull : ¬ (MadtLists.of (replicate 1025 override)).Fits := by
    intro h
    have hlen := h.2.2.1
    rw [ent2_overrides] at hlen
    omega
  rw [apicInit_eq (replicate 1025 override) (fun k hk => ?_) (by rw [length_overrides]; decide)
    (by rwa [length_replicate]), if_neg hfull]
  rw [getD_eq_getElem?_getD, List.getElem?_eq_getElem hk, Option.getD_some]

end Walk

end Pastoral
