import Pastoral.Mm.Alloc
import Pastoral.Theory.Run

/-!
# Vectors

The macros of `vector.h`, as operations on a list.

## Main results

* `vector_refines_iff`: when a vector is a list
-/

open Function List Option Transition

namespace Pastoral

structure VectorObject where
  size : ℕ
  live : Bool

structure VectorState (α : Type) where
  data : Option VectorObject
  length : ℕ
  bufferCapacity : ℕ
  cells : ℕ → α

def vectorAlloc (size : ℕ) : Option VectorObject := (allocSize size).map fun c => ⟨c, true⟩

def vectorRealloc (size : ℕ) : Option VectorObject → Option VectorObject
  | none => vectorAlloc size
  | some o => if size ≤ o.size then some o else vectorAlloc size

section Elements

variable {α : Type}

namespace VectorState

def elements (v : VectorState α) : List α := (List.range v.length).map v.cells

def init (v : VectorState α) : Option (VectorState α) :=
  match v.data with
  | none => (vectorRealloc 1 none).map fun o => { v with data := some o, bufferCapacity := 1 }
  | some _ => some v

def grow (sizeof : ℕ) (v : VectorState α) : Option (VectorState α) :=
  if v.length + 1 ≤ v.bufferCapacity then some v
  else (vectorRealloc (v.bufferCapacity * 2 * sizeof) v.data).map fun o =>
    { v with data := some o, bufferCapacity := v.bufferCapacity * 2 }

def store (e : α) (v : VectorState α) : VectorState α :=
  { v with cells := update v.cells v.length e, length := v.length + 1 }

def shift (cells : ℕ → α) : ℕ → ℕ → ℕ → α
  | _, 0 => cells
  | i, n + 1 => shift (update cells (i - 1) (cells i)) (i + 1) n

def removeByIndex (index : ℕ) (v : VectorState α) : VectorState α :=
  if v.length < index then v
  else
    { v with
      cells := shift v.cells (index + 1) (v.length - (index + 1))
      length := if v.length = 0 then 2 ^ 64 - 1 else v.length - 1 }

def removeByValue [DecidableEq α] (value : α) (v : VectorState α) : VectorState α :=
  if v.elements.idxOf value < v.length then v.removeByIndex (v.elements.idxOf value) else v

def clear (v : VectorState α) : VectorState α :=
  { v with
    data := v.data.map fun o => { o with live := false }
    length := 0
    bufferCapacity := 0 }

def Room (sizeof n : ℕ) (v : VectorState α) : Prop :=
  ∃ o, v.data = some o ∧ o.live = true ∧ (n ≤ v.bufferCapacity ∧ 0 < v.bufferCapacity) ∧
    v.bufferCapacity * sizeof ≤ o.size ∧ o.size ≤ 16384

end VectorState

/-- **The vector is the list**, and its elements are in an object that is in use. -/
def IsVector (sizeof : ℕ) (s : VectorState α × List α) : Prop :=
  s.1.elements = s.2 ∧
    (s.1.length = 0 ∨ ∃ o, s.1.data = some o ∧ o.live = true ∧ s.1.length * sizeof ≤ o.size)

structure VectorInv (sizeof : ℕ) (s : VectorState α × List α) : Prop where
  elements : s.1.elements = s.2
  null : s.1.data = none → s.1.length = 0
  live : ∀ o, s.1.data = some o → o.live = true → s.1.Room sizeof s.1.length
  freed : ∀ o, s.1.data = some o → o.live = false → s.1.length = 0 ∧ s.1.bufferCapacity = 0

variable {v v' : VectorState α} {s : VectorState α × List α} {sizeof : ℕ}

theorem VectorState.length_elements (v : VectorState α) : v.elements.length = v.length := by
  simp [elements]

theorem VectorState.elements_store (e : α) (v : VectorState α) :
    (v.store e).elements = v.elements ++ [e] := by
  have hcells : ∀ i ∈ range v.length, update v.cells v.length e i = v.cells i := fun i hi =>
    update_of_ne (mem_range.mp hi).ne _ _
  simp [elements, store, range_succ, map_congr_left hcells]

theorem VectorState.shift_apply (cells : ℕ → α) (i n j : ℕ) :
    shift cells (i + 1) n j = if i ≤ j ∧ j < i + n then cells (j + 1) else cells j := by
  induction n generalizing cells i with
  | zero => rw [shift, if_neg (by omega)]
  | succ n ih =>
    rw [shift, ih]
    split_ifs with hnext hall hall
    · exact update_of_ne (by omega) _ _
    · omega
    · obtain rfl : j = i := by omega
      exact update_self _ _ _
    · exact update_of_ne (by omega) _ _

theorem VectorState.elements_removeByIndex {index : ℕ} (h : index ≠ v.length) :
    (v.removeByIndex index).elements = v.elements.eraseIdx index := by
  unfold removeByIndex
  split_ifs with hlt hzero
  · rw [eraseIdx_of_length_le (by rw [length_elements]; omega)]
  · omega
  · refine ext_getElem? fun j => ?_
    by_cases hj : j < v.length - 1
    · have hnext : j + 1 < v.length := by omega
      simp only [elements, getElem?_map, getElem?_eraseIdx, getElem?_range hj,
        getElem?_range hnext, getElem?_range (Nat.lt_of_succ_lt hnext), shift_apply,
        map_some]
      split_ifs <;> first | rfl | omega
    · rw [getElem?_eq_none, getElem?_eq_none]
      · rw [length_eraseIdx_of_lt (by rw [length_elements]; omega), length_elements]
        omega
      · rw [length_elements]
        exact not_lt.mp hj

theorem allocSize_small {size c : ℕ} (hsize : size ≤ 32768) (h : allocSize size = some c) :
    size < c ∧ c ≤ 16384 := by
  have hbig : ∀ c ∈ cacheSizes, c ≤ 16384 := by decide
  obtain ⟨hne, hround⟩ := ite_none_left_eq_some.mp h
  obtain ⟨hmem, hc⟩ := ite_none_right_eq_some.mp hround
  refine ⟨?_, hbig c (some.inj hc ▸ hmem)⟩
  by_cases hlt : size < 16384
  · obtain ⟨c', hc', hless⟩ := allocSize_spec (pos_of_ne_zero hne) hlt
    obtain rfl := some.inj (h.symm.trans hc')
    exact hless
  · have hsparse : Sparse size := .inl (by omega)
    rw [allocSize_large (by omega) (by omega), if_pos hsparse] at h
    simp at h

theorem VectorInv.isVector (h : VectorInv sizeof s) : IsVector sizeof s := by
  refine ⟨h.elements, ?_⟩
  cases hdata : s.1.data with
  | none => exact .inl (h.null hdata)
  | some o =>
    cases hlive : o.live with
    | false => exact .inl (h.freed o hdata hlive).1
    | true =>
      obtain ⟨o, ho, hlive, ⟨hle, -⟩, hroom, -⟩ := h.live o hdata hlive
      exact .inr ⟨o, hdata ▸ ho, hlive, (Nat.mul_le_mul_right sizeof hle).trans hroom⟩

theorem VectorInv.init (hsizeof : sizeof ≤ 32) (h : VectorInv sizeof s)
    (hcall : ∀ o, s.1.data = some o → o.live = true) (hinit : s.1.init = some v) :
    v.elements = s.2 ∧ v.Room sizeof v.length := by
  unfold VectorState.init at hinit
  cases hdata : s.1.data with
  | none =>
    rw [hdata] at hinit
    obtain ⟨o, ho, rfl⟩ := map_eq_some_iff.mp hinit
    obtain rfl : (⟨32, true⟩ : VectorObject) = o := some.inj ho
    have hroom : 1 * sizeof ≤ 32 := by omega
    have hzero : s.1.length ≤ 1 := by
      rw [h.null hdata]
      exact Nat.zero_le 1
    exact ⟨h.elements, _, rfl, rfl, ⟨hzero, one_pos⟩, hroom, by decide⟩
  | some o =>
    rw [hdata] at hinit
    cases hinit
    exact ⟨h.elements, h.live o hdata (hcall o hdata)⟩

theorem VectorState.Room.grow (h : v.Room sizeof v.length) (hgrow : v.grow sizeof = some v') :
    v'.elements = v.elements ∧ v'.Room sizeof (v'.length + 1) := by
  obtain ⟨o, ho, hlive, ⟨hle, hpos⟩, hroom, hbound⟩ := h
  unfold VectorState.grow at hgrow
  split_ifs at hgrow with hfits
  · cases hgrow
    exact ⟨rfl, o, ho, hlive, ⟨hfits, hpos⟩, hroom, hbound⟩
  · rw [ho, vectorRealloc] at hgrow
    have hcap : v.length + 1 ≤ v.bufferCapacity * 2 ∧ 0 < v.bufferCapacity * 2 := by omega
    split_ifs at hgrow with hkept
    · cases hgrow
      exact ⟨rfl, o, rfl, hlive, hcap, hkept, hbound⟩
    · obtain ⟨o', ho', rfl⟩ := map_eq_some_iff.mp hgrow
      obtain ⟨c, hc, rfl⟩ := map_eq_some_iff.mp ho'
      have hdouble : v.bufferCapacity * 2 * sizeof ≤ 32768 := by
        rw [mul_right_comm]
        omega
      obtain ⟨hless, hbound'⟩ := allocSize_small hdouble hc
      exact ⟨rfl, _, rfl, rfl, hcap, hless.le, hbound'⟩

theorem VectorInv.push (hsizeof : sizeof ≤ 32) (h : VectorInv sizeof s) {e : α}
    (hcall : ∀ o, s.1.data = some o → o.live = true) {ready grown : VectorState α}
    (hinit : s.1.init = some ready) (hgrow : ready.grow sizeof = some grown) :
    VectorInv sizeof (grown.store e, s.2 ++ [e]) := by
  obtain ⟨hready, hroom⟩ := h.init hsizeof hcall hinit
  obtain ⟨hsame, o, ho, hlive, hrest⟩ := hroom.grow hgrow
  have hdata := ho
  refine ⟨?_, fun hnone => ?_, fun _ _ _ => ⟨o, ho, hlive, hrest⟩, fun o' ho' hfree => ?_⟩
  · rw [VectorState.elements_store, hsame, hready]
  · exact absurd (hdata.symm.trans hnone) (by simp)
  · obtain rfl := some.inj (hdata.symm.trans ho')
    exact absurd (hlive.symm.trans hfree) (by decide)

theorem VectorInv.removeByIndex (h : VectorInv sizeof s) {index : ℕ} (hne : index ≠ s.1.length) :
    VectorInv sizeof (s.1.removeByIndex index, s.2.eraseIdx index) := by
  have helements : (s.1.removeByIndex index).elements = s.2.eraseIdx index := by
    rw [VectorState.elements_removeByIndex hne, h.elements]
  have hle : (s.1.removeByIndex index).length ≤ s.1.length := by
    rw [← VectorState.length_elements, ← VectorState.length_elements, helements, h.elements]
    exact length_eraseIdx_le ..
  have hsame : (s.1.removeByIndex index).data = s.1.data ∧
      (s.1.removeByIndex index).bufferCapacity = s.1.bufferCapacity := by
    unfold VectorState.removeByIndex
    split_ifs <;> exact ⟨rfl, rfl⟩
  refine ⟨helements, fun hnone => ?_, fun o ho hlive => ?_, fun o ho hfree => ?_⟩
  · exact Nat.eq_zero_of_le_zero (h.null (hsame.1 ▸ hnone) ▸ hle)
  · obtain ⟨o, ho, hlive, ⟨hfits, hpos⟩, hroom⟩ := h.live o (hsame.1 ▸ ho) hlive
    refine ⟨o, hsame.1 ▸ ho, hlive, ?_⟩
    rw [hsame.2]
    exact ⟨⟨hle.trans hfits, hpos⟩, hroom⟩
  · obtain ⟨hzero, hcap⟩ := h.freed o (hsame.1 ▸ ho) hfree
    exact ⟨Nat.eq_zero_of_le_zero (hzero ▸ hle), hsame.2.trans hcap⟩

end Elements

inductive VectorOp (α : Type)
  | push (e : α)
  | removeByIndex (index : ℕ)
  | removeByValue (value : α)
  | clear

section Calls

variable {α : Type} [DecidableEq α] {sizeof : ℕ}

def VectorOp.run (sizeof : ℕ) (v : VectorState α) : VectorOp α → Option (VectorState α)
  | push e => (v.init.bind (VectorState.grow sizeof)).map (VectorState.store e)
  | removeByIndex index => some (v.removeByIndex index)
  | removeByValue value => some (v.removeByValue value)
  | clear => some v.clear

def VectorOp.onList (l : List α) : VectorOp α → List α
  | push e => l ++ [e]
  | removeByIndex index => l.eraseIdx index
  | removeByValue value => l.erase value
  | clear => []

def vectorNext (sizeof : ℕ) (s : VectorState α × List α) (op : VectorOp α) :
    Option (VectorState α × List α) :=
  (op.run sizeof s.1).map fun v => (v, op.onList s.2)

def vectorStep (sizeof : ℕ) (s : VectorState α × List α) (op : VectorOp α)
    (s' : VectorState α × List α) : Prop := vectorNext sizeof s op = some s'

def VectorOp.proper (v : VectorState α) : VectorOp α → Bool
  | push _ => v.data.all VectorObject.live
  | removeByIndex index => index ≠ v.length
  | _ => true

variable {s s' : VectorState α × List α} {op : VectorOp α}

theorem VectorInv.step (hsizeof : sizeof ≤ 32) (h : VectorInv sizeof s)
    (hstep : vectorStep sizeof s op s') (hcall : op.proper s.1) : VectorInv sizeof s' := by
  obtain ⟨v', hrun, rfl⟩ := map_eq_some_iff.mp hstep
  cases op with
  | push e =>
    obtain ⟨grown, hgrown, rfl⟩ := map_eq_some_iff.mp hrun
    obtain ⟨ready, hinit, hgrow⟩ := bind_eq_some_iff.mp hgrown
    exact h.push hsizeof ((Option.all_eq_true ..).mp hcall) hinit hgrow
  | removeByIndex index =>
    cases hrun
    exact h.removeByIndex (of_decide_eq_true hcall)
  | removeByValue value =>
    cases hrun
    have hlength := VectorState.length_elements s.1
    rw [h.elements] at hlength
    rw [VectorOp.onList, ← eraseIdx_idxOf_eq_erase, VectorState.removeByValue, h.elements]
    split_ifs with hlt
    · exact h.removeByIndex hlt.ne
    · rw [eraseIdx_of_length_le (by omega)]
      exact h
  | clear =>
    cases hrun
    refine ⟨rfl, fun _ => rfl, fun o ho hlive => ?_, fun _ _ _ => ⟨rfl, rfl⟩⟩
    obtain ⟨o', -, rfl⟩ := map_eq_some_iff.mp ho
    simp at hlive

theorem VectorInv.call_of_isVector (h : VectorInv sizeof s) (hstep : vectorStep sizeof s op s')
    (hpost : IsVector sizeof s') : op.proper s.1 := by
  obtain ⟨v', hrun, rfl⟩ := map_eq_some_iff.mp hstep
  cases op with
  | push e =>
    refine (Option.all_eq_true ..).mpr fun o ho => ?_
    cases hlive : o.live with
    | true => rfl
    | false =>
      -- The capacity stays 0, and the element is stored in the object that was freed.
      obtain ⟨hzero, hcap⟩ := h.freed o ho hlive
      have hstored : v' = VectorState.store e { s.1 with data := some o, bufferCapacity := 0 } := by
        simpa [VectorOp.run, VectorState.init, VectorState.grow, vectorRealloc, ho, hcap,
          eq_comm] using hrun
      subst hstored
      rcases hpost.2 with hnil | ⟨o', ho', hlive', -⟩
      · exact absurd hnil (Nat.succ_ne_zero _)
      · cases ho'
        exact absurd (hlive.symm.trans hlive') (by decide)
  | removeByIndex index =>
    refine decide_eq_true ?_
    rintro rfl
    cases hrun
    have hlength := congrArg length hpost.1
    rw [VectorState.length_elements, VectorOp.onList, eraseIdx_of_length_le, ← h.elements,
      VectorState.length_elements, VectorState.removeByIndex, if_neg (lt_irrefl _)] at hlength
    · dsimp only at hlength
      split_ifs at hlength <;> omega
    · rw [← h.elements, VectorState.length_elements]
  | removeByValue value => rfl
  | clear => rfl

/-- **When a vector is a list**, for every run from a vector of zeros: if and only if no element is
pushed to an object that was freed, and no index that is removed is the length. -/
theorem vector_refines_iff (hsizeof : sizeof ≤ 32) {cells : ℕ → α}
    {tr : List (Event (VectorState α × List α) (VectorOp α))}
    (run : Run (vectorStep sizeof) (⟨none, 0, 0, cells⟩, []) tr s) :
    (∀ e ∈ tr, IsVector sizeof e.post) ↔ ∀ e ∈ tr, e.act.proper e.pre.1 :=
  run.every_iff (I := VectorInv sizeof) ⟨rfl, fun _ => rfl, by simp, by simp⟩
    (fun _ _ _ h hstep hcall => h.step hsizeof hstep hcall)
    fun _ _ _ h hstep => ⟨h.call_of_isVector hstep, fun hcall =>
      (h.step hsizeof hstep hcall).isVector⟩

theorem vector_refines_iff_list : ∃ tr s,
    Run (vectorStep 8) (⟨none, 0, 0, fun _ => 0⟩, []) tr s ∧
      tr.map Event.act = [VectorOp.push 7, .push 8, .removeByIndex 0] ∧ s.2 = [8] ∧
        ∀ e ∈ tr, IsVector 8 e.post := by
  obtain ⟨tr, s, run, hacts, hlist, hproper⟩ := Run.computed (f := vectorNext 8)
    (P := fun tr s => s.2 = [8] ∧ ∀ e ∈ tr, e.act.proper e.pre.1)
    (⟨none, 0, 0, fun _ => 0⟩, []) [VectorOp.push 7, .push 8, .removeByIndex 0] (by decide +kernel)
  exact ⟨tr, s, run, hacts, hlist, (vector_refines_iff (by decide) run).mpr hproper⟩

/-- **An element is dropped** by an index that is not below the length, and **an element is stored
in a freed object** after the vector was cleared. -/
theorem vector_differs :
    (∃ tr s, Run (vectorStep 8) (⟨none, 0, 0, fun _ => 0⟩, []) tr s ∧
      tr.map Event.act = [VectorOp.push 7, .removeByIndex 1] ∧ s.1.elements = [] ∧ s.2 = [7]) ∧
    ∃ tr s, Run (vectorStep 8) (⟨none, 0, 0, fun _ => 0⟩, []) tr s ∧
      tr.map Event.act = [VectorOp.push 7, .clear, .push 8] ∧ s.1.elements = [8] ∧
        s.1.data.map VectorObject.live = some false := by
  constructor
  · exact Run.computed (f := vectorNext 8)
      (P := fun _ s => s.1.elements = [] ∧ s.2 = [7]) _ _ (by decide +kernel)
  · exact Run.computed (f := vectorNext 8)
      (P := fun _ s => s.1.elements = [8] ∧ s.1.data.map VectorObject.live = some false) _ _
      (by decide +kernel)

end Calls

/-! ## The end of a vector -/

/-- The vector after `n` pushes from zeros, if none of them writes through NULL. -/
def vectorOf (sizeof : ℕ) : ℕ → Option (VectorState Unit)
  | 0 => some ⟨none, 0, 0, fun _ => ()⟩
  | n + 1 => (vectorOf sizeof n).bind fun v => (VectorOp.push ()).run sizeof v

/-- `VECTOR_PUSH` to a vector that is only pushed to. -/
def vectorPush {α : Type} (sizeof : ℕ) (l : List α) (a : α) : Option (List α) :=
  if (vectorOf sizeof (l.length + 1)).isSome then some (l ++ [a]) else none

/-- The object after the capacity has been doubled `k` times. -/
def objectAfter (sizeof : ℕ) : ℕ → Option VectorObject
  | 0 => vectorAlloc 1
  | k + 1 => (objectAfter sizeof k).bind fun o => vectorRealloc (2 ^ k * 2 * sizeof) (some o)

section Limit

variable {sizeof k n : ℕ}

theorem vectorOf_eq (sizeof n : ℕ) : vectorOf sizeof (n + 1) =
    (objectAfter sizeof (Nat.clog 2 (n + 1))).map fun o =>
      ⟨some o, n + 1, 2 ^ Nat.clog 2 (n + 1), fun _ => ()⟩ := by
  induction n with
  | zero => rfl
  | succ n ih =>
    rw [vectorOf, ih]
    have hle : n + 1 ≤ 2 ^ Nat.clog 2 (n + 1) := Nat.le_pow_clog (by decide) _
    by_cases hroom : n + 2 ≤ 2 ^ Nat.clog 2 (n + 1)
    · have hclog : Nat.clog 2 (n + 2) = Nat.clog 2 (n + 1) :=
        Nat.le_antisymm (Nat.clog_le_of_le_pow hroom) (Nat.clog_mono_right 2 (Nat.le_succ _))
      rw [hclog]
      cases objectAfter sizeof (Nat.clog 2 (n + 1)) with
      | none => rfl
      | some o =>
        rw [Option.map_some, Option.bind_some, VectorOp.run, VectorState.init, Option.bind_some,
          VectorState.grow, if_pos hroom]
        simp [VectorState.store]
    · -- The vector is full.
      have hclog : Nat.clog 2 (n + 2) = Nat.clog 2 (n + 1) + 1 := by
        refine Nat.le_antisymm (Nat.clog_le_of_le_pow ?_) ?_
        · rw [pow_succ]
          omega
        · by_contra hlt
          exact hroom ((Nat.clog_le_iff_le_pow (by decide)).mp (by omega))
      rw [hclog, objectAfter]
      cases objectAfter sizeof (Nat.clog 2 (n + 1)) with
      | none => rfl
      | some o =>
        rw [Option.map_some, Option.bind_some, VectorOp.run, VectorState.init, Option.bind_some,
          VectorState.grow, if_neg hroom, Option.bind_some, pow_succ, Option.map_map]
        simp only [VectorState.store, Function.comp_def, update_eq_self]

theorem objectAfter_mono (h : (objectAfter sizeof n).isSome) (hk : k ≤ n) :
    (objectAfter sizeof k).isSome := by
  induction hk with
  | refl => exact h
  | step _ ih =>
    obtain ⟨o, ho⟩ := isSome_iff_exists.mp h
    obtain ⟨o', ho', -⟩ := bind_eq_some_iff.mp ho
    exact ih (isSome_of_eq_some ho')

/-- **Where a vector ends**: the push that would double the capacity the `k + 1`-th time fails. -/
theorem vectorOf_isSome_iff (hlast : (objectAfter sizeof k).isSome)
    (hfull : (objectAfter sizeof (k + 1)).isNone) (n : ℕ) :
    (vectorOf sizeof n).isSome ↔ n ≤ 2 ^ k := by
  cases n with
  | zero => simp [vectorOf]
  | succ n =>
    rw [vectorOf_eq, isSome_map]
    constructor
    · intro h
      by_contra hge
      have hclog : k + 1 ≤ Nat.clog 2 (n + 1) :=
        (Nat.lt_clog_iff_pow_lt (by decide)).mpr (by omega)
      exact absurd (objectAfter_mono h hclog) (by simpa using hfull)
    · intro hle
      exact objectAfter_mono hlast (Nat.clog_le_of_le_pow hle)

theorem vectorPush_eq {α : Type} (hlast : (objectAfter sizeof k).isSome)
    (hfull : (objectAfter sizeof (k + 1)).isNone) (l : List α) (a : α) :
    vectorPush sizeof l a = if l.length < 2 ^ k then some (l ++ [a]) else none :=
  if_congr (vectorOf_isSome_iff hlast hfull _) rfl rfl

end Limit

end Pastoral
