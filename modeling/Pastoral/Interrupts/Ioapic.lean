import Pastoral.Interrupts.Madt

/-!
# Routing of interrupts

`ioapic_set_irq_redirection` keeps the `gsi` of an override in the byte that had the number of the
interrupt, and compares it with the number of entries of an IOAPIC and not with the end of its
window.

## Main results

* `irq_routed_iff`: when the entry is written to the slot of its `gsi`
-/

open BitVec List

namespace Pastoral

/-! ## Functions -/

structure Ioapic where
  maximumRedirectionEntry : BitVec 32
  madt1 : MadtEnt1
  small : maximumRedirectionEntry.toNat ≤ 0xff

structure IoapicWrite where
  ioapic : ℕ
  reg : BitVec 32
  data : BitVec 32
  deriving DecidableEq

def ioapicWriteRedirectionTable (ioapic : ℕ) (redirectionEntry : BitVec 32) (data : BitVec 64) :
    List IoapicWrite :=
  [⟨ioapic, redirectionEntry + 0x10, data.setWidth 32⟩,
    ⟨ioapic, redirectionEntry + 0x10 + 1, (data >>> 32).setWidth 32⟩]

def ioapicIntMask : BitVec 64 := 1#64 <<< 16
def ioapicTriggerMode : BitVec 64 := 1#64 <<< 15
def ioapicIntpol : BitVec 64 := 1#64 <<< 13

def MadtEnt2.redirectionFlags (madt2 : MadtEnt2) : BitVec 64 :=
  if madt2.flags &&& 2#16 ≠ 0 then ioapicIntpol
  else if madt2.flags &&& 8#16 ≠ 0 then ioapicTriggerMode
  else 0

structure Redirection where
  lapicId : BitVec 32
  vector : BitVec 8
  irq : BitVec 8
  mask : Bool
  ent2List : List MadtEnt2
  ioapicList : List Ioapic

namespace Redirection

variable (r : Redirection)

def source : Option MadtEnt2 := r.ent2List.find? (·.irqSrc = r.irq)

def entry : BitVec 64 :=
  r.vector.setWidth 64 |||
    ((r.source.elim 0 MadtEnt2.redirectionFlags) ||| if r.mask then ioapicIntMask else 0) |||
    r.lapicId.setWidth 64 <<< 56

def truncated : BitVec 32 := (r.source.elim r.irq fun madt2 => madt2.gsi.setWidth 8).setWidth 32

def Matches (irq : BitVec 32) (io : Ioapic) : Prop :=
  irq ≤ io.maximumRedirectionEntry ∧ io.madt1.gsiBase ≤ irq
  deriving Decidable

def gsi : BitVec 32 := r.source.elim (r.irq.setWidth 32) MadtEnt2.gsi

end Redirection

def ioapicSetIrqRedirection (r : Redirection) : BitVec 32 × List IoapicWrite :=
  (r.truncated, match r.ioapicList.zipIdx.find? fun p => Redirection.Matches r.truncated p.1 with
    | some (io, i) =>
      ioapicWriteRedirectionTable i ((r.truncated - io.madt1.gsiBase) * 2) r.entry
    | none => [])

/-! ## Windows -/

def Ioapic.InWindow (io : Ioapic) (gsi : BitVec 32) : Prop :=
  io.madt1.gsiBase.toNat ≤ gsi.toNat ∧
    gsi.toNat ≤ io.madt1.gsiBase.toNat + io.maximumRedirectionEntry.toNat
  deriving Decidable

def DisjointWindows (l : List Ioapic) : Prop :=
  ∀ (i j : ℕ) (a b : Ioapic), l[i]? = some a → l[j]? = some b →
    (∃ gsi, a.InWindow gsi ∧ b.InWindow gsi) → i = j

namespace Redirection

/-- **The interrupt is routed**: the entry is written to the slot of its `gsi` and nowhere else, or
nothing is written if no window has it. -/
def Routed (r : Redirection) : Prop :=
  (∀ i io, r.ioapicList[i]? = some io → io.InWindow r.gsi → (ioapicSetIrqRedirection r).2 =
      ioapicWriteRedirectionTable i ((r.gsi - io.madt1.gsiBase) * 2) r.entry) ∧
    ((∀ io ∈ r.ioapicList, ¬ io.InWindow r.gsi) → (ioapicSetIrqRedirection r).2 = [])

variable {r : Redirection} {io : Ioapic} {i j : ℕ} {gsi t base : BitVec 32}

theorem toNat_truncated (r : Redirection) : r.truncated.toNat = r.gsi.toNat % 256 := by
  unfold truncated Redirection.gsi
  cases r.source with
  | none =>
    simp only [Option.elim, toNat_setWidth]
    omega
  | some madt2 =>
    simp only [Option.elim, toNat_setWidth]
    omega

theorem truncated_eq (h : r.gsi.toNat < 256) : r.truncated = r.gsi :=
  eq_of_toNat_eq ((toNat_truncated r).trans (Nat.mod_eq_of_lt h))

theorem Matches.inWindow (h : Matches gsi io) : io.InWindow gsi := by
  obtain ⟨hlast, hbase⟩ := h
  rw [le_def] at hlast hbase
  exact ⟨hbase, by omega⟩

theorem slot_inj {data : BitVec 64} (ht : t.toNat < 256) (hbase : base ≤ t)
    (hlow : base.toNat ≤ gsi.toNat) (hhigh : gsi.toNat ≤ base.toNat + 0xff)
    (h : ioapicWriteRedirectionTable i ((t - base) * 2) data =
      ioapicWriteRedirectionTable j ((gsi - base) * 2) data) : t = gsi := by
  have hreg : (t - base) * 2 + 0x10 = (gsi - base) * 2 + 0x10 := by
    injection h with hfirst
    injection hfirst
  bv_omega

theorem found_spec (r : Redirection) :
    ((ioapicSetIrqRedirection r).2 = [] ∧ ∀ io ∈ r.ioapicList, ¬ Matches r.truncated io) ∨
    ∃ i io, r.ioapicList[i]? = some io ∧ Matches r.truncated io ∧ (ioapicSetIrqRedirection r).2 =
      ioapicWriteRedirectionTable i ((r.truncated - io.madt1.gsiBase) * 2) r.entry := by
  unfold ioapicSetIrqRedirection
  cases hfind : r.ioapicList.zipIdx.find? fun p => Matches r.truncated p.1 with
  | none =>
    refine .inl ⟨rfl, fun io hio hmatch => ?_⟩
    obtain ⟨i, hi⟩ := getElem?_of_mem hio
    have hskip := find?_eq_none.mp hfind (io, i) (mk_mem_zipIdx_iff_getElem?.mpr hi)
    exact hskip (decide_eq_true hmatch)
  | some found =>
    obtain ⟨io, i⟩ := found
    have hmatch := find?_some hfind
    have hmem := mem_of_find?_eq_some hfind
    exact .inr ⟨i, io, mk_mem_zipIdx_iff_getElem?.mp hmem, of_decide_eq_true hmatch, rfl⟩

/-- **When an interrupt is routed**: its `gsi` is below 256 and at most the number of the last entry
of the IOAPIC that has it; or no window has it, and no IOAPIC seems to have its lowest byte. -/
theorem irq_routed_iff (hdisjoint : DisjointWindows r.ioapicList) : r.Routed ↔
    (r.gsi.toNat < 256 ∧ ∃ io ∈ r.ioapicList, Matches r.gsi io) ∨
      ∀ io ∈ r.ioapicList, ¬ io.InWindow r.gsi ∧ ¬ Matches r.truncated io := by
  have hbyte := toNat_truncated r
  unfold Routed
  rcases found_spec r with ⟨hwrites, hnone⟩ | ⟨i, io, hi, hmatch, hwrites⟩
  · rw [hwrites]
    constructor
    · rintro ⟨hin, -⟩
      refine .inr fun io hio => ⟨fun hw => ?_, hnone io hio⟩
      obtain ⟨i, hi⟩ := getElem?_of_mem hio
      exact absurd (hin i io hi hw) (by simp [ioapicWriteRedirectionTable])
    · rintro (⟨hlow, io, hio, hmatch⟩ | hout)
      · rw [← truncated_eq hlow] at hmatch
        exact absurd hmatch (hnone io hio)
      · exact ⟨fun i io hi hw => absurd hw (hout io (mem_of_getElem? hi)).1, fun _ => rfl⟩
  · have hmem := mem_of_getElem? hi
    rw [hwrites]
    constructor
    · rintro ⟨hin, hout⟩
      obtain ⟨io', hio', hw⟩ : ∃ io ∈ r.ioapicList, io.InWindow r.gsi := by
        by_contra hex
        push Not at hex
        exact absurd (hout hex) (by simp [ioapicWriteRedirectionTable])
      obtain ⟨j, hj⟩ := getElem?_of_mem hio'
      have heq := hin j io' hj hw
      obtain rfl : i = j := by
        injection heq with hfirst
        injection hfirst
      obtain rfl : io = io' := Option.some.inj (hi.symm.trans hj)
      have hsmall := io.small
      have hsame := slot_inj (by omega) hmatch.2 hw.1 (by have := hw.2; omega) heq
      rw [hsame] at hmatch hbyte
      exact .inl ⟨by omega, io, hmem, hmatch⟩
    · rintro (⟨hlow, -⟩ | hout)
      · rw [truncated_eq hlow] at hmatch ⊢
        refine ⟨fun j io' hj hw => ?_, fun hnone => absurd hmatch.inWindow (hnone io hmem)⟩
        obtain rfl := hdisjoint i j io io' hi hj ⟨_, hmatch.inWindow, hw⟩
        rw [Option.some.inj (hi.symm.trans hj)]
      · exact absurd hmatch (hout io hmem).2

def twoIoapics (gsi : BitVec 32) : Redirection where
  lapicId := 0
  vector := 0x20
  irq := 9
  mask := false
  ent2List := [⟨0, 9, gsi, 0⟩]
  ioapicList := [⟨23, ⟨0, 0, 0, 0⟩, by decide⟩, ⟨23, ⟨1, 0, 0, 24⟩, by decide⟩]

theorem disjointWindows_twoIoapics : DisjointWindows (twoIoapics gsi).ioapicList := by
  rintro (_ | _ | i) (_ | _ | j) a b ha hb ⟨g, ⟨halow, hahigh⟩, hblow, hbhigh⟩
  all_goals simp only [twoIoapics, getElem?_cons_zero, getElem?_cons_succ,
    getElem?_nil, Option.some.injEq, reduceCtorEq] at ha hb
  all_goals first
    | rfl
    | subst ha hb
      simp at halow hahigh hblow hbhigh
      omega

/-- **An entry of the first** is found. -/
theorem irq_routed_iff_first : DisjointWindows (twoIoapics 2).ioapicList ∧ (twoIoapics 2).Routed :=
  ⟨disjointWindows_twoIoapics, (irq_routed_iff disjointWindows_twoIoapics).mpr
    (Or.inl ⟨by decide, _, mem_cons_self, by decide⟩)⟩

/-- **An entry of the second** is not: nothing is written for the number 30, which its window has.
-/
theorem second_ioapic_missed : DisjointWindows (twoIoapics 30).ioapicList ∧
    (ioapicSetIrqRedirection (twoIoapics 30)).2 = [] ∧ ¬ (twoIoapics 30).Routed ∧
    (ioapicSetIrqRedirection (twoIoapics 258)).2.map IoapicWrite.reg = [20, 21] := by
  refine ⟨disjointWindows_twoIoapics, by decide, fun h => ?_, by decide⟩
  exact absurd (h.1 1 _ rfl (by decide)) (by decide)

end Redirection

end Pastoral
