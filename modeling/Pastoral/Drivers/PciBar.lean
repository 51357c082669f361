import Pastoral.Drivers.Pci

/-!
# Base address registers

`pci_device_get_bar` of `pci.c`.

## Main definitions

* `pciDeviceGetBar`: the probe, on the registers of a function

## Main results

* `bar_probed_iff`: when base and size are those of the range
-/

open BitVec Function

namespace Pastoral

/-! ## Functions -/

structure ConfigSpace where
  value : ℕ → BitVec 32
  writable : ℕ → BitVec 32

def ConfigSpace.write (s : ConfigSpace) (off : ℕ) (data : BitVec 32) : ConfigSpace :=
  { s with
    value := update s.value off
      (s.value off &&& ~~~s.writable off ||| data &&& s.writable off) }

def ConfigSpace.probe (s : ConfigSpace) (off : ℕ) : BitVec 32 × ConfigSpace :=
  ((s.write off (BitVec.allOnes 32)).value off,
    (s.write off (BitVec.allOnes 32)).write off (s.value off))

structure PciBar where
  base : BitVec 64
  size : BitVec 64
  deriving DecidableEq

def isMmio (barLow : BitVec 32) : Bool := barLow &&& 1#32 = 0#32

def barMask (barLow : BitVec 32) : BitVec 64 := ~~~if isMmio barLow then 0b1111#64 else 0b11#64

def wideBar (barLow barSizeLow barHigh barSizeHigh : BitVec 32) : PciBar :=
  ⟨(barHigh ++ barLow) &&& barMask barLow,
    ~~~((barSizeHigh ++ barSizeLow) &&& barMask barLow) + 1#64⟩

def narrowBar (barLow barSizeLow : BitVec 32) : PciBar :=
  let size := if barSizeLow &&& (if isMmio barLow then 1#32 else 0#32) ≠ 0#32 then 0b1111#64
    else 0b11#64
  ⟨barLow.setWidth 64, ~~~size + 1#64⟩

def is64 (barLow : BitVec 32) : Prop := barLow >>> 1 &&& 0b11#32 = 0b10#32
  deriving Decidable

def pciDeviceGetBar (s : ConfigSpace) (num : ℕ) : Option PciBar × ConfigSpace :=
  if (s.value 0xc).extractLsb' 16 8 ≠ 0#8 ∨ 5 < num then (none, s)
  else
    let barOff := 0x10 + num * 4
    let low := s.probe barOff
    if is64 (s.value barOff) then
      let high := low.2.probe (barOff + 4)
      (some (wideBar (s.value barOff) low.1 (low.2.value (barOff + 4)) high.1), high.2)
    else (some (narrowBar (s.value barOff) low.1), low.2)

/-! ## Registers -/

inductive BarKind
  | memory32 (prefetchable : Bool)
  | memory64 (prefetchable : Bool)
  | io
  deriving DecidableEq

def BarKind.type : BarKind → BitVec 32
  | memory32 prefetchable => if prefetchable then 0b1000#32 else 0#32
  | memory64 prefetchable => if prefetchable then 0b1100#32 else 0b100#32
  | io => 1#32

def BarKind.typeBits : BarKind → ℕ
  | io => 2
  | _ => 4

structure Bar where
  kind : BarKind
  log : ℕ
  multiple : BitVec 64

namespace Bar

def base (b : Bar) : BitVec 64 := b.multiple <<< b.log

def size (b : Bar) : BitVec 64 := 1#64 <<< b.log

/-- **A register**: the type and the bits of the address below the size cannot be written. -/
def Programmed (b : Bar) (s : ConfigSpace) (off : ℕ) : Prop :=
  match b.kind with
  | .memory64 _ => (b.kind.typeBits ≤ b.log ∧ b.log < 64) ∧
      s.value (off + 4) ++ s.value off = b.base ||| 0#32 ++ b.kind.type ∧
      s.writable (off + 4) ++ s.writable off = BitVec.allOnes 64 <<< b.log
  | _ => (b.kind.typeBits ≤ b.log ∧ b.log < 32) ∧
      b.base = 0#32 ++ b.base.setWidth 32 ∧ s.value off = b.base.setWidth 32 ||| b.kind.type ∧
      s.writable off = BitVec.allOnes 32 <<< b.log

end Bar

/-! ## Bits -/

theorem probe_eq (s : ConfigSpace) (off : ℕ) :
    s.probe off = (s.value off ||| s.writable off, s) := by
  have hones : s.value off &&& ~~~s.writable off ||| allOnes 32 &&& s.writable off =
      s.value off ||| s.writable off := by
    ext i hi
    simp only [getElem_or, getElem_and, getElem_not, getElem_allOnes]
    cases (s.value off)[i] <;> cases (s.writable off)[i] <;> rfl
  have hback : (s.value off ||| s.writable off) &&& ~~~s.writable off |||
      s.value off &&& s.writable off = s.value off := by
    ext i hi
    simp only [getElem_or, getElem_and, getElem_not]
    cases (s.value off)[i] <;> cases (s.writable off)[i] <;> rfl
  unfold ConfigSpace.probe ConfigSpace.write
  simp only [update_self, update_idem, hones, hback, update_eq_self]

theorem not_ones_shiftLeft (k : ℕ) : ~~~(allOnes 64 <<< k) + 1#64 = 1#64 <<< k := by
  rw [← neg_eq_not_add, ← neg_one_eq_allOnes, shiftLeft_eq_mul_twoPow,
    BitVec.neg_mul, neg_neg, ← shiftLeft_eq_mul_twoPow]

theorem shiftLeft_and {j k : ℕ} (h : j ≤ k) (b : BitVec 64) :
    b <<< k &&& allOnes 64 <<< j = b <<< k := by
  ext i hi
  simp only [getElem_and, getElem_shiftLeft, getElem_allOnes]
  by_cases hi' : i < k
  · simp [hi']
  · simp [show ¬ i < j by omega]

theorem ones_append {k : ℕ} (h : k < 32) :
    allOnes 32 ++ allOnes 32 <<< k = allOnes 64 <<< k := by
  ext i hi
  simp only [getElem_append, getElem_shiftLeft, getElem_allOnes]
  grind

theorem masked {j k : ℕ} (h : j ≤ k) (b : BitVec 64) {t : BitVec 64}
    (ht : t &&& allOnes 64 <<< j = 0#64) :
    (b <<< k ||| t) &&& allOnes 64 <<< j = b <<< k ∧
      (b <<< k ||| t ||| allOnes 64 <<< k) &&& allOnes 64 <<< j =
        allOnes 64 <<< k := by
  have hbase : (b <<< k ||| t) &&& allOnes 64 <<< j = b <<< k := by
    rw [and_or_distrib_right, ht, or_zero, shiftLeft_and h]
  refine ⟨hbase, ?_⟩
  rw [and_or_distrib_right, hbase, shiftLeft_and h, ← shiftLeft_or_distrib,
    or_allOnes]

theorem odd_size (low sizeLow : BitVec 32) {k : ℕ} (hk : 0 < k) :
    (narrowBar low sizeLow).size ≠ 1#64 <<< k := by
  intro h
  have hbit := congrArg (·.getLsbD 0) h
  simp only [narrowBar] at hbit
  split_ifs at hbit <;> simp [hk] at hbit

section Probing

variable {s : ConfigSpace} {num off k : ℕ} {b : Bar} {x t : BitVec 32}

theorem pciDeviceGetBar_eq (hheader : (s.value 0xc).extractLsb' 16 8 = 0#8) (hnum : num ≤ 5) :
    pciDeviceGetBar s num =
      let off := 0x10 + num * 4
      let low := s.value off
      (some (if is64 low then wideBar low (low ||| s.writable off) (s.value (off + 4))
        (s.value (off + 4) ||| s.writable (off + 4))
        else narrowBar low (low ||| s.writable off)), s) := by
  rw [pciDeviceGetBar, if_neg (by simp [hheader, hnum])]
  simp only [probe_eq]
  split_ifs <;> rfl

theorem low_zero {j : ℕ} (h : j ≤ k) (m : BitVec 64) :
    (m <<< k).setWidth 32 &&& ~~~(allOnes 32 <<< j) = 0#32 := by
  ext i hi
  simp only [getElem_and, getElem_not, getElem_shiftLeft, getElem_allOnes]
  by_cases hlow : i < j
  · simp [show i < k by omega]
  · simp [hlow]

theorem setWidth_low (x y : BitVec 32) : (x ++ y).setWidth 32 = y := by
  rw [setWidth_append, dif_pos (Nat.le_refl _), setWidth_eq]

theorem is64_iff (h : x &&& 0xf#32 = t) : is64 x ↔ is64 t := by
  rw [← h, is64, is64, ushiftRight_and_distrib, BitVec.and_assoc]
  rfl

theorem barMask_eq (h : x &&& 0xf#32 = t) : barMask x = barMask t := by
  rw [← h, barMask, barMask, isMmio, isMmio, BitVec.and_assoc]
  rfl

theorem type_bits (kind : BarKind) : kind.type &&& 0xf#32 = kind.type := by
  cases kind with
  | io => rfl
  | memory32 prefetchable => cases prefetchable <;> rfl
  | memory64 prefetchable => cases prefetchable <;> rfl

theorem low_bits {kind : BarKind} (h : x = b.base.setWidth 32 ||| kind.type) (hlog : 4 ≤ b.log) :
    x &&& 0xf#32 = kind.type := by
  rw [h, and_or_distrib_right, type_bits]
  exact (congrArg (· ||| kind.type) (low_zero hlog b.multiple)).trans zero_or

theorem wideBar_memory {p : Bool} (h : b.Programmed s off) (hkind : b.kind = .memory64 p) :
    is64 (s.value off) ∧ wideBar (s.value off) (s.value off ||| s.writable off) (s.value (off + 4))
      (s.value (off + 4) ||| s.writable (off + 4)) = ⟨b.base, b.size⟩ := by
  simp only [Bar.Programmed, hkind] at h
  obtain ⟨⟨hlog, -⟩, hvalue, hwritable⟩ := h
  replace hlog : 4 ≤ b.log := hlog
  have hlow : s.value off = b.base.setWidth 32 ||| (BarKind.memory64 p).type := by
    have hcut := congrArg (setWidth 32) hvalue
    rwa [setWidth_or, setWidth_low, setWidth_low] at hcut
  have hbits := low_bits hlow hlog
  have hmask : barMask (s.value off) = allOnes 64 <<< 4 := by
    rw [barMask_eq hbits]
    cases p <;> rfl
  have htype : (0#32 ++ (BarKind.memory64 p).type) &&& allOnes 64 <<< 4 = 0#64 := by
    cases p <;> rfl
  obtain ⟨hbase, hsize⟩ := masked hlog b.multiple htype
  refine ⟨(is64_iff hbits).mpr (by cases p <;> rfl), ?_⟩
  rw [wideBar, ← or_append, hvalue, hwritable, hmask, Bar.base, hbase, hsize,
    not_ones_shiftLeft]
  rfl

theorem wideBar_io (h : b.Programmed s off) (hkind : b.kind = .io) :
    wideBar (s.value off) (s.value off ||| s.writable off) (s.value (off + 4))
        (s.value (off + 4) ||| s.writable (off + 4)) = ⟨b.base, b.size⟩ ↔
      s.value (off + 4) = 0#32 ∧ s.writable (off + 4) = allOnes 32 := by
  simp only [Bar.Programmed, hkind] at h
  obtain ⟨⟨hlog, hlt⟩, hnarrow, hvalue, hwritable⟩ := h
  replace hlog : 2 ≤ b.log := hlog
  have hmask : barMask (s.value off) = allOnes 64 <<< 2 := by
    have hodd : s.value off &&& 1#32 = 1#32 := by
      rw [hvalue, and_or_distrib_right]
      exact (congrArg (· ||| 1#32) (low_zero (show 1 ≤ b.log by omega) b.multiple)).trans
        zero_or
    rw [barMask, isMmio, hodd]
    rfl
  constructor
  · intro heq
    obtain ⟨hbase, hsize⟩ := PciBar.mk.inj heq
    rw [hmask, ← ones_append (by decide), and_append, hnarrow] at hbase
    rw [hmask, ← ones_append (by decide), and_append, Bar.size, ← not_ones_shiftLeft,
      ← neg_eq_not_add, ← neg_eq_not_add, BitVec.neg_inj, ← ones_append hlt] at hsize
    have hhigh := congrArg (extractLsb' 32 32) hbase
    have hones := congrArg (extractLsb' 32 32) hsize
    rw [extractLsb'_append_eq_left, extractLsb'_append_eq_left, and_allOnes]
      at hhigh hones
    rw [hhigh, zero_or] at hones
    exact ⟨hhigh, hones⟩
  · rintro ⟨hhigh, hones⟩
    have hwide : 0#32 ++ s.value off = b.base ||| 1#64 := by
      rw [hvalue, hnarrow, setWidth_low, show 1#64 = 0#32 ++ 1#32 from rfl, or_append]
      rfl
    obtain ⟨hbase, hsize⟩ := masked hlog b.multiple (show 1#64 &&& allOnes 64 <<< 2 = 0#64 from rfl)
    rw [wideBar, ← or_append, hhigh, hones, hwritable, ones_append hlt, hwide, hmask, Bar.base,
      hbase, hsize, not_ones_shiftLeft]
    rfl

/-- **When a register is read correctly**: if it has 64 bits; or if it is one of an I/O range that is
taken for one of 64 bits, and all bits of the register behind it are 0 and can be written. -/
theorem bar_probed_iff (hheader : (s.value 0xc).extractLsb' 16 8 = 0#8) (hnum : num ≤ 5)
    (hb : b.Programmed s (0x10 + num * 4)) :
    pciDeviceGetBar s num = (some ⟨b.base, b.size⟩, s) ↔
      (∃ p, b.kind = .memory64 p) ∨
        b.kind = .io ∧ is64 (s.value (0x10 + num * 4)) ∧ s.value (0x10 + num * 4 + 4) = 0#32 ∧
          s.writable (0x10 + num * 4 + 4) = BitVec.allOnes 32 := by
  rw [pciDeviceGetBar_eq hheader hnum]
  rw [Prod.mk.injEq, and_iff_left rfl, Option.some.injEq]
  have hnarrow : 0 < b.log → narrowBar (s.value (0x10 + num * 4))
      (s.value (0x10 + num * 4) ||| s.writable (0x10 + num * 4)) ≠ ⟨b.base, b.size⟩ :=
    fun hlog heq => odd_size _ _ hlog (congrArg PciBar.size heq)
  cases hkind : b.kind with
  | memory64 p =>
    obtain ⟨hwide, heq⟩ := wideBar_memory hb hkind
    rw [if_pos hwide]
    exact iff_of_true heq (.inl ⟨p, rfl⟩)
  | memory32 p =>
    simp only [Bar.Programmed, hkind] at hb
    obtain ⟨⟨hlog, -⟩, -, hvalue, -⟩ := hb
    replace hlog : 4 ≤ b.log := hlog
    have hnot : ¬ is64 (s.value (0x10 + num * 4)) := by
      rw [is64_iff (low_bits hvalue hlog)]
      cases p <;> decide
    rw [if_neg hnot]
    exact iff_of_false (hnarrow (by omega)) (by simp)
  | io =>
    have hlog : 2 ≤ b.log := by
      simp only [Bar.Programmed, hkind] at hb
      exact hb.1.1
    split_ifs with hwide
    · rw [wideBar_io hb hkind]
      simp [hwide]
    · exact iff_of_false (hnarrow (by omega)) (by simp [hwide])

def barSpace (low high writable : BitVec 32) : ConfigSpace where
  value off := if off = 0x10 then low else if off = 0x14 then high else 0#32
  writable off := if off = 0x10 then writable else BitVec.allOnes 32

theorem bar_probed_iff_wide :
    (⟨.memory64 false, 4, 0x10000000⟩ : Bar).Programmed (barSpace 4 1 0xfffffff0) 0x10 ∧
    pciDeviceGetBar (barSpace 4 1 0xfffffff0) 0 =
      (some ⟨0x100000000, 16⟩, barSpace 4 1 0xfffffff0) := by
  have h : (⟨.memory64 false, 4, 0x10000000⟩ : Bar).Programmed (barSpace 4 1 0xfffffff0) 0x10 :=
    ⟨by decide, by decide, by decide⟩
  exact ⟨h, (bar_probed_iff rfl (Nat.zero_le 5) h).mpr (.inl ⟨false, rfl⟩)⟩

/-- **A range of memory** of 4096 bytes: its size is not returned. -/
theorem narrow_bar_misread :
    (⟨.memory32 false, 12, 0xfebf0⟩ : Bar).Programmed (barSpace 0xfebf0000 0 0xfffff000) 0x10 ∧
    (pciDeviceGetBar (barSpace 0xfebf0000 0 0xfffff000) 0).1 =
      some ⟨0xfebf0000, 0xfffffffffffffffd⟩ :=
  ⟨⟨by decide, by decide, by decide, by decide⟩, by decide⟩

end Probing

end Pastoral
