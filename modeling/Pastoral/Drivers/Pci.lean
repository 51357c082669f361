import Mathlib.Data.Int.Notation
import Mathlib.Data.List.Nodup
import Mathlib.Data.List.Perm.Basic
import Pastoral.Lib.Vector

/-!
# Enumeration of the PCI devices

`pci.c`: `pci_init` scans every bus, and `pci_new_device` scans the bus behind a bridge before it
adds the bridge to `pci_device_list`.

## Main definitions

* `pciInit`: the scan, with the registers of the functions as a parameter
* `pciFunctions`: the functions that are present, bus by bus
* `Enumerated`: the scan ends, and each of them is in the list once

## Main results

* `enumerated_iff`: this is so if no device is behind a bridge and at most 1024 are present
-/

open List Option

namespace Pastoral

/-! ## Functions -/

abbrev PciSpace := ℕ → ℕ → ℕ → ℕ → BitVec 32

def getClass (pci : PciSpace) (bus dev func : ℕ) : BitVec 8 := (pci bus dev func 0x8).extractLsb' 24 8

def getSubClass (pci : PciSpace) (bus dev func : ℕ) : BitVec 8 :=
  (pci bus dev func 0x8).extractLsb' 16 8

def getProgIf (pci : PciSpace) (bus dev func : ℕ) : BitVec 8 :=
  (pci bus dev func 0x8).extractLsb' 8 8

def getDeviceId (pci : PciSpace) (bus dev func : ℕ) : BitVec 16 :=
  (pci bus dev func 0).extractLsb' 16 16

def getVendorId (pci : PciSpace) (bus dev func : ℕ) : BitVec 16 :=
  (pci bus dev func 0).extractLsb' 0 16

def getHeaderType (pci : PciSpace) (bus dev func : ℕ) : BitVec 8 :=
  (pci bus dev func 0xc).extractLsb' 16 8

def getSecondaryBus (pci : PciSpace) (bus dev func : ℕ) : BitVec 8 :=
  (pci bus dev func 0x18).extractLsb' 8 8

structure PciDevice where
  bus : ℕ
  dev : ℕ
  func : ℕ
  classCode : BitVec 8
  subClass : BitVec 8
  progIf : BitVec 8
  deviceId : BitVec 16
  vendorId : BitVec 16
  msiOffset : ℤ
  msixOffset : ℤ
  deriving DecidableEq, Repr

def pciDevice (pci : PciSpace) (bus dev func : ℕ) : PciDevice :=
  ⟨bus, dev, func, getClass pci bus dev func, getSubClass pci bus dev func,
    getProgIf pci bus dev func, getDeviceId pci bus dev func, getVendorId pci bus dev func, -1, -1⟩

def IsBridge (pci : PciSpace) (bus dev func : ℕ) : Prop :=
  getHeaderType pci bus dev func &&& ~~~0x80#8 ≠ 0#8
  deriving Decidable

def pciNewDevice (scanBus : ℕ → List PciDevice → Option (List PciDevice)) (pci : PciSpace)
    (bus dev func : ℕ) (list : List PciDevice) : Option (List PciDevice) :=
  (if IsBridge pci bus dev func then scanBus (getSecondaryBus pci bus dev func).toNat list
    else some list).bind fun list => vectorPush 8 list (pciDevice pci bus dev func)

def IsMulti (pci : PciSpace) (bus dev : ℕ) : Prop := getHeaderType pci bus dev 0 &&& 0x80#8 ≠ 0#8
  deriving Decidable

def Answers (pci : PciSpace) (bus dev func : ℕ) : Prop := getVendorId pci bus dev func ≠ 0xffff#16
  deriving Decidable

def pciScanDevice (scanBus : ℕ → List PciDevice → Option (List PciDevice)) (pci : PciSpace)
    (bus : ℕ) (list : List PciDevice) (dev : ℕ) : Option (List PciDevice) :=
  if Answers pci bus dev 0 then
    (pciNewDevice scanBus pci bus dev 0 list).bind fun list =>
      if IsMulti pci bus dev then
        (List.range' 1 7).foldlM (fun list func =>
          if Answers pci bus dev func then pciNewDevice scanBus pci bus dev func list
          else some list) list
      else some list
  else some list

def pciScanBus (pci : PciSpace) : ℕ → ℕ → List PciDevice → Option (List PciDevice)
  | 0, _, _ => none
  | fuel + 1, bus, list =>
    (List.range 32).foldlM (pciScanDevice (pciScanBus pci fuel) pci bus) list

def pciInit (pci : PciSpace) (fuel : ℕ) : Option (List PciDevice) :=
  (List.range 256).foldlM (fun list bus => pciScanBus pci fuel bus list) []

/-! ## What is to be found -/

structure PciAddress where
  bus : ℕ
  dev : ℕ
  func : ℕ
  deriving DecidableEq, Repr

def PciDevice.address (d : PciDevice) : PciAddress := ⟨d.bus, d.dev, d.func⟩

def Present (pci : PciSpace) (a : PciAddress) : Prop :=
  (a.bus < 256 ∧ a.dev < 32 ∧ a.func < 8) ∧ Answers pci a.bus a.dev 0 ∧
    (a.func = 0 ∨ IsMulti pci a.bus a.dev ∧ Answers pci a.bus a.dev a.func)

def deviceFunctions (pci : PciSpace) (bus dev : ℕ) : List PciAddress :=
  if Answers pci bus dev 0 then
    ⟨bus, dev, 0⟩ :: if IsMulti pci bus dev then
      ((List.range' 1 7).filter fun func => Answers pci bus dev func).map (⟨bus, dev, ·⟩)
      else []
  else []

def busFunctions (pci : PciSpace) (bus : ℕ) : List PciAddress :=
  (List.range 32).flatMap (deviceFunctions pci bus)

def pciFunctions (pci : PciSpace) : List PciAddress := (List.range 256).flatMap (busFunctions pci)

def behind (pci : PciSpace) (a : PciAddress) : List PciAddress :=
  if IsBridge pci a.bus a.dev a.func then
    busFunctions pci (getSecondaryBus pci a.bus a.dev a.func).toNat
  else []

def pciAdd (pci : PciSpace) (fuel : ℕ) (list : List PciDevice) (a : PciAddress) :
    Option (List PciDevice) :=
  pciNewDevice (pciScanBus pci fuel) pci a.bus a.dev a.func list

section Scan

variable {pci : PciSpace} {bus dev fuel : ℕ} {list list' : List PciDevice} {a : PciAddress}

theorem pciScanDevice_eq : pciScanDevice (pciScanBus pci fuel) pci bus list dev =
      (deviceFunctions pci bus dev).foldlM (pciAdd pci fuel) list := by
  unfold pciScanDevice deviceFunctions
  split_ifs with hanswers hmulti
  · refine congrArg (Option.bind _) (funext fun list => ?_)
    rw [foldlM_map, foldlM_filter]
    simp only [decide_eq_true_eq]
    rfl
  · rfl
  · rfl

theorem pciScanBus_eq :
    pciScanBus pci (fuel + 1) bus list = (busFunctions pci bus).foldlM (pciAdd pci fuel) list := by
  have hpass : pciScanDevice (pciScanBus pci fuel) pci bus =
      fun list dev => (deviceFunctions pci bus dev).foldlM (pciAdd pci fuel) list :=
    funext fun list => funext fun dev => pciScanDevice_eq
  rw [pciScanBus, hpass, busFunctions]
  generalize range 32 = devs
  induction devs generalizing list with
  | nil => rfl
  | cons dev devs ih =>
    rw [flatMap_cons, foldlM_append]
    exact congrArg (bind _) (funext fun list => ih)

theorem mem_deviceFunctions_iff :
    a ∈ deviceFunctions pci bus dev ↔ (a.bus = bus ∧ a.dev = dev) ∧ a.func < 8 ∧
      Answers pci bus dev 0 ∧ (a.func = 0 ∨ IsMulti pci bus dev ∧ Answers pci bus dev a.func) := by
  obtain ⟨b, d, f⟩ := a
  unfold deviceFunctions
  constructor
  · intro h
    split_ifs at h with hanswers hmulti
    · rcases mem_cons.mp h with h | h
      · obtain ⟨rfl, rfl, rfl⟩ := PciAddress.mk.inj h
        exact ⟨⟨rfl, rfl⟩, Nat.zero_lt_succ 7, hanswers, .inl rfl⟩
      · obtain ⟨func, hfunc, heq⟩ := mem_map.mp h
        obtain ⟨rfl, rfl, rfl⟩ := PciAddress.mk.inj heq
        obtain ⟨hrange, hfunc⟩ := mem_filter.mp hfunc
        rw [mem_range'_1] at hrange
        exact ⟨⟨rfl, rfl⟩, hrange.2, hanswers, .inr ⟨hmulti, of_decide_eq_true hfunc⟩⟩
    · obtain ⟨rfl, rfl, rfl⟩ := PciAddress.mk.inj (mem_singleton.mp h)
      exact ⟨⟨rfl, rfl⟩, Nat.zero_lt_succ 7, hanswers, .inl rfl⟩
    · exact absurd h not_mem_nil
  · rintro ⟨⟨rfl, rfl⟩, hlt, hanswers, hfunc⟩
    rw [if_pos hanswers]
    rcases Nat.eq_zero_or_pos f with rfl | hpos
    · exact mem_cons_self
    · obtain ⟨hmulti, hfunc⟩ := hfunc.resolve_left (Nat.ne_of_gt hpos)
      rw [if_pos hmulti]
      refine mem_cons_of_mem _ (mem_map.mpr ⟨f, mem_filter.mpr ⟨?_, ?_⟩, rfl⟩)
      · exact mem_range'_1.mpr ⟨hpos, hlt⟩
      · exact decide_eq_true hfunc

theorem mem_busFunctions_iff (hbus : bus < 256) :
    a ∈ busFunctions pci bus ↔ a.bus = bus ∧ Present pci a := by
  constructor
  · intro h
    obtain ⟨dev, hdev, h⟩ := mem_flatMap.mp h
    obtain ⟨⟨rfl, rfl⟩, hlt, hrest⟩ := mem_deviceFunctions_iff.mp h
    exact ⟨rfl, ⟨hbus, mem_range.mp hdev, hlt⟩, hrest⟩
  · rintro ⟨rfl, ⟨-, hdev, hlt⟩, hrest⟩
    refine mem_flatMap.mpr ⟨a.dev, mem_range.mpr hdev, ?_⟩
    exact mem_deviceFunctions_iff.mpr ⟨⟨rfl, rfl⟩, hlt, hrest⟩

theorem nodup_deviceFunctions : (deviceFunctions pci bus dev).Nodup := by
  unfold deviceFunctions
  split_ifs with hanswers hmulti
  · refine nodup_cons.mpr ⟨fun h => ?_, ?_⟩
    · obtain ⟨func, hfunc, heq⟩ := mem_map.mp h
      have hrange := mem_range'_1.mp (mem_filter.mp hfunc).1
      have hzero : func = 0 := congrArg PciAddress.func heq
      omega
    · have hrange : (range' 1 7).Nodup := nodup_range'
      exact (hrange.filter _).map fun x y h => congrArg PciAddress.func h
  · exact nodup_singleton _
  · exact nodup_nil

theorem nodup_busFunctions : (busFunctions pci bus).Nodup := by
  refine nodup_flatMap.mpr ⟨fun _ _ => nodup_deviceFunctions, ?_⟩
  refine nodup_range.imp fun hne a ha hb => hne ?_
  exact (mem_deviceFunctions_iff.mp ha).1.2.symm.trans (mem_deviceFunctions_iff.mp hb).1.2

/-! ## Scans that return -/

section Loop

variable {α β γ : Type*} {f : List β → α → Option (List β)} {g : α → List γ} {xs : List α}
  {l l' : List β}

theorem foldlM_appends (key : β → γ) (hf : ∀ x ∈ xs, ∀ l l', f l x = some l' →
      ∃ new, l' = l ++ new ∧ (g x).Sublist (new.map key)) (h : xs.foldlM f l = some l') :
    ∃ new, l' = l ++ new ∧ (xs.flatMap g).Sublist (new.map key) := by
  induction xs generalizing l with
  | nil =>
    cases h
    exact ⟨[], (append_nil _).symm, nil_sublist _⟩
  | cons x xs ih =>
    obtain ⟨l₁, hx, hxs⟩ := bind_eq_some_iff.mp h
    obtain ⟨new, rfl, hnew⟩ := hf x mem_cons_self l l₁ hx
    obtain ⟨rest, rfl, hrest⟩ := ih (fun y hy => hf y (mem_cons_of_mem _ hy)) hxs
    refine ⟨new ++ rest, append_assoc _ _ _, ?_⟩
    rw [map_append]
    exact hnew.append hrest

theorem foldlM_eq_append {g : α → List β} {limit : ℕ}
    (hf : ∀ x ∈ xs, ∀ l, f l x =
      if l.length + (g x).length ≤ max limit l.length then some (l ++ g x) else none) :
    xs.foldlM f l = if l.length + (xs.flatMap g).length ≤ max limit l.length then
      some (l ++ xs.flatMap g) else none := by
  induction xs generalizing l with
  | nil => simp
  | cons x xs ih =>
    rw [foldlM_cons, hf x mem_cons_self, flatMap_cons, length_append]
    by_cases hroom : l.length + (g x).length ≤ max limit l.length
    · rw [if_pos hroom]
      refine (ih fun y hy => hf y (mem_cons_of_mem _ hy)).trans ?_
      rw [length_append, append_assoc]
      exact if_congr (by omega) rfl rfl
    · rw [if_neg hroom, if_neg (by omega)]
      rfl

theorem sublist_flatMap_snoc (behind : α → List α) (xs : List α) :
    xs.Sublist (xs.flatMap fun x => behind x ++ [x]) := by
  induction xs with
  | nil => exact Sublist.refl _
  | cons x xs ih =>
    exact (sublist_append_right (behind x) [x]).append ih

end Loop

theorem pciAdd_appends (hscan : ∀ bus list list', pciScanBus pci fuel bus list = some list' →
      ∃ new, list' = list ++ new ∧ (busFunctions pci bus).Sublist (new.map PciDevice.address))
    (h : pciAdd pci fuel list a = some list') :
    ∃ new, list' = list ++ new ∧ (behind pci a ++ [a]).Sublist (new.map PciDevice.address) := by
  obtain ⟨before, hbefore, hpush⟩ := bind_eq_some_iff.mp h
  obtain ⟨-, hpush⟩ := ite_none_right_eq_some.mp hpush
  obtain rfl := some.inj hpush
  unfold behind
  split_ifs at hbefore ⊢ with hbridge
  · obtain ⟨new, rfl, hnew⟩ := hscan _ _ _ hbefore
    refine ⟨new ++ [pciDevice pci a.bus a.dev a.func], append_assoc _ _ _, ?_⟩
    rw [map_append]
    exact hnew.append (Sublist.refl _)
  · cases hbefore
    exact ⟨[pciDevice pci a.bus a.dev a.func], rfl, Sublist.refl _⟩

theorem scan_appends (h : pciScanBus pci fuel bus list = some list') : ∃ new, list' = list ++ new ∧
      ((busFunctions pci bus).flatMap fun a => behind pci a ++ [a]).Sublist
        (new.map PciDevice.address) := by
  induction fuel generalizing bus list list' with
  | zero => exact absurd h (by simp [pciScanBus])
  | succ fuel ih =>
    rw [pciScanBus_eq] at h
    refine foldlM_appends _ (fun a _ list list' hadd => pciAdd_appends ?_ hadd) h
    -- The functions of a bus are among what a scan of it adds.
    intro bus list list' hscan
    obtain ⟨new, rfl, hnew⟩ := ih hscan
    exact ⟨new, rfl, (sublist_flatMap_snoc _ _).trans hnew⟩

theorem scan_empty (h : busFunctions pci bus = []) :
    pciScanBus pci (fuel + 1) bus list = some list := by
  rw [pciScanBus_eq, h]
  rfl

end Scan

/-! ## The enumeration -/

/-- **The enumeration is right**: the scan returns, and the list has every function that is present
exactly once. -/
def Enumerated (pci : PciSpace) : Prop :=
  ∃ n list, ∀ fuel ≥ n, pciInit pci fuel = some list ∧
    ∀ a, Present pci a → (list.map PciDevice.address).count a = 1

/-- **There is nothing behind a bridge**: on the bus that it names, no device answers. -/
def BridgesEmpty (pci : PciSpace) : Prop :=
  ∀ a, Present pci a → IsBridge pci a.bus a.dev a.func →
    ∀ dev < 32, ¬ Answers pci (getSecondaryBus pci a.bus a.dev a.func).toNat dev 0

section Enumeration

variable {pci : PciSpace} {fuel : ℕ} {a : PciAddress}

theorem secondary_lt : (getSecondaryBus pci a.bus a.dev a.func).toNat < 256 :=
  (getSecondaryBus pci a.bus a.dev a.func).isLt

theorem busFunctions_eq_nil_iff {bus : ℕ} (hbus : bus < 256) :
    busFunctions pci bus = [] ↔ ∀ dev < 32, ¬ Answers pci bus dev 0 := by
  rw [eq_nil_iff_forall_not_mem]
  constructor
  · intro h dev hdev hanswers
    refine h ⟨bus, dev, 0⟩ ((mem_busFunctions_iff hbus).mpr ⟨rfl, ⟨hbus, hdev, ?_⟩, hanswers, ?_⟩)
    · exact Nat.zero_lt_succ 7
    · exact .inl rfl
  · intro h a ha
    obtain ⟨rfl, hpresent⟩ := (mem_busFunctions_iff hbus).mp ha
    exact h a.dev hpresent.1.2.1 hpresent.2.1

theorem pciInit_eq (h : BridgesEmpty pci) (fuel : ℕ) : pciInit pci (fuel + 2) =
    if (pciFunctions pci).length ≤ 1024 then
      some ((pciFunctions pci).map fun a => pciDevice pci a.bus a.dev a.func) else none := by
  have hscan : ∀ bus ∈ range 256, ∀ list, pciScanBus pci (fuel + 2) bus list =
      let new := (busFunctions pci bus).map fun a => pciDevice pci a.bus a.dev a.func
      if list.length + new.length ≤ max 1024 list.length then some (list ++ new) else none := by
    intro bus hbus list
    rw [pciScanBus_eq, map_eq_flatMap]
    refine foldlM_eq_append fun a ha list => ?_
    obtain ⟨-, hpresent⟩ := (mem_busFunctions_iff (mem_range.mp hbus)).mp ha
    -- What is behind a bridge adds nothing.
    have hbehind : (if IsBridge pci a.bus a.dev a.func then
        pciScanBus pci (fuel + 1) (getSecondaryBus pci a.bus a.dev a.func).toNat list
        else some list) = some list := by
      split_ifs with hbridge
      · exact scan_empty ((busFunctions_eq_nil_iff secondary_lt).mpr (h a hpresent hbridge))
      · rfl
    unfold pciAdd pciNewDevice
    rw [hbehind, bind_some, vectorPush_eq (k := 10) (by decide) (by decide)]
    refine if_congr ?_ rfl rfl
    rw [length_singleton]
    omega
  rw [pciInit, foldlM_eq_append hscan, nil_append, ← map_flatMap, length_map, length_nil,
    Nat.zero_add, Nat.max_eq_left (Nat.zero_le _)]
  rfl

theorem mem_functions_iff : a ∈ pciFunctions pci ↔ Present pci a := by
  constructor
  · intro h
    obtain ⟨bus, hbus, h⟩ := mem_flatMap.mp h
    exact ((mem_busFunctions_iff (mem_range.mp hbus)).mp h).2
  · intro h
    have hbus := h.1.1
    exact mem_flatMap.mpr
      ⟨a.bus, mem_range.mpr hbus, (mem_busFunctions_iff hbus).mpr ⟨rfl, h⟩⟩

theorem nodup_functions : (pciFunctions pci).Nodup := by
  refine nodup_flatMap.mpr ⟨fun _ _ => nodup_busFunctions, ?_⟩
  refine (nodup_range (n := 256)).imp_of_mem fun hx hy hne a ha hb => hne ?_
  have hfirst := (mem_busFunctions_iff (mem_range.mp hx)).mp ha
  have hsecond := (mem_busFunctions_iff (mem_range.mp hy)).mp hb
  exact hfirst.1.symm.trans hsecond.1

theorem present_of_behind {b : PciAddress} (h : a ∈ behind pci b) : Present pci a := by
  unfold behind at h
  split_ifs at h with hbridge
  · exact ((mem_busFunctions_iff secondary_lt).mp h).2
  · exact absurd h not_mem_nil

theorem two_le_count {b : PciAddress} (hb : Present pci b) (ha : a ∈ behind pci b) :
    2 ≤ ((range 256).flatMap fun bus =>
      (busFunctions pci bus).flatMap fun b => behind pci b ++ [b]).count a := by
  rw [← flatMap_assoc, ← (flatMap_append_perm _ (behind pci) (fun b => [b])).count_eq,
    count_append, flatMap_singleton']
  have hbehind := mem_flatMap.mpr ⟨b, mem_functions_iff.mpr hb, ha⟩
  have hown := mem_functions_iff.mpr (present_of_behind ha)
  exact Nat.add_le_add (one_le_count_iff.mpr hbehind) (one_le_count_iff.mpr hown)

theorem bridgesEmpty_of_enumerated (h : Enumerated pci) : BridgesEmpty pci := by
  obtain ⟨n, list, hlist⟩ := h
  intro b hpresent hbridge dev hdev hanswers
  obtain ⟨hinit, hcount⟩ := hlist n (Nat.le_refl n)
  have hbehind : ⟨(getSecondaryBus pci b.bus b.dev b.func).toNat, dev, 0⟩ ∈ behind pci b := by
    rw [behind, if_pos hbridge, mem_busFunctions_iff secondary_lt]
    exact ⟨rfl, ⟨secondary_lt, hdev, Nat.zero_lt_succ 7⟩, hanswers, .inl rfl⟩
  obtain ⟨new, hall, hnew⟩ := foldlM_appends PciDevice.address
    (fun bus _ list list' hscan => scan_appends hscan) hinit
  rw [nil_append] at hall
  have htwo := Nat.le_trans (two_le_count hpresent hbehind) (hnew.count_le _)
  rw [← hall, hcount _ (present_of_behind hbehind)] at htwo
  exact absurd htwo (by omega)

/-- **The enumeration is right if and only if there is nothing behind a bridge** and the list of the
devices does not end before the functions do. -/
theorem enumerated_iff (pci : PciSpace) :
    Enumerated pci ↔ BridgesEmpty pci ∧ (pciFunctions pci).length ≤ 1024 := by
  constructor
  · intro h
    refine ⟨bridgesEmpty_of_enumerated h, ?_⟩
    obtain ⟨n, list, hlist⟩ := h
    have hinit := pciInit_eq (bridgesEmpty_of_enumerated ⟨n, list, hlist⟩) n
    rw [(hlist (n + 2) (Nat.le_add_right n 2)).1] at hinit
    by_contra hmany
    rw [if_neg hmany] at hinit
    exact absurd hinit (by simp)
  · rintro ⟨h, hfew⟩
    refine ⟨2, (pciFunctions pci).map fun a => pciDevice pci a.bus a.dev a.func,
      fun fuel hfuel => ⟨?_, fun a ha => ?_⟩⟩
    · obtain ⟨n, rfl⟩ := Nat.exists_eq_add_of_le' hfuel
      rw [pciInit_eq h n, if_pos hfew]
    · have haddress : PciDevice.address ∘ (fun a => pciDevice pci a.bus a.dev a.func) = id := rfl
      rw [List.map_map, haddress, List.map_id]
      exact count_eq_one_of_mem nodup_functions (mem_functions_iff.mpr ha)

def oneBridge : PciSpace := fun bus dev func off =>
  if bus = 0 ∧ dev = 0 ∧ func = 0 then
    if off = 0xc then 0x10000#32 else if off = 0x18 then 0x100#32 else 0#32
  else if bus = 1 ∧ dev = 0 ∧ func = 0 then 0#32
  else 0xffffffff#32

/-- **A device is found twice**: with the bridge that it is behind, and with its bus. -/
theorem device_behind_bridge_twice : (pciInit oneBridge 2).map (List.map PciDevice.address) =
      some [⟨1, 0, 0⟩, ⟨0, 0, 0⟩, ⟨1, 0, 0⟩] ∧ ¬ Enumerated oneBridge := by
  refine ⟨by decide +kernel, fun h => ?_⟩
  refine bridgesEmpty_of_enumerated h ⟨0, 0, 0⟩ ?_ (by decide) 0 (by omega) (by decide)
  exact ⟨⟨by decide, by decide, by decide⟩, by decide, .inl rfl⟩

end Enumeration

end Pastoral
