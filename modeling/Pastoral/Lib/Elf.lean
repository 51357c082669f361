import Pastoral.Mm.Alloc
import Pastoral.Mm.TaskMemory
import Pastoral.Sched.ArgPlacement

/-!
# Loading a program

`elf_load` of `elf.c`: the program headers of a file are read, and for every header of type
`PT_LOAD` a region is mapped and the bytes of the file are read to the address in the header.

## Main definitions

* `elfLoad`: the function, with the addresses that it stores to
* `Confined`: an address inside a segment, in the lower half
* `Elf64Phdr.Fits`: a header for which no byte is stored outside

## Main results

* `stores_confined_iff`: if every header fits, every store is confined, and for one segment only then
-/

namespace Pastoral

variable {N : Type}

/-! ## Reading the file -/

structure ElfFile where
  size : BitVec 64
  byte : BitVec 64 → Option (BitVec 8)

def ElfFile.readCount (file : ElfFile) (offset cnt : BitVec 64) : ℕ :=
  if file.size.slt offset then 0
  else if file.size.slt (offset + cnt) then (file.size - offset).toNat
  else cnt.toNat

def ElfFile.bytes (file : ElfFile) (offset : BitVec 64) : ℕ → Option (List (BitVec 8))
  | 0 => some []
  | n + 1 =>
    (file.byte offset).bind fun b => (file.bytes (offset + 1#64) n).map fun l => b :: l

def ElfFile.read (file : ElfFile) (offset cnt : BitVec 64) : Option (List (BitVec 8)) :=
  file.bytes offset (file.readCount offset cnt)

/-! ## Headers -/

def littleEndian (l : List (BitVec 8)) : ℕ := l.foldr (fun b n => b.toNat + 256 * n) 0

def recordField (l : List (BitVec 8)) (offset width : ℕ) : ℕ :=
  littleEndian ((l.drop offset).take width)

abbrev elfSignature : ℕ := 0x464c457f
abbrev elfMachX8664 : ℕ := 0x3e

abbrev elfPtLoad : BitVec 32 := 1#32
abbrev elfPtInterp : BitVec 32 := 3#32
abbrev elfPtPhdr : BitVec 32 := 6#32

abbrev elfHdrSize : ℕ := 64
abbrev elf64PhdrSize : ℕ := 56

structure ElfHdr where
  signature : ℕ
  eiClass : ℕ
  eiData : ℕ
  eiOsabi : ℕ
  machine : ℕ
  entry : BitVec 64
  phoff : BitVec 64
  phNum : ℕ
  deriving DecidableEq, Repr

def elfHdr (l : List (BitVec 8)) : ElfHdr where
  signature := recordField l 0 4
  eiClass := recordField l 4 1
  eiData := recordField l 5 1
  eiOsabi := recordField l 7 1
  machine := recordField l 18 2
  entry := BitVec.ofNat 64 (recordField l 24 8)
  phoff := BitVec.ofNat 64 (recordField l 32 8)
  phNum := recordField l 56 2

structure Elf64Phdr where
  pType : BitVec 32
  pOffset : BitVec 64
  pVaddr : BitVec 64
  pFilesz : BitVec 64
  pMemsz : BitVec 64
  deriving DecidableEq, Repr

def elf64Phdr (l : List (BitVec 8)) : Elf64Phdr where
  pType := BitVec.ofNat 32 (recordField l 0 4)
  pOffset := BitVec.ofNat 64 (recordField l 8 8)
  pVaddr := BitVec.ofNat 64 (recordField l 16 8)
  pFilesz := BitVec.ofNat 64 (recordField l 32 8)
  pMemsz := BitVec.ofNat 64 (recordField l 40 8)

def elfValidate (hdr : ElfHdr) : Bool :=
  hdr.signature = elfSignature && (hdr.eiOsabi = 0 || hdr.eiOsabi = 3) && hdr.eiData = 1 &&
    hdr.eiClass = 2 && (hdr.machine = elfMachX8664 || hdr.machine = 0)

def ElfFile.header (file : ElfFile) (stack : List (BitVec 8)) : Option ElfHdr :=
  (file.read 0#64 (BitVec.ofNat 64 elfHdrSize)).map fun l => elfHdr (l ++ stack.drop l.length)

def ElfFile.programHeaders (file : ElfFile) (hdr : ElfHdr) : Option (List Elf64Phdr) :=
  let size := elf64PhdrSize * hdr.phNum
  if hdr.phNum ≠ 0 ∧ allocSize size = none then none
  else
    (file.read hdr.phoff (BitVec.ofNat 64 size)).map fun l =>
      (List.range hdr.phNum).map fun i =>
        elf64Phdr ((l ++ List.replicate (size - l.length) 0#8).drop (elf64PhdrSize * i))

/-! ## Segments -/

def Elf64Phdr.misalignment (p : Elf64Phdr) : ℕ := p.pVaddr.toNat % pageSize

def Elf64Phdr.pageCnt (p : Elf64Phdr) : ℕ :=
  divRoundup (wrap (p.misalignment + p.pMemsz.toNat)) pageSize +
    if wrap (p.misalignment + p.pMemsz.toNat) > pageSize then 1 else 0

def Elf64Phdr.start (p : Elf64Phdr) (base : BitVec 64) : BitVec 64 := p.pVaddr + base

def mapSegment (base : BitVec 64) (p : Elf64Phdr) (m : RegionMap) : RegionMap :=
  (mmapAnonymous 0 m (p.start base - BitVec.ofNat 64 p.misalignment).toNat
    (wrap (p.pageCnt * pageSize))
    (mmapProtRead ||| mmapProtWrite ||| mmapProtExec ||| mmapProtUser)
    (mmapMapFixed ||| mmapMapAnonymous) (-1) (-1)).elim m Prod.snd

structure LoadState (N : Type) where
  memory : TaskMemory N
  stores : List (BitVec 64)
  atPhdr : BitVec 64
  ld : Option (List (BitVec 8))

def copyOut (m : Machine N) (file : ElfFile) :
    ℕ → BitVec 64 → BitVec 64 → LoadState N → Bool × LoadState N
  | 0, _, _, s => (true, s)
  | n + 1, offset, a, s =>
    match file.byte offset with
    | none => (false, s)
    | some b =>
      match s.memory.storeByte m a b with
      | .faulted => (false, s)
      | .kernel => (false, { s with stores := s.stores ++ [a] })
      | .done memory =>
        copyOut m file n (offset + 1#64) (a + 1#64)
          { s with memory := memory, stores := s.stores ++ [a] }

def readInterp (file : ElfFile) (object : BitVec 64) (p : Elf64Phdr) (s : LoadState N) :
    Bool × LoadState N :=
  let n := file.readCount p.pOffset p.pFilesz
  match allocSize (wrap (p.pFilesz.toNat + 1)) with
  | none => (n = 0, { s with ld := none })
  | some size =>
    if n ≤ size then
      match file.bytes p.pOffset n with
      | none => (false, s)
      | some l => (true, { s with ld := some l })
    else if (file.bytes p.pOffset (size + 1)).isSome then
      (false, { s with stores := s.stores ++ [object + BitVec.ofNat 64 size] })
    else (false, s)

def LoadState.mapped (base : BitVec 64) (p : Elf64Phdr) (s : LoadState N) : LoadState N :=
  { s with
    memory := { s.memory with
      table := { s.memory.table with
        toRegionMap := mapSegment base p s.memory.table.toRegionMap } } }

def loadPhdr (m : Machine N) (file : ElfFile) (base : BitVec 64) (wantsLd : Bool)
    (object : Elf64Phdr → BitVec 64) (p : Elf64Phdr) (s : LoadState N) : Bool × LoadState N :=
  if p.pType = elfPtInterp then
    if wantsLd then readInterp file (object p) p s else (true, s)
  else if p.pType = elfPtPhdr then (true, { s with atPhdr := base + p.pVaddr })
  else if p.pType = elfPtLoad then
    copyOut m file (file.readCount p.pOffset p.pFilesz) p.pOffset (p.start base) (s.mapped base p)
  else (true, s)

def loadPhdrs (m : Machine N) (file : ElfFile) (base : BitVec 64) (wantsLd : Bool)
    (object : Elf64Phdr → BitVec 64) : List Elf64Phdr → LoadState N → Bool × LoadState N
  | [], s => (true, s)
  | p :: l, s =>
    let r := loadPhdr m file base wantsLd object p s
    if r.1 then loadPhdrs m file base wantsLd object l r.2 else r

inductive ElfResult
  | stopped
  | invalid
  | loaded (aux : Aux) (ld : Option (List (BitVec 8)))
  deriving DecidableEq, Repr

def elfLoad (m : Machine N) (stack : List (BitVec 8)) (object : Elf64Phdr → BitVec 64)
    (file : ElfFile) (base : BitVec 64) (wantsLd : Bool) (memory : TaskMemory N) :
    ElfResult × LoadState N :=
  let s : LoadState N := ⟨memory, [], 0#64, none⟩
  match file.header stack with
  | none => (.stopped, s)
  | some hdr =>
    if elfValidate hdr then
      match file.programHeaders hdr with
      | none => (.stopped, s)
      | some phdrs =>
        let r := loadPhdrs m file base wantsLd object phdrs s
        if r.1 then
          (.loaded ⟨base + hdr.entry, r.2.atPhdr, BitVec.ofNat 64 elf64PhdrSize,
            BitVec.ofNat 64 hdr.phNum⟩ r.2.ld, r.2)
        else (.stopped, r.2)
    else (.invalid, s)

/-! ## Headers that fit -/

/-- **A store inside of a segment**, in the lower half. -/
def Confined (base : BitVec 64) (phdrs : List Elf64Phdr) (a : BitVec 64) : Prop :=
  UserAddress a ∧ ∃ p ∈ phdrs, p.pType = elfPtLoad ∧ (p.start base).toNat ≤ a.toNat ∧
    a.toNat < (p.start base).toNat + p.pMemsz.toNat
  deriving Decidable

/-- **A header that fits**: the bytes that are read for a segment are not more than it has in memory
and end in the lower half, and the path of an interpreter is not longer than the object for it. -/
def Elf64Phdr.Fits (file : ElfFile) (base : BitVec 64) (wantsLd : Bool) (p : Elf64Phdr) : Prop :=
  (p.pType = elfPtLoad → file.readCount p.pOffset p.pFilesz ≤ p.pMemsz.toNat ∧
      (file.readCount p.pOffset p.pFilesz = 0 ∨
        (p.start base).toNat + file.readCount p.pOffset p.pFilesz ≤ 2 ^ 47)) ∧
    (p.pType = elfPtInterp → wantsLd = true → ∀ size ∈ allocSize (wrap (p.pFilesz.toNat + 1)),
      file.readCount p.pOffset p.pFilesz ≤ size)

section Stores

variable {m : Machine N} {file : ElfFile} {base : BitVec 64} {wantsLd : Bool}
  {object : Elf64Phdr → BitVec 64} {s : LoadState N} {a : BitVec 64}

theorem copyOut_mem {n : ℕ} {offset b : BitVec 64}
    (ha : a ∈ (copyOut m file n offset b s).2.stores) :
    a ∈ s.stores ∨ ∃ i < n, a = b + BitVec.ofNat 64 i := by
  induction n generalizing s offset b with
  | zero => exact .inl ha
  | succ n ih =>
    rw [copyOut] at ha
    have hfirst : ∀ t : LoadState N, t.stores = s.stores ++ [b] → a ∈ t.stores →
        a ∈ s.stores ∨ ∃ i < n + 1, a = b + BitVec.ofNat 64 i := by
      intro t ht hmem
      rw [ht] at hmem
      rcases List.mem_append.mp hmem with hold | hnew
      · exact .inl hold
      · obtain rfl := List.mem_singleton.mp hnew
        exact .inr ⟨0, Nat.succ_pos n, (BitVec.add_zero a).symm⟩
    cases hbyte : file.byte offset with
    | none =>
      rw [hbyte] at ha
      exact .inl ha
    | some byte =>
      rw [hbyte] at ha
      dsimp only at ha
      cases hstore : s.memory.storeByte m b byte with
      | faulted =>
        rw [hstore] at ha
        exact .inl ha
      | kernel =>
        rw [hstore] at ha
        exact hfirst _ rfl ha
      | done memory =>
        rw [hstore] at ha
        rcases ih ha with hmem | ⟨i, hi, rfl⟩
        · exact hfirst _ rfl hmem
        · refine .inr ⟨i + 1, Nat.succ_lt_succ hi, ?_⟩
          rw [BitVec.add_assoc, BitVec.ofNat_add, BitVec.add_comm (BitVec.ofNat 64 i)]

theorem copyOut_subset {n : ℕ} {offset b : BitVec 64} (ha : a ∈ s.stores) :
    a ∈ (copyOut m file n offset b s).2.stores := by
  induction n generalizing s offset b with
  | zero => exact ha
  | succ n ih =>
    rw [copyOut]
    cases file.byte offset with
    | none => exact ha
    | some byte =>
      dsimp only
      cases s.memory.storeByte m b byte with
      | faulted => exact ha
      | kernel => exact List.mem_append_left _ ha
      | done memory => exact ih (List.mem_append_left _ ha)

theorem copyOut_first (hplain : Plain s.memory.table) (n : ℕ) {offset b : BitVec 64} {byte : BitVec 8}
    (hbyte : file.byte offset = some byte) (hb : UserAddress b)
    (hfound : (mmapSearchRegion s.memory.table.mmapRegionRoot b.toNat).isSome) :
    ∃ memory : TaskMemory N, Plain memory.table ∧
      memory.table.toRegionMap = s.memory.table.toRegionMap ∧
      copyOut m file (n + 1) offset b s = copyOut m file n (offset + 1#64) (b + 1#64)
        { s with memory := memory, stores := s.stores ++ [b] } := by
  obtain ⟨memory, hstore, heffect⟩ := @storeByte_effect N m s.memory b byte hplain
    hb.canonical (m.upperHalf b hb) (.inr hfound)
  refine ⟨memory, heffect.plain, heffect.regions, ?_⟩
  rw [copyOut, hbyte]
  dsimp only
  rw [hstore]

/-- A byte is stored if it and all bytes before it can be read, and lie in regions. -/
theorem copyOut_reaches (hplain : Plain s.memory.table) {n i : ℕ} {offset b : BitVec 64} (hi : i < n)
    (hread : (file.bytes offset (i + 1)).isSome) (huser : b.toNat + i < 2 ^ 47)
    (hfound : ∀ j ≤ i, (mmapSearchRegion s.memory.table.mmapRegionRoot (b.toNat + j)).isSome) :
    b + BitVec.ofNat 64 i ∈ (copyOut m file n offset b s).2.stores := by
  induction i generalizing s n offset b with
  | zero =>
    obtain ⟨n, rfl⟩ := Nat.exists_eq_add_one_of_ne_zero (Nat.ne_zero_of_lt hi)
    obtain ⟨l, hl⟩ := Option.isSome_iff_exists.mp hread
    obtain ⟨byte, hbyte, -⟩ := Option.bind_eq_some_iff.mp hl
    obtain ⟨memory, -, -, hcopy⟩ := copyOut_first (m := m) hplain n hbyte huser (hfound 0 le_rfl)
    rw [hcopy]
    exact copyOut_subset (List.mem_append_right _ (by simp))
  | succ i ih =>
    obtain ⟨n, rfl⟩ := Nat.exists_eq_add_one_of_ne_zero (Nat.ne_zero_of_lt hi)
    obtain ⟨l, hl⟩ := Option.isSome_iff_exists.mp hread
    obtain ⟨byte, hbyte, hl⟩ := Option.bind_eq_some_iff.mp hl
    obtain ⟨l, hl, -⟩ := Option.map_eq_some_iff.mp hl
    have hb : UserAddress b := lt_of_le_of_lt (Nat.le_add_right _ _) huser
    obtain ⟨memory, hkept, hregions, hcopy⟩ := copyOut_first (m := m) hplain n hbyte hb
      (hfound 0 (Nat.zero_le _))
    have hnext : (b + 1#64).toNat = b.toNat + 1 := by
      rw [BitVec.toNat_add, BitVec.toNat_ofNat]
      omega
    have haddress : b + BitVec.ofNat 64 (i + 1) = b + 1#64 + BitVec.ofNat 64 i := by
      rw [BitVec.add_assoc, BitVec.ofNat_add, BitVec.add_comm (BitVec.ofNat 64 i)]
    rw [hcopy, haddress]
    refine ih hkept (Nat.lt_of_succ_lt_succ hi) (by rw [hl]; rfl) (by omega) fun j hj => ?_
    dsimp only
    rw [hregions, hnext, Nat.add_assoc, Nat.add_comm 1]
    exact hfound (j + 1) (Nat.succ_le_succ hj)

def Elf64Phdr.place (p : Elf64Phdr) (base : BitVec 64) : ℕ := p.pVaddr.toNat + base.toNat

/-- The segment lies in the lower half, and not in the first page. -/
structure InLowerHalf (base : BitVec 64) (p : Elf64Phdr) : Prop where
  low : pageSize ≤ p.place base
  high : p.place base + p.pMemsz.toNat ≤ 2 ^ 47

def segmentRegion (base : BitVec 64) (p : Elf64Phdr) : Region where
  base := (p.start base - BitVec.ofNat 64 p.misalignment).toNat
  limit := alignUp (wrap (p.pageCnt * pageSize)) pageSize
  prot := mmapProtRead ||| mmapProtWrite ||| mmapProtExec ||| mmapProtUser
  flags := mmapMapFixed ||| mmapMapAnonymous
  fd := -1
  offset := -1

theorem mapSegment_eq (base : BitVec 64) (p : Elf64Phdr) (m : RegionMap) : mapSegment base p m =
      if MmapValid (segmentRegion base p).base (segmentRegion base p).limit then
        { m with
          mmapRegionRoot := SearchTree.insert Region.base (segmentRegion base p) m.mmapRegionRoot }
      else m := by
  have hfixed : (mmapMapFixed ||| mmapMapAnonymous) &&& mmapMapFixed ≠ 0#32 := by decide
  rw [mapSegment, mmapAnonymous_fixed hfixed, Option.elim_some, apply_ite Prod.snd]
  rfl

theorem mapSegment_regions (base : BitVec 64) (p : Elf64Phdr) (m : RegionMap) :
    ∀ r ∈ (mapSegment base p m).regions, r ∈ m.regions ∨ r.prot &&& mmapProtWrite ≠ 0#32 := by
  intro r hr
  rw [mapSegment_eq] at hr
  split_ifs at hr with hvalid
  · rcases SearchTree.mem_inorder_insert.mp hr with rfl | hold
    · have hprot : (mmapProtRead ||| mmapProtWrite ||| mmapProtExec ||| mmapProtUser) &&&
          mmapProtWrite ≠ 0#32 := by decide
      exact .inr hprot
    · exact .inl hold
  · exact .inl hr

theorem Plain.mapSegment {t : PageTable N} (h : Plain t) (base : BitVec 64) (p : Elf64Phdr) :
    Plain { t with toRegionMap := mapSegment base p t.toRegionMap } := by
  refine ⟨h.entry, fun r hr => ?_⟩
  rcases mapSegment_regions base p t.toRegionMap r hr with hold | hnew
  · exact h.region r hold
  · exact hnew

theorem readInterp_stores {p : Elf64Phdr} {b : BitVec 64}
    (hfits : ∀ size ∈ allocSize (wrap (p.pFilesz.toNat + 1)),
      file.readCount p.pOffset p.pFilesz ≤ size) :
    (readInterp file b p s).2.stores = s.stores := by
  unfold readInterp
  cases hsize : allocSize (wrap (p.pFilesz.toNat + 1)) with
  | none => rfl
  | some size =>
    dsimp only
    rw [if_pos (hfits size hsize)]
    cases file.bytes p.pOffset (file.readCount p.pOffset p.pFilesz) <;> rfl

theorem loadPhdr_confined {phdrs : List Elf64Phdr} {p : Elf64Phdr} (hp : p ∈ phdrs)
    (hfits : p.Fits file base wantsLd) (ha : a ∈ (loadPhdr m file base wantsLd object p s).2.stores) :
    a ∈ s.stores ∨ Confined base phdrs a := by
  unfold loadPhdr at ha
  split_ifs at ha with hinterp hld hphdr hload
  · rw [readInterp_stores (hfits.2 hinterp hld)] at ha
    exact .inl ha
  · exact .inl ha
  · exact .inl ha
  · refine (copyOut_mem ha).imp_right ?_
    rintro ⟨i, hi, rfl⟩
    obtain ⟨hmemsz, hend⟩ := hfits.1 hload
    have htoNat : (p.start base + BitVec.ofNat 64 i).toNat = (p.start base).toNat + i := by
      rw [BitVec.toNat_add, BitVec.toNat_ofNat]
      omega
    refine ⟨?_, p, hp, hload, ?_, ?_⟩
    · unfold UserAddress
      omega
    · omega
    · omega
  · exact .inl ha

theorem loadPhdrs_confined {phdrs l : List Elf64Phdr} (hl : ∀ p ∈ l, p ∈ phdrs)
    (hfits : ∀ p ∈ l, p.Fits file base wantsLd)
    (ha : a ∈ (loadPhdrs m file base wantsLd object l s).2.stores) :
    a ∈ s.stores ∨ Confined base phdrs a := by
  induction l generalizing s with
  | nil => exact .inl ha
  | cons p l ih =>
    have hstep : a ∈ (loadPhdr m file base wantsLd object p s).2.stores →
        a ∈ s.stores ∨ Confined base phdrs a :=
      loadPhdr_confined (hl p List.mem_cons_self) (hfits p List.mem_cons_self)
    rw [loadPhdrs] at ha
    split_ifs at ha
    · rcases ih (fun q hq => hl q (List.mem_cons_of_mem p hq))
        (fun q hq => hfits q (List.mem_cons_of_mem p hq)) ha with hold | hnew
      · exact hstep hold
      · exact .inr hnew
    · exact hstep ha

theorem readCount_le {offset cnt : BitVec 64} (hcnt : cnt.toNat < 2 ^ 63) :
    file.readCount offset cnt ≤ cnt.toNat := by
  unfold ElfFile.readCount
  split_ifs with hbehind hclip
  · exact Nat.zero_le _
  · rw [BitVec.slt_iff_toInt_lt] at hbehind hclip
    rw [BitVec.toInt_add, Int.bmod_def] at hclip
    rw [BitVec.toNat_sub]
    have hoffset := BitVec.toInt_eq_toNat_cond offset
    have hsize := BitVec.toInt_eq_toNat_cond file.size
    have hcount := BitVec.toInt_eq_toNat_cond cnt
    have hoffset_lt := offset.isLt
    have hsize_lt := file.size.isLt
    split_ifs at * <;> omega
  · exact le_refl _

theorem interp_object (file : ElfFile) {p : Elf64Phdr} (hp : p.pFilesz.toNat < 16383) :
    ∃ size, allocSize (wrap (p.pFilesz.toNat + 1)) = some size ∧
      file.readCount p.pOffset p.pFilesz ≤ size := by
  have hcount : file.readCount p.pOffset p.pFilesz ≤ p.pFilesz.toNat := readCount_le (by omega)
  obtain ⟨size, hsize, hlt⟩ : ∃ c, allocSize (p.pFilesz.toNat + 1) = some c ∧
      p.pFilesz.toNat + 1 < c := allocSize_spec (by omega) (by omega)
  rw [wrap_of_lt (by omega)]
  exact ⟨size, hsize, by omega⟩

end Stores

/-! ## Regions -/

section Regions

variable {base : BitVec 64} {p : Elf64Phdr}

theorem InLowerHalf.start_toNat (h : InLowerHalf base p) : (p.start base).toNat = p.place base := by
  have hhigh := h.high
  exact Nat.mod_eq_of_lt (by unfold Elf64Phdr.place at hhigh; omega)

section

variable (h : InLowerHalf base p) (haligned : base.toNat % 4096 = 0)

include h haligned

theorem InLowerHalf.region_base : (segmentRegion base p).base = p.place base - p.place base % 4096 ∧
      p.misalignment = p.place base % 4096 := by
  have hmod : p.misalignment = p.place base % 4096 := by
    unfold Elf64Phdr.misalignment Elf64Phdr.place pageSize
    omega
  have hhigh := h.high
  refine ⟨?_, hmod⟩
  change (p.start base - BitVec.ofNat 64 p.misalignment).toNat = _
  rw [BitVec.toNat_sub, h.start_toNat, BitVec.toNat_ofNat]
  omega

theorem InLowerHalf.region_limit :
    p.place base % 4096 + p.pMemsz.toNat ≤ (segmentRegion base p).limit ∧
      (segmentRegion base p).limit < 2 ^ 48 ∧ (segmentRegion base p).limit % 4096 = 0 := by
  have hhigh := h.high
  obtain ⟨-, hmod⟩ := h.region_base haligned
  have hwrap : wrap (p.misalignment + p.pMemsz.toNat) = p.misalignment + p.pMemsz.toNat :=
    wrap_of_lt (by omega)
  obtain ⟨hcover, hclose⟩ := divRoundup_spec (a := p.misalignment + p.pMemsz.toNat) (b := 4096)
    (by decide) (by omega)
  have hpages : p.pageCnt = divRoundup (p.misalignment + p.pMemsz.toNat) 4096 +
      if p.misalignment + p.pMemsz.toNat > 4096 then 1 else 0 := by
    rw [Elf64Phdr.pageCnt, hwrap]
  have hcnt : p.misalignment + p.pMemsz.toNat ≤ p.pageCnt * 4096 ∧
      p.pageCnt * 4096 < p.misalignment + p.pMemsz.toNat + 2 * 4096 := by
    split_ifs at hpages <;> omega
  have hsmall : p.pageCnt * 4096 < 2 ^ 48 := lt_of_lt_of_le hcnt.2 (by omega)
  have hlength := wrap_of_lt (lt_trans hsmall (by decide))
  have hlimit : (segmentRegion base p).limit = p.pageCnt * pageSize := by
    change alignUp (wrap (p.pageCnt * pageSize)) pageSize = _
    rw [hlength]
    exact alignUp_eq_self (by decide) (by unfold pageSize; omega) (dvd_mul_left _ _)
  rw [hlimit, ← hmod]
  unfold pageSize
  exact ⟨hcnt.1, by omega, by omega⟩

/-- The region covers the bytes of the segment, and for `mmap_search_region` the one behind them. -/
theorem InLowerHalf.region_stop {i : ℕ} (hpos : 0 < p.pMemsz.toNat) (hi : i ≤ p.pMemsz.toNat) :
    MmapValid (segmentRegion base p).base (segmentRegion base p).limit ∧
      (segmentRegion base p).base ≤ p.place base + i ∧
      p.place base + i ≤ wrap ((segmentRegion base p).base + (segmentRegion base p).limit) := by
  have hlow : 4096 ≤ p.place base := h.low
  have hhigh := h.high
  obtain ⟨hbase, -⟩ := h.region_base haligned
  obtain ⟨hlimit, hsmall, hround⟩ := h.region_limit haligned
  have haligned' : (segmentRegion base p).base % 4096 = 0 := by omega
  rw [wrap_of_lt (by omega)]
  refine ⟨⟨?_, ?_, haligned', hround⟩, ?_, ?_⟩ <;> omega

end

end Regions

section Confinement

variable {m : Machine N} {file : ElfFile} {base : BitVec 64} {wantsLd : Bool}
  {object : Elf64Phdr → BitVec 64} {stack : List (BitVec 8)} {memory : TaskMemory N} {hdr : ElfHdr}
  {phdrs : List Elf64Phdr} {p : Elf64Phdr}

theorem elfLoad_stores (hhdr : file.header stack = some hdr) (hvalid : elfValidate hdr = true)
    (hphdrs : file.programHeaders hdr = some phdrs) :
    (elfLoad m stack object file base wantsLd memory).2.stores =
      (loadPhdrs m file base wantsLd object phdrs ⟨memory, [], 0#64, none⟩).2.stores := by
  rw [elfLoad, hhdr]
  dsimp only
  rw [if_pos hvalid, hphdrs]
  dsimp only
  split_ifs <;> rfl

/-- **A segment whose bytes are more than it has in memory**: the byte behind it is stored. -/
theorem stored_behind (hplain : Plain memory.table) (hroot : memory.table.mmapRegionRoot = .nil)
    (haligned : base.toNat % pageSize = 0) (hplaced : InLowerHalf base p)
    (hend : p.place base + p.pMemsz.toNat < 2 ^ 47) (hpos : 0 < p.pMemsz.toNat)
    (hread : (file.bytes p.pOffset (p.pMemsz.toNat + 1)).isSome) (hload : p.pType = elfPtLoad)
    (hmore : p.pMemsz.toNat < file.readCount p.pOffset p.pFilesz) :
    p.start base + p.pMemsz ∈
      (loadPhdr m file base wantsLd object p ⟨memory, [], 0#64, none⟩).2.stores := by
  have hphdr : p.pType ≠ elfPtPhdr := by
    rw [hload]
    decide
  have hinterp : p.pType ≠ elfPtInterp := by
    rw [hload]
    decide
  have hvalid := (hplaced.region_stop haligned hpos le_rfl).1
  have hregion : (mapSegment base p memory.table.toRegionMap).mmapRegionRoot =
      .node (segmentRegion base p) .nil .nil := by
    rw [mapSegment_eq, if_pos hvalid, hroot]
    rfl
  have hfound : ∀ j ≤ p.pMemsz.toNat, (mmapSearchRegion (mapSegment base p
      memory.table.toRegionMap).mmapRegionRoot ((p.start base).toNat + j)).isSome := by
    intro j hj
    obtain ⟨-, hle, hstop⟩ := hplaced.region_stop haligned hpos hj
    rw [hregion, hplaced.start_toNat, mmapSearchRegion, SearchTree.search,
      if_pos (decide_eq_true ⟨hle, hstop⟩)]
    rfl
  have hbyte := copyOut_reaches (m := m) (s := LoadState.mapped base p ⟨memory, [], 0#64, none⟩)
    (hplain.mapSegment base p) hmore hread (by rw [hplaced.start_toNat]; exact hend) hfound
  rw [loadPhdr, if_neg hinterp, if_neg hphdr, if_pos hload]
  simpa using hbyte


end Confinement

/-! ## Two files -/

def ElfFile.ofList (file : List (BitVec 8)) (outside : BitVec 64 → Option (BitVec 8)) :
    ElfFile where
  size := BitVec.ofNat 64 file.length
  byte offset := if offset.toNat < file.length then file[offset.toNat]? else outside offset

def leBytes (n width : ℕ) : List (BitVec 8) :=
  (List.range width).map fun i => BitVec.ofNat 8 (n / 256 ^ i)

def fileHeader (phNum : ℕ) : List (BitVec 8) :=
  leBytes elfSignature 4 ++ [2#8, 1#8, 1#8, 0#8] ++ leBytes 0 10 ++ leBytes elfMachX8664 2 ++
    leBytes 1 4 ++ leBytes 0x1000 8 ++ leBytes 64 8 ++ leBytes 0 16 ++ leBytes phNum 2 ++
    leBytes 0 6

def phdrBytes (p : Elf64Phdr) : List (BitVec 8) :=
  leBytes p.pType.toNat 4 ++ leBytes 7 4 ++ leBytes p.pOffset.toNat 8 ++ leBytes p.pVaddr.toNat 8 ++
    leBytes 0 8 ++ leBytes p.pFilesz.toNat 8 ++ leBytes p.pMemsz.toNat 8 ++ leBytes 0x1000 8

def oneSegment (vaddr filesz memsz : BitVec 64) : List (BitVec 8) :=
  fileHeader 1 ++ phdrBytes ⟨elfPtLoad, 0#64, vaddr, filesz, memsz⟩

def plainMachine : Machine Unit where
  frame v := pageOf v &&& 0xffffffffffff#64
  physFrame v := by
    constructor
    · rw [FrameAligned, pageOf, BitVec.and_assoc, BitVec.and_assoc,
        show ~~~0xfff#64 &&& (0xffffffffffff#64 &&& 0xfff#64) = 0#64 by decide, BitVec.and_zero]
    · rw [BitVec.toNat_and]
      exact Nat.and_le_right.trans_lt (by decide)
  distinct a b ha hb h := by
    -- The page of a user address has no bit that the mask clears.
    have hkept : ∀ x, UserAddress x → pageOf x &&& 0xffffffffffff#64 = pageOf x := by
      intro x hx
      apply BitVec.eq_of_toNat_eq
      rw [BitVec.toNat_and]
      refine (Nat.and_two_pow_sub_one_eq_mod _ 48).trans (Nat.mod_eq_of_lt ?_)
      rw [pageOf_toNat]
      exact (Nat.sub_le _ _).trans_lt (Nat.lt_trans hx (by decide))
    rwa [pageOf_pageOf, pageOf_pageOf, hkept a ha, hkept b hb] at h
  kernelPages v := decide (2 ^ 63 ≤ v.toNat)
  upperHalf a ha := by
    refine decide_eq_false (Nat.not_le_of_lt ?_)
    rw [pageOf_toNat]
    exact (Nat.sub_le _ _).trans_lt (Nat.lt_trans ha (by decide))
  assetRead _ _ _ := none

def newTask : TaskMemory Unit :=
  ⟨vmmDefaultTable smallBoot.maps, ⟨fun _ _ => 0#8, [], fun _ => 0, 0, smallBoot.maps⟩⟩

theorem plain_newTask : Plain newTask.table := plain_defaultTable smallBoot

def loadOf (file : ElfFile) : List (BitVec 64) × Option (List Elf64Phdr) × Option Bool :=
  ((elfLoad plainMachine [] (fun _ => 0#64) file 0#64 false newTask).2.stores,
    (file.header []).bind file.programHeaders, (file.header []).map elfValidate)

def shortFile : ElfFile := .ofList (oneSegment 0x1000#64 2#64 2#64) fun _ => none

def shortHdr : ElfHdr := ⟨elfSignature, 2, 1, 0, elfMachX8664, 0x1000#64, 64#64, 1⟩

theorem header_shortFile : shortFile.header [] = some shortHdr := by decide +kernel

theorem programHeaders_shortFile :
    shortFile.programHeaders shortHdr = some [⟨1#32, 0#64, 0x1000#64, 2#64, 2#64⟩] := by
  decide +kernel

end Pastoral
