import Pastoral.Fs.Ramfs
import Pastoral.Lib.Elf

/-!
# The image of a program

What a task finds in its memory after `elf_load`: the bytes of the file in each segment, and zero
behind them.

## Main results

* `elf_image_loaded`: loads return the bytes of the file
-/

open BitVec ByteMemory List Option Padded

namespace Pastoral

variable {N : Type}

/-! ## The file -/

section File

variable {file : List (BitVec 8)} {outside : BitVec 64 → Option (BitVec 8)}

theorem byte_ofList {offset : BitVec 64} (h : offset.toNat < file.length) :
    (ElfFile.ofList file outside).byte offset = file[offset.toNat]? := if_pos h

theorem readCount_inside {offset cnt : BitVec 64} (hsize : file.length < 2 ^ 63)
    (h : offset.toNat + cnt.toNat ≤ file.length) :
    (ElfFile.ofList file outside).readCount offset cnt = cnt.toNat := by
  have hlength : (ElfFile.ofList file outside).size.toNat = file.length := by
    rw [ElfFile.ofList, toNat_ofNat, Nat.mod_eq_of_lt (by omega)]
  have hsum : (offset + cnt).toNat = offset.toNat + cnt.toNat := by
    rw [toNat_add, Nat.mod_eq_of_lt (by omega)]
  unfold ElfFile.readCount
  rw [if_neg, if_neg]
  · rw [slt_iff_toInt_lt, toInt_eq_toNat_of_lt (by omega),
      toInt_eq_toNat_of_lt (by omega)]
    omega
  · rw [slt_iff_toInt_lt, toInt_eq_toNat_of_lt (by omega),
      toInt_eq_toNat_of_lt (by omega)]
    omega

theorem bytes_ofList {offset : BitVec 64} {n : ℕ} (hsize : file.length < 2 ^ 63)
    (h : offset.toNat + n ≤ file.length) :
    (ElfFile.ofList file outside).bytes offset n = some (slice file offset.toNat n) := by
  induction n generalizing offset with
  | zero => rw [ElfFile.bytes, slice, take_zero]
  | succ n ih =>
    have hnext : (offset + 1#64).toNat = offset.toNat + 1 := by
      rw [toNat_add, show (1#64).toNat = 1 from rfl, Nat.mod_eq_of_lt (by omega)]
    have hlt : offset.toNat < file.length := by omega
    rw [ElfFile.bytes, byte_ofList hlt, List.getElem?_eq_getElem hlt, bind_some,
      ih (by omega), map_some, hnext, slice, slice, drop_eq_getElem_cons hlt,
      take_succ_cons]

end File

/-! ## Segments -/

def segments (phdrs : List Elf64Phdr) : List Elf64Phdr :=
  phdrs.filter fun p => p.pType = elfPtLoad

structure Segment (file : List (BitVec 8)) (base : BitVec 64) (p : Elf64Phdr) : Prop where
  filesz : p.pFilesz.toNat ≤ p.pMemsz.toNat
  inFile : p.pOffset.toNat + p.pFilesz.toNat ≤ file.length
  low : pageSize ≤ p.place base
  high : p.place base + p.pMemsz.toNat ≤ 2 ^ 47

def SegmentsApart (p q : Elf64Phdr) : Prop :=
  ∀ x, ¬ ((p.pVaddr.toNat ≤ x ∧ x < p.pVaddr.toNat + p.pMemsz.toNat) ∧
    (q.pVaddr.toNat ≤ x ∧ x < q.pVaddr.toNat + q.pMemsz.toNat))

theorem Segment.placed {file : List (BitVec 8)} {base : BitVec 64} {p : Elf64Phdr}
    (h : Segment file base p) : InLowerHalf base p := ⟨h.low, h.high⟩

/-! ## The image -/

def image (file : List (BitVec 8)) (base : BitVec 64) (phdrs : List Elf64Phdr) : ℕ → BitVec 8 :=
  (segments phdrs).foldl
    (fun c p => store c (p.place base) (slice file p.pOffset.toNat p.pFilesz.toNat)) fun _ => 0#8

def segmentByte (file : List (BitVec 8)) (p : Elf64Phdr) (i : ℕ) : BitVec 8 :=
  if i < p.pFilesz.toNat then file.getD (p.pOffset.toNat + i) 0#8 else 0#8

section Image

variable {file : List (BitVec 8)} {base : BitVec 64} {p : Elf64Phdr} {l : List Elf64Phdr}
  {c : ℕ → BitVec 8} {x : ℕ}

theorem Segment.length_slice (h : Segment file base p) :
    (slice file p.pOffset.toNat p.pFilesz.toNat).length = p.pFilesz.toNat := by
  have hfile := h.inFile
  rw [slice, length_take, length_drop]
  omega

theorem foldl_store_outside (hl : ∀ q ∈ l, Segment file base q)
    (hx : ∀ q ∈ l, x < q.place base ∨ q.place base + q.pMemsz.toNat ≤ x) :
    l.foldl (fun c p => store c (p.place base) (slice file p.pOffset.toNat p.pFilesz.toNat)) c x =
      c x := by
  induction l generalizing c with
  | nil => rfl
  | cons q l ih =>
    have hq := hl q mem_cons_self
    have hout := hx q mem_cons_self
    have hfilesz := hq.filesz
    rw [foldl_cons, ih (fun r hr => hl r (mem_cons_of_mem _ hr))
      (fun r hr => hx r (mem_cons_of_mem _ hr)), store_outside]
    rw [hq.length_slice]
    omega

theorem image_segment {phdrs : List Elf64Phdr}
    (hsegments : ∀ q ∈ segments phdrs, Segment file base q)
    (hapart : (segments phdrs).Pairwise SegmentsApart) (hp : p ∈ segments phdrs) {i : ℕ}
    (hi : i < p.pMemsz.toNat) :
    image file base phdrs (p.place base + i) = segmentByte file p i := by
  obtain ⟨before, after, hsplit⟩ := append_of_mem hp
  have hseg := hsegments p hp
  rw [hsplit] at hsegments hapart
  obtain ⟨-, hafter, hbefore⟩ := pairwise_append.mp hapart
  obtain ⟨hafter, -⟩ := pairwise_cons.mp hafter
  have hout : ∀ q, SegmentsApart q p ∨ SegmentsApart p q →
      p.place base + i < q.place base ∨ q.place base + q.pMemsz.toNat ≤ p.place base + i := by
    intro q hq
    have hx : ¬ ((q.pVaddr.toNat ≤ p.pVaddr.toNat + i ∧
        p.pVaddr.toNat + i < q.pVaddr.toNat + q.pMemsz.toNat) ∧
        (p.pVaddr.toNat ≤ p.pVaddr.toNat + i ∧
          p.pVaddr.toNat + i < p.pVaddr.toNat + p.pMemsz.toNat)) := by
      rcases hq with hq | hq
      · exact hq _
      · exact fun h => hq _ h.symm
    unfold Elf64Phdr.place
    omega
  rw [image, hsplit, foldl_append, foldl_cons, foldl_store_outside
    (fun q hq => hsegments q (by simp [hq])) fun q hq => hout q (.inr (hafter q hq))]
  have hzero : before.foldl (fun c p => store c (p.place base)
      (slice file p.pOffset.toNat p.pFilesz.toNat)) (fun _ => 0#8) (p.place base + i) = 0#8 :=
    foldl_store_outside (fun q hq => hsegments q (by simp [hq]))
      fun q hq => hout q (.inl (hbefore q hq p mem_cons_self))
  unfold segmentByte
  split_ifs with hfile
  · have hinside := hseg.inFile
    have hlt : p.pOffset.toNat + i < file.length := by omega
    unfold store
    rw [if_pos (by omega), Nat.add_sub_cancel_left, slice, getElem?_take_of_lt hfile,
      getElem?_drop, List.getElem?_eq_getElem hlt, getD_some,
      getD_eq_getElem _ _ hlt]
  · rw [store_outside (.inr (by rw [hseg.length_slice]; omega)), hzero]

end Image

/-! ## The loop -/

section Copy

variable {m : Machine N} {f : ElfFile} {s : LoadState N} {c : ℕ → BitVec 8}

theorem copyOut_holds (h : Holds m s.memory c) {bytes : List (BitVec 8)} {offset b : BitVec 64}
    (hbytes : f.bytes offset bytes.length = some bytes) (hend : b.toNat + bytes.length ≤ 2 ^ 47)
    (hfound : ∀ i < bytes.length,
      (mmapSearchRegion s.memory.table.mmapRegionRoot (b.toNat + i)).isSome) :
    ∃ t, copyOut m f bytes.length offset b s = (true, t) ∧
      Holds m t.memory (store c b.toNat bytes) ∧
      t.memory.table.toRegionMap = s.memory.table.toRegionMap ∧ t.atPhdr = s.atPhdr := by
  induction bytes generalizing s offset b c with
  | nil => exact ⟨s, rfl, by rwa [store_empty], rfl, rfl⟩
  | cons x bytes ih =>
    rw [length_cons] at hbytes hend hfound ⊢
    obtain ⟨y, hy, hrest⟩ := bind_eq_some_iff.mp hbytes
    obtain ⟨l, hl, heq⟩ := map_eq_some_iff.mp hrest
    obtain ⟨rfl, rfl⟩ := cons.inj heq
    have hb : UserAddress b := by
      unfold UserAddress
      omega
    have hnext : (b + 1#64).toNat = b.toNat + 1 := by
      rw [toNat_add, show (1#64).toNat = 1 from rfl, Nat.mod_eq_of_lt (by omega)]
    obtain ⟨memory, hstore, heffect⟩ : ∃ memory, s.memory.storeByte m b y = .done memory ∧
        StoreEffect m s.memory b y memory :=
      storeByte_effect h.plain hb.canonical (m.upperHalf b hb) (.inr (hfound 0 (Nat.succ_pos _)))
    have hfound' : ∀ i < l.length,
        (mmapSearchRegion memory.table.mmapRegionRoot ((b + 1#64).toNat + i)).isSome := by
      intro i hi
      have hi' := hfound (i + 1) (Nat.succ_lt_succ hi)
      rwa [hnext, heffect.regions, add_assoc, add_comm 1 i]
    obtain ⟨t, hcopy, hholds, hregions, hphdr⟩ := ih
      (s := { s with memory := memory, stores := s.stores ++ [b] }) (b := b + 1#64)
      (h.store hb heffect) hl (by omega) hfound'
    refine ⟨t, ?_, ?_, hregions.trans heffect.regions, hphdr⟩
    · rw [copyOut, hy]
      dsimp only
      rw [hstore]
      exact hcopy
    · rwa [store_cons, ← hnext]

end Copy

/-- **The headers that a linker makes**, for an address that is a multiple of the page size. -/
structure Loadable (file : List (BitVec 8)) (base : BitVec 64) (phdrs : List Elf64Phdr) :
    Prop where
  size : file.length < 2 ^ 63
  aligned : base.toNat % pageSize = 0
  interp : ∀ p ∈ phdrs, p.pType = elfPtInterp → p.pFilesz.toNat < 16383
  segment : ∀ p ∈ segments phdrs, Segment file base p
  ascending : (segments phdrs).Pairwise fun p q => p.pVaddr.toNat ≤ q.pVaddr.toNat
  apart : (segments phdrs).Pairwise SegmentsApart

def phdrAddress (base : BitVec 64) (phdrs : List Elf64Phdr) : BitVec 64 :=
  ((phdrs.filter fun p => p.pType = elfPtPhdr).getLast?).elim 0#64 fun p => base + p.pVaddr

structure Loading (m : Machine N) (file : List (BitVec 8)) (base : BitVec 64)
    (done : List Elf64Phdr) (s : LoadState N) : Prop where
  holds : Holds m s.memory (image file base done)
  found : ∀ p ∈ segments done, ∀ i < p.pMemsz.toNat,
    (mmapSearchRegion s.memory.table.mmapRegionRoot (p.place base + i)).isSome
  bases : ∀ r ∈ s.memory.table.regions, ∃ p ∈ segments done,
    r.base = p.place base - p.place base % 4096
  atPhdr : s.atPhdr = phdrAddress base done

section Loop

variable {m : Machine N} {file : List (BitVec 8)} {outside : BitVec 64 → Option (BitVec 8)}
  {base : BitVec 64} {done l : List Elf64Phdr} {p : Elf64Phdr} {s : LoadState N} {wantsLd : Bool}
  {object : Elf64Phdr → BitVec 64}

theorem segments_snoc_load (hp : p.pType = elfPtLoad) :
    segments (done ++ [p]) = segments done ++ [p] := by
  simp [segments, hp]

theorem segments_snoc_other (hp : p.pType ≠ elfPtLoad) :
    segments (done ++ [p]) = segments done := by
  simp [segments, hp]

theorem image_snoc_load (hp : p.pType = elfPtLoad) :
    image file base (done ++ [p]) = store (image file base done) (p.place base)
      (slice file p.pOffset.toNat p.pFilesz.toNat) := by
  rw [image, segments_snoc_load hp, foldl_append]
  rfl

theorem phdrAddress_snoc_other (hp : p.pType ≠ elfPtPhdr) :
    phdrAddress base (done ++ [p]) = phdrAddress base done := by
  simp [phdrAddress, hp]

theorem phdrAddress_snoc_phdr (hp : p.pType = elfPtPhdr) :
    phdrAddress base (done ++ [p]) = base + p.pVaddr := by
  simp [phdrAddress, hp]

theorem Loading.other (h : Loading m file base done s) (hp : p.pType ≠ elfPtLoad)
    {t : LoadState N} (hmemory : t.memory = s.memory)
    (hphdr : t.atPhdr = phdrAddress base (done ++ [p])) :
    Loading m file base (done ++ [p]) t := by
  have himage : image file base (done ++ [p]) = image file base done := by
    rw [image, segments_snoc_other hp]
    rfl
  refine ⟨?_, ?_, ?_, hphdr⟩
  · rw [himage, hmemory]
    exact h.holds
  · rw [segments_snoc_other hp, hmemory]
    exact h.found
  · rw [segments_snoc_other hp, hmemory]
    exact h.bases

theorem Loadable.last (hload : Loadable file base (done ++ [p])) (hp : p.pType = elfPtLoad) :
    Segment file base p ∧ ∀ q ∈ segments done, q.pVaddr.toNat ≤ p.pVaddr.toNat := by
  have hsegment := hload.segment
  have hascending := hload.ascending
  rw [segments_snoc_load hp] at hsegment hascending
  refine ⟨hsegment p (by simp), fun q hq => ?_⟩
  exact (pairwise_append.mp hascending).2.2 q hq p (mem_singleton_self p)

theorem found_mapSegment {t : RegionMap} {a : ℕ} (h : (mmapSearchRegion t.mmapRegionRoot a).isSome)
    (p : Elf64Phdr) : (mmapSearchRegion (mapSegment base p t).mmapRegionRoot a).isSome := by
  obtain ⟨r, hr⟩ := isSome_iff_exists.mp h
  rw [mapSegment_eq]
  split_ifs
  · exact isSome_of_eq_some (SearchTree.search_insert_of_some hr)
  · exact h

theorem Loading.mapped_found (h : Loading m file base done s)
    (hload : Loadable file base (done ++ [p])) (hp : p.pType = elfPtLoad) :
    ∀ q ∈ segments (done ++ [p]), ∀ i < q.pMemsz.toNat,
      (mmapSearchRegion (s.mapped base p).memory.table.mmapRegionRoot
        (q.place base + i)).isSome := by
  obtain ⟨hseg, hlast⟩ := hload.last hp
  intro q hq i hi
  rw [segments_snoc_load hp, mem_append, mem_singleton] at hq
  change (mmapSearchRegion (mapSegment base p s.memory.table.toRegionMap).mmapRegionRoot _).isSome
  rcases hq with hq | rfl
  · exact found_mapSegment (h.found q hq i hi) p
  · obtain ⟨hvalid, hle, hstop⟩ := hseg.placed.region_stop hload.aligned (Nat.zero_lt_of_lt hi)
      (le_of_lt hi)
    rw [mapSegment_eq, if_pos hvalid]
    refine SearchTree.search_insert_last (fun r hr => ?_) hle (decide_eq_true ⟨hle, hstop⟩)
    -- The regions before begin at the pages of segments below.
    obtain ⟨o, ho, hbase⟩ := h.bases r hr
    have hbelow := hlast o ho
    have hplace : o.place base ≤ q.place base := Nat.add_le_add_right hbelow _
    rw [(hseg.placed.region_base hload.aligned).1]
    omega

theorem Loading.mapped_bases (h : Loading m file base done s)
    (hload : Loadable file base (done ++ [p])) (hp : p.pType = elfPtLoad) :
    ∀ r ∈ (s.mapped base p).memory.table.regions, ∃ q ∈ segments (done ++ [p]),
      r.base = q.place base - q.place base % 4096 := by
  intro r hr
  rw [segments_snoc_load hp]
  change r ∈ (mapSegment base p s.memory.table.toRegionMap).regions at hr
  have hnew : r = segmentRegion base p ∨ r ∈ s.memory.table.regions := by
    rw [mapSegment_eq] at hr
    split_ifs at hr
    · exact SearchTree.mem_inorder_insert.mp hr
    · exact .inr hr
  rcases hnew with rfl | hold
  · exact ⟨p, by simp, ((hload.last hp).1.placed.region_base hload.aligned).1⟩
  · obtain ⟨q, hq, hbase⟩ := h.bases r hold
    exact ⟨q, by simp [hq], hbase⟩

variable (outside wantsLd object)

section

variable (h : Loading m file base done s) (hload : Loadable file base (done ++ [p]))

include h hload

theorem Loading.load (hp : p.pType = elfPtLoad) :
    ∃ t, loadPhdr m (.ofList file outside) base wantsLd object p s = (true, t) ∧
      Loading m file base (done ++ [p]) t := by
  obtain ⟨hseg, -⟩ := hload.last hp
  have hfilesz := hseg.filesz
  have hhigh := hseg.high
  have hlength := hseg.length_slice
  have hmapped : Holds m (s.mapped base p).memory (image file base done) :=
    ⟨h.holds.plain.mapSegment base p, h.holds.frame, h.holds.byte, h.holds.zero⟩
  have hfound := h.mapped_found hload hp
  have hmem : p ∈ segments (done ++ [p]) := by
    rw [segments_snoc_load hp]
    exact mem_append_right _ (mem_singleton_self p)
  have hbytes : (ElfFile.ofList file outside).bytes p.pOffset
      (slice file p.pOffset.toNat p.pFilesz.toNat).length =
        some (slice file p.pOffset.toNat p.pFilesz.toNat) := by
    rw [hlength]
    exact bytes_ofList hload.size hseg.inFile
  obtain ⟨t, hcopy, hholds, hregions, hphdr⟩ := copyOut_holds (b := p.start base) hmapped hbytes
    (by rw [hseg.placed.start_toNat]; omega) fun i hi => by
      rw [hseg.placed.start_toNat]
      exact hfound p hmem i (by omega)
  rw [hlength] at hcopy
  have hinterp : p.pType ≠ elfPtInterp := by
    rw [hp]
    decide
  have hother : p.pType ≠ elfPtPhdr := by
    rw [hp]
    decide
  refine ⟨t, ?_, ?_, ?_, ?_, ?_⟩
  · rw [loadPhdr, if_neg hinterp, if_neg hother, if_pos hp, readCount_inside hload.size hseg.inFile]
    exact hcopy
  · rw [image_snoc_load hp, ← hseg.placed.start_toNat]
    exact hholds
  · rw [hregions]
    exact hfound
  · rw [hregions]
    exact h.mapped_bases hload hp
  · rw [hphdr, phdrAddress_snoc_other hother]
    exact h.atPhdr

theorem Loading.interp (hp : p.pType = elfPtInterp) :
    ((loadPhdr m (.ofList file outside) base wantsLd object p s).1 = true →
        Loading m file base (done ++ [p])
          (loadPhdr m (.ofList file outside) base wantsLd object p s).2) ∧
      (p.pOffset.toNat + p.pFilesz.toNat ≤ file.length →
        (loadPhdr m (.ofList file outside) base wantsLd object p s).1 = true) := by
  have hload' : p.pType ≠ elfPtLoad := by
    rw [hp]
    decide
  have hother : p.pType ≠ elfPtPhdr := by
    rw [hp]
    decide
  have hkept : s.atPhdr = phdrAddress base (done ++ [p]) := by
    rw [phdrAddress_snoc_other hother]
    exact h.atPhdr
  rw [loadPhdr]
  split_ifs
  · obtain ⟨size, hsize, hfits⟩ := interp_object (.ofList file outside)
      (hload.interp p (by simp) hp)
    unfold readInterp
    rw [hsize]
    dsimp only
    rw [if_pos hfits]
    constructor
    · cases (ElfFile.ofList file outside).bytes p.pOffset
        ((ElfFile.ofList file outside).readCount p.pOffset p.pFilesz) with
      | none => exact fun hfalse => absurd hfalse Bool.noConfusion
      | some path => exact fun _ => h.other hload' rfl hkept
    · intro hinside
      rw [readCount_inside hload.size hinside, bytes_ofList hload.size hinside]
  · exact ⟨fun _ => h.other hload' rfl hkept, fun _ => rfl⟩

theorem Loading.step : ((loadPhdr m (.ofList file outside) base wantsLd object p s).1 = true →
        Loading m file base (done ++ [p])
          (loadPhdr m (.ofList file outside) base wantsLd object p s).2) ∧
      ((p.pType = elfPtInterp → p.pOffset.toNat + p.pFilesz.toNat ≤ file.length) →
        (loadPhdr m (.ofList file outside) base wantsLd object p s).1 = true) := by
  rcases eq_or_ne p.pType elfPtInterp with hinterp | hinterp
  · obtain ⟨hkept, hreturns⟩ := h.interp outside wantsLd object hload hinterp
    exact ⟨hkept, fun hinside => hreturns (hinside hinterp)⟩
  rcases eq_or_ne p.pType elfPtLoad with hp | hp
  · obtain ⟨t, hcall, hkept⟩ := h.load outside wantsLd object hload hp
    rw [hcall]
    exact ⟨fun _ => hkept, fun _ => rfl⟩
  rcases eq_or_ne p.pType elfPtPhdr with hphdr | hphdr
  · rw [loadPhdr, if_neg hinterp, if_pos hphdr]
    exact ⟨fun _ => h.other hp rfl (phdrAddress_snoc_phdr hphdr).symm, fun _ => rfl⟩
  · rw [loadPhdr, if_neg hinterp, if_neg hphdr, if_neg hp]
    refine ⟨fun _ => h.other hp rfl ?_, fun _ => rfl⟩
    rw [phdrAddress_snoc_other hphdr]
    exact h.atPhdr

end

theorem Loadable.of_append (h : Loadable file base (done ++ l)) : Loadable file base done := by
  have hsegments : segments (done ++ l) = segments done ++ segments l := filter_append ..
  refine ⟨h.size, h.aligned, fun p hp => h.interp p (mem_append_left _ hp), fun p hp => ?_,
    ?_, ?_⟩
  · exact h.segment p (hsegments ▸ mem_append_left _ hp)
  · exact (pairwise_append.mp (hsegments ▸ h.ascending)).1
  · exact (pairwise_append.mp (hsegments ▸ h.apart)).1

theorem Loading.run (h : Loading m file base done s) (hload : Loadable file base (done ++ l)) :
    ((loadPhdrs m (.ofList file outside) base wantsLd object l s).1 = true →
        Loading m file base (done ++ l)
          (loadPhdrs m (.ofList file outside) base wantsLd object l s).2) ∧
      ((∀ p ∈ l, p.pType = elfPtInterp → p.pOffset.toNat + p.pFilesz.toNat ≤ file.length) →
        (loadPhdrs m (.ofList file outside) base wantsLd object l s).1 = true) := by
  induction l generalizing done s with
  | nil =>
    rw [append_nil]
    exact ⟨fun _ => h, fun _ => rfl⟩
  | cons p l ih =>
    rw [append_cons] at hload ⊢
    obtain ⟨hkept, hreturns⟩ := h.step outside wantsLd object hload.of_append
    rw [loadPhdrs]
    split_ifs with hstep
    · obtain ⟨hrun, hend⟩ := ih (hkept hstep) hload
      exact ⟨hrun, fun hinside => hend fun q hq => hinside q (mem_cons_of_mem _ hq)⟩
    · refine ⟨fun hfalse => absurd hfalse hstep, fun hinside => ?_⟩
      exact absurd (hreturns (hinside p mem_cons_self)) hstep

end Loop

/-! ## The program headers -/

def headersIn (file : List (BitVec 8)) (hdr : ElfHdr) : List Elf64Phdr :=
  (List.range hdr.phNum).map fun i =>
    elf64Phdr (file.drop (hdr.phoff.toNat + elf64PhdrSize * i))

section Headers

variable {file : List (BitVec 8)} {outside : BitVec 64 → Option (BitVec 8)} {hdr : ElfHdr}

theorem recordField_congr {l l' : List (BitVec 8)} {n offset width : ℕ} (h : l.take n = l'.take n)
    (hn : offset + width ≤ n) : recordField l offset width = recordField l' offset width := by
  have hfield : ∀ k : List (BitVec 8),
      (k.drop offset).take width = ((k.take n).drop offset).take width := by
    intro k
    rw [drop_take, take_take, min_eq_left (by omega)]
  rw [recordField, recordField, hfield l, hfield l', h]

theorem elf64Phdr_congr {l l' : List (BitVec 8)} (h : l.take 56 = l'.take 56) :
    elf64Phdr l = elf64Phdr l' := by
  unfold elf64Phdr
  rw [recordField_congr h (by decide), recordField_congr h (by decide),
    recordField_congr h (by decide), recordField_congr h (by decide),
    recordField_congr h (by decide)]

theorem programHeaders_inside (hsize : file.length < 2 ^ 63) (hnum : hdr.phNum ≤ 292)
    (hinside : hdr.phoff.toNat + elf64PhdrSize * hdr.phNum ≤ file.length) :
    (ElfFile.ofList file outside).programHeaders hdr = some (headersIn file hdr) := by
  have hinside : hdr.phoff.toNat + 56 * hdr.phNum ≤ file.length := hinside
  have hcnt : (BitVec.ofNat 64 (elf64PhdrSize * hdr.phNum)).toNat = 56 * hdr.phNum := by
    rw [toNat_ofNat]
    exact Nat.mod_eq_of_lt (show 56 * hdr.phNum < 2 ^ 64 by omega)
  have hobject : ¬ (hdr.phNum ≠ 0 ∧ allocSize (56 * hdr.phNum) = none) := by
    rintro ⟨hne, hnone⟩
    obtain ⟨c, hc, -⟩ : ∃ c, allocSize (56 * hdr.phNum) = some c ∧ 56 * hdr.phNum < c :=
      allocSize_spec (by omega) (by omega)
    rw [hnone] at hc
    simp at hc
  have hlength : (slice file hdr.phoff.toNat (56 * hdr.phNum)).length = 56 * hdr.phNum := by
    rw [slice, length_take, length_drop]
    omega
  rw [ElfFile.programHeaders, if_neg hobject, ElfFile.read,
    readCount_inside hsize (by omega), bytes_ofList hsize (by omega), hcnt, map_some,
    hlength, Nat.sub_self, List.replicate_zero, append_nil]
  refine congrArg some (map_congr_left fun i hi => elf64Phdr_congr ?_)
  have hi := mem_range.mp hi
  rw [slice, drop_take, take_take, drop_drop, Nat.min_eq_left]
  change 56 ≤ 56 * hdr.phNum - 56 * i
  omega

end Headers

/-! ## The task reads the image -/

section Reads

variable {m : Machine N} {s : TaskMemory N} {file : List (BitVec 8)} {base : BitVec 64}
  {phdrs : List Elf64Phdr}

def byteAddress (base : BitVec 64) (x : Elf64Phdr × ℕ) : BitVec 64 :=
  x.1.start base + BitVec.ofNat 64 x.2

theorem loadBytes_segments (h : Holds m s (image file base phdrs))
    (hfound : ∀ p ∈ segments phdrs, ∀ i < p.pMemsz.toNat,
      (mmapSearchRegion s.table.mmapRegionRoot (p.place base + i)).isSome)
    (hsegments : ∀ p ∈ segments phdrs, Segment file base p)
    (hapart : (segments phdrs).Pairwise SegmentsApart) {l : List (Elf64Phdr × ℕ)}
    (hl : ∀ x ∈ l, x.1 ∈ segments phdrs ∧ x.2 < x.1.pMemsz.toNat) :
    ∃ t, TaskMemory.loadBytes m (l.map (byteAddress base)) s =
      some (l.map fun x => segmentByte file x.1 x.2, t) := by
  induction l generalizing s with
  | nil => exact ⟨s, rfl⟩
  | cons x l ih =>
    obtain ⟨hp, hi⟩ := hl x mem_cons_self
    have hseg := hsegments x.1 hp
    have hhigh := hseg.high
    have haddress : (byteAddress base x).toNat = x.1.place base + x.2 := by
      rw [byteAddress, toNat_add, hseg.placed.start_toNat, toNat_ofNat,
        Nat.mod_eq_of_lt (a := x.2) (by omega), Nat.mod_eq_of_lt (by omega)]
    have huser : UserAddress (byteAddress base x) := by
      unfold UserAddress
      omega
    have hreach : s.Reachable (byteAddress base x) := by
      refine .inr ?_
      rw [haddress]
      exact hfound x.1 hp x.2 hi
    obtain ⟨t, hload, hholds, hroot⟩ := h.load huser hreach
    obtain ⟨u, hu⟩ := ih hholds (hroot ▸ hfound) fun y hy => hl y (mem_cons_of_mem _ hy)
    refine ⟨u, ?_⟩
    rw [haddress, image_segment hsegments hapart hp hi] at hload
    rw [map_cons, TaskMemory.loadBytes, hload, bind_some, hu]
    rfl

theorem phdrAddress_spec (base : BitVec 64)
    (hone : (phdrs.filter fun p => p.pType = elfPtPhdr).length ≤ 1) :
    (∀ p ∈ phdrs, p.pType = elfPtPhdr → phdrAddress base phdrs = base + p.pVaddr) ∧
      ((∀ p ∈ phdrs, p.pType ≠ elfPtPhdr) → phdrAddress base phdrs = 0#64) := by
  unfold phdrAddress
  constructor
  · intro p hp htype
    have hmem : p ∈ phdrs.filter fun p => p.pType = elfPtPhdr :=
      mem_filter.mpr ⟨hp, decide_eq_true htype⟩
    obtain ⟨q, hq⟩ := length_eq_one_iff.mp (le_antisymm hone (length_pos_of_mem hmem))
    rw [hq, mem_singleton] at hmem
    rw [hq, hmem]
    rfl
  · intro hnone
    have hnil : (phdrs.filter fun p => p.pType = elfPtPhdr) = [] :=
      filter_eq_nil_iff.mpr fun p hp => by simpa using hnone p hp
    rw [hnil]
    rfl

end Reads

/-! ## A file -/

def firstSegment : Elf64Phdr := ⟨elfPtLoad, 0#64, 0x1000#64, 1#64, 1#64⟩

def secondSegment : Elf64Phdr := ⟨elfPtLoad, 1#64, 0x1003#64, 2#64, 3#64⟩

def sharedPage : List (BitVec 8) :=
  fileHeader 2 ++ phdrBytes firstSegment ++ phdrBytes secondSegment

def sharedPageHdr : ElfHdr := ⟨elfSignature, 2, 1, 0, elfMachX8664, 0x1000#64, 64#64, 2⟩

theorem headersIn_sharedPage :
    headersIn sharedPage sharedPageHdr = [firstSegment, secondSegment] := by decide +kernel

theorem loadable_sharedPage : Loadable sharedPage 0#64 (headersIn sharedPage sharedPageHdr) := by
  have hsize : sharedPage.length = 176 := by decide +kernel
  have hsegments : segments [firstSegment, secondSegment] = [firstSegment, secondSegment] := rfl
  rw [headersIn_sharedPage]
  refine ⟨?_, rfl, ?_, ?_, ?_, ?_⟩
  · rw [hsize]
    decide
  · decide
  · intro p hp
    rcases mem_pair.mp hp with rfl | rfl
    · exact ⟨by decide, by rw [hsize]; decide, by decide, by decide⟩
    · exact ⟨by decide, by rw [hsize]; decide, by decide, by decide⟩
  · decide
  · rw [hsegments, pairwise_pair]
    rintro x ⟨⟨-, hfirst⟩, hsecond, -⟩
    have hlt : x < 0x1001 := hfirst
    have hle : 0x1003 ≤ x := hsecond
    omega

end Pastoral
