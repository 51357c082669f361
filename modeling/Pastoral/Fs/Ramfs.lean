import Pastoral.Fs.ByteBounds
import Pastoral.Fs.Vfs
import Pastoral.Lib.Hash
import Pastoral.Mm.Alloc

/-!
# Files in memory

`ramfs.c`: a file is an asset whose inode number leads, through the hash table `ramfs_node_list`, to
a handle, and the handle has the buffer.

## Main definitions

* `ramfsRead`, `ramfsWrite`, `ramfsResize`
* `Shows`: the bytes of a handle
-/

open Function List Option Padded Probe

namespace Pastoral

/-! ## State -/

structure RamfsHandle where
  inode : BitVec 64
  buffer : Option Pointer
  deriving DecidableEq, Repr

structure RamfsState where
  vfs : VfsState
  nodeList : HashTable (BitVec 64) ℕ
  inodeCnt : BitVec 64
  handles : ℕ → RamfsHandle
  handleCnt : ℕ
  heap : Memory

def inodeHash (inode : BitVec 64) : BitVec 64 :=
  fnvHash ((List.range 8).map fun i => (inode >>> (8 * i)).setWidth 8)

/-- No more handles than slots of a table whose number of slots is an `int`. -/
def handleLimit : ℕ := 2 ^ 30

def RamfsState.find (s : RamfsState) (asset : ℕ) : Option ℕ :=
  hashTableSearch inodeHash s.nodeList (s.vfs.assets asset).stIno

def RamfsState.addHandle (s : RamfsState) (buffer : Option Pointer) : Option RamfsState :=
  if s.handleCnt < handleLimit then
    some { s with
      nodeList := hashTablePush inodeHash s.nodeList s.inodeCnt s.handleCnt
      inodeCnt := s.inodeCnt + 1
      handles := update s.handles s.handleCnt ⟨s.inodeCnt, buffer⟩
      handleCnt := s.handleCnt + 1 }
  else none

def RamfsState.setSize (s : RamfsState) (asset : ℕ) (size : ℤ) : RamfsState :=
  { s with
    vfs := { s.vfs with
      assets := update s.vfs.assets asset
        { s.vfs.assets asset with stSize := size } } }

def RamfsState.setBuffer (s : RamfsState) (handle : ℕ) (buffer : Option Pointer) (heap : Memory) :
    RamfsState :=
  { s with
    handles := update s.handles handle { s.handles handle with buffer := buffer }
    heap := heap }

def RamfsState.reallocBuffer (s : RamfsState) (handle size : ℕ) : Option RamfsState :=
  (realloc (s.handles handle).buffer size s.heap).map fun r => s.setBuffer handle r.1 r.2

/-! ## Calls -/

def ramfsCreate (parent : ℕ) (name : Name) (mode : BitVec 32) (s : RamfsState) :
    Option (ℕ × RamfsState) :=
  (s.addHandle none).map fun s' =>
    (s.vfs.nodeCnt,
      { s' with
        vfs := vfsCreateNode parent s.vfs.assetCnt (s.vfs.nodes parent).filesystem name false
          (s.vfs.allocAsset ⟨mode, s.inodeCnt, 0, true⟩) })

def ramfsRead (s : RamfsState) (asset : ℕ) (offset cnt : ℤ) : Option (List (BitVec 8)) :=
  match s.find asset with
  | none => some []
  | some handle =>
    let size := (s.vfs.assets asset).stSize
    if offset > size then some []
    else
      s.heap.load (s.handles handle).buffer offset (clip size offset cnt)

def ramfsWrite (s : RamfsState) (asset : ℕ) (offset : ℤ) (buf : List (BitVec 8)) :
    Option (ℤ × RamfsState) :=
  match s.find asset with
  | none => some (0, s)
  | some handle =>
    let grown :=
      if offset + buf.length > (s.vfs.assets asset).stSize then
        (s.setSize asset (offset + buf.length)).reallocBuffer handle (sizeT (offset + buf.length))
      else some s
    grown.bind fun s' =>
      (s'.heap.store (s'.handles handle).buffer offset buf).map fun heap =>
        (buf.length, { s' with heap := heap })

def ramfsResize (s : RamfsState) (asset : ℕ) (cnt : ℤ) : Option (ℤ × RamfsState) :=
  match s.find asset with
  | none => some (-1, s)
  | some handle =>
    ((s.setSize asset cnt).reallocBuffer handle (sizeT cnt)).map fun s' => (cnt.bmod (2 ^ 32), s')

/-! ## Buffers -/

def HoldsFile (h : Memory) (buffer : Option Pointer) (file : List (BitVec 8)) : Prop :=
  match buffer with
  | none => file = []
  | some p => p.block < h.blockCnt ∧ ((h.blocks p.block).slab = true → p.offset = 0) ∧
      p.offset ≤ (h.blocks p.block).bytes.length ∧ file <+: (h.blocks p.block).bytes.drop p.offset

def CanGrow (h : Memory) (buffer : Option Pointer) (size upto : ℕ) : Prop :=
  ∀ p ∈ buffer,
    if (h.blocks p.block).slab then
      ∀ i < upto, size ≤ i → (h.blocks p.block).bytes.getD i 0#8 = 0#8
    else size = 0

instance (h : Memory) (buffer : Option Pointer) (size upto : ℕ) :
    Decidable (CanGrow h buffer size upto) :=
  match buffer with
  | none => isTrue nofun
  | some p => decidable_of_iff
      (if (h.blocks p.block).slab then
        ∀ i < upto, size ≤ i → (h.blocks p.block).bytes.getD i 0#8 = 0#8
      else size = 0) (by simp [CanGrow])

section Buffers

variable {h h' : Memory} {buffer : Option Pointer} {p : Pointer} {file : List (BitVec 8)}
  {off upto : ℕ}

theorem HoldsFile.load (hfile : HoldsFile h buffer file) (off cnt : ℕ)
    (hle : off + cnt ≤ file.length) :
    h.load buffer off cnt = some (slice file off cnt) := by
  cases buffer with
  | none =>
    obtain rfl : file = [] := hfile
    obtain ⟨rfl, rfl⟩ : off = 0 ∧ cnt = 0 := by
      simp only [length_nil] at hle
      omega
    rfl
  | some p =>
    obtain ⟨-, -, hoff, hpre⟩ := hfile
    have hlen := hpre.length_le
    rw [length_drop] at hlen
    rw [load_inside off cnt (by omega), slice_of_prefix hpre hle]
    simp only [slice, drop_drop]

theorem HoldsFile.realloc (hfile : HoldsFile h buffer file) (size : ℕ) (hpos : 0 < size)
    (hlt : size < 16384) (hup : upto ≤ size) (hgrow : CanGrow h buffer file.length upto) :
    ∃ p h', realloc buffer size h = some (some p, h') ∧ p.offset = 0 ∧ p.block < h'.blockCnt ∧
      (h'.blocks p.block).slab = true ∧ size ≤ (h'.blocks p.block).bytes.length ∧
      pad 0#8 file upto <+: (h'.blocks p.block).bytes := by
  -- A zeroed object shows the empty file, however long it is made.
  have hfresh : file = [] → (∀ p ∈ buffer, (h.blocks p.block).slab = false) →
      ∃ p h', Pastoral.realloc buffer size h = some (some p, h') ∧ p.offset = 0 ∧
        p.block < h'.blockCnt ∧ (h'.blocks p.block).slab = true ∧
        size ≤ (h'.blocks p.block).bytes.length ∧
        pad 0#8 file upto <+: (h'.blocks p.block).bytes := by
    rintro rfl hnone
    obtain ⟨c, hc, hrealloc⟩ := realloc_fresh hpos hlt hnone
    have hnew := push_new h ⟨replicate c 0#8, true⟩
    refine ⟨_, _, hrealloc, rfl, Nat.lt_succ_self _, by rw [hnew], ?_, ?_⟩
    · rw [hnew, length_replicate]
      omega
    · rw [hnew]
      refine pad_prefix nil_prefix fun i _ hi => ?_
      rw [getElem?_replicate, if_pos (by omega)]
  cases buffer with
  | none => exact hfresh hfile nofun
  | some p =>
    obtain ⟨hblock, hslab, -, hpre⟩ := hfile
    have hcan := hgrow p rfl
    cases hkind : (h.blocks p.block).slab with
    | false =>
      rw [hkind] at hcan
      refine hfresh (length_eq_zero_iff.mp hcan) fun q hq => ?_
      rw [← some.inj hq]
      exact hkind
    | true =>
      rw [hkind] at hcan
      have hoff := hslab hkind
      rw [hoff] at hpre
      rcases realloc_object hlt hkind hoff hblock with ⟨hge, hrealloc⟩ |
        ⟨c, hc, hless, h', hrealloc, hcnt, hnew, -⟩
      · refine ⟨p, h, hrealloc, hoff, hblock, hkind, hge, pad_prefix hpre fun i hle hi => ?_⟩
        rw [getElem?_eq_getElem (by omega), ← getD_eq_getElem _ 0#8, hcan i hi hle]
      · -- The bytes of the object are at the start of the new one, which is zero behind them.
        have hbytes : (h'.blocks h.blockCnt).bytes = (h.blocks p.block).bytes ++
            replicate (c - (h.blocks p.block).bytes.length) 0#8 := by
          rw [hnew]
          simp [splice]
        refine ⟨_, h', hrealloc, rfl, hcnt ▸ Nat.lt_succ_self _, by rw [hnew], ?_, ?_⟩
        · rw [hbytes, length_append, length_replicate]
          omega
        · rw [hbytes]
          refine pad_prefix (hpre.trans (prefix_append _ _)) fun i hle hi => ?_
          by_cases hin : i < (h.blocks p.block).bytes.length
          · rw [getElem?_append_left hin, getElem?_eq_getElem hin,
              ← getD_eq_getElem _ 0#8, hcan i hi hle]
          · rw [getElem?_append_right (by omega), getElem?_replicate, if_pos (by omega)]

theorem store_holds (data : List (BitVec 8)) (hblock : p.block < h.blockCnt)
    (hslab : (h.blocks p.block).slab = true → p.offset = 0)
    (hpre : pad 0#8 file off <+: (h.blocks p.block).bytes.drop p.offset)
    (hle : p.offset + off + data.length ≤ (h.blocks p.block).bytes.length) :
    ∃ h', h.store (some p) off data = some h' ∧
      HoldsFile h' (some p) (overlay 0#8 file off data) := by
  obtain ⟨h', hstore, hcnt, hnew, -⟩ := store_inside off hle
  refine ⟨h', hstore, by rw [hcnt]; exact hblock, ?_, ?_, ?_⟩
  · rw [hnew]
    exact hslab
  · rw [hnew]
    rw [length_splice hle]
    omega
  · rw [hnew]
    rw [drop_splice (by omega)]
    exact overlay_prefix hpre

end Buffers

/-! ## A file and its array -/

structure Shows (s : RamfsState) (asset handle : ℕ) (file : List (BitVec 8)) : Prop where
  found : s.find asset = some handle
  size : (s.vfs.assets asset).stSize = file.length
  buffer : HoldsFile s.heap (s.handles handle).buffer file

section Calls

variable {s s' : RamfsState} {asset handle : ℕ} {file : List (BitVec 8)}

theorem find_setSize (s : RamfsState) (asset : ℕ) (size : ℤ) :
    (s.setSize asset size).find asset = s.find asset := by
  unfold RamfsState.find RamfsState.setSize
  dsimp only
  rw [update_self]

theorem size_setSize (s : RamfsState) (asset : ℕ) (size : ℤ) :
    ((s.setSize asset size).vfs.assets asset).stSize = size := by
  unfold RamfsState.setSize
  dsimp only
  rw [update_self]

theorem reallocBuffer_eq {buffer : Option Pointer} {heap : Memory} {size : ℕ}
    (h : realloc (s.handles handle).buffer size s.heap = some (buffer, heap)) :
    s.reallocBuffer handle size = some (s.setBuffer handle buffer heap) := by
  rw [RamfsState.reallocBuffer, h]
  rfl

theorem buffer_setBuffer (s : RamfsState) (handle : ℕ) (buffer : Option Pointer) (heap : Memory) :
    ((s.setBuffer handle buffer heap).handles handle).buffer = buffer := by
  unfold RamfsState.setBuffer
  dsimp only
  rw [update_self]

theorem shows_set {buffer : Option Pointer} {heap : Memory} (hfind : s.find asset = some handle)
    (hholds : HoldsFile heap buffer file) {size : ℤ} (hsize : size = file.length) :
    Shows ((s.setSize asset size).setBuffer handle buffer heap) asset handle file := by
  refine ⟨(find_setSize s asset size).trans hfind, (size_setSize s asset size).trans hsize, ?_⟩
  rw [buffer_setBuffer]
  exact hholds

theorem ramfsRead_congr {asset' : ℕ} (hfind : s'.find asset' = s.find asset)
    (hsize : (s'.vfs.assets asset').stSize = (s.vfs.assets asset).stSize)
    (hload : ∀ k, s.find asset = some k → ∀ off len : ℕ,
      (off : ℤ) + len ≤ (s.vfs.assets asset).stSize →
        s'.heap.load (s'.handles k).buffer off len = s.heap.load (s.handles k).buffer off len)
    {off cnt : ℕ} (hend : off + cnt < 2 ^ 63) :
    ramfsRead s' asset' off cnt = ramfsRead s asset off cnt := by
  unfold ramfsRead
  rw [hfind, hsize]
  cases hk : s.find asset with
  | none => rfl
  | some k =>
    dsimp only
    split_ifs with hbehind
    · rfl
    rw [clip_eq (by omega) (by omega) (by omega) (by omega)]
    split_ifs with hlong
    · have hlen : ((s.vfs.assets asset).stSize - off).toNat = (s.vfs.assets asset).stSize - off := by
        omega
      rw [← hlen]
      exact hload k hk off _ (by omega)
    · exact hload k hk off cnt (by omega)

theorem Shows.read (h : Shows s asset handle file) {off cnt : ℕ} (hend : off + cnt < 2 ^ 63) :
    ramfsRead s asset off cnt = some (slice file off cnt) := by
  unfold ramfsRead
  rw [h.found]
  dsimp only
  rw [h.size]
  split_ifs with hbehind
  · rw [slice, drop_eq_nil_of_le (by omega), take_nil]
  rw [clip_eq (by omega) (by omega) (by omega) (by omega)]
  split_ifs with hlong
  · -- The count is clipped to the end of the file.
    have hload := h.buffer.load off (file.length - off) (by omega)
    have hclip : slice file off (file.length - off) = slice file off cnt := by
      rw [← slice_min cnt, Nat.min_eq_right (by omega)]
    rw [show (file.length : ℤ) - off = (file.length - off : ℕ) by omega, hload, hclip]
  · exact h.buffer.load off cnt (by omega)

theorem Shows.write_inside (h : Shows s asset handle file) {off : ℕ} {data : List (BitVec 8)}
    (hle : off + data.length ≤ file.length) :
    ∃ s', ramfsWrite s asset off data = some ((data.length : ℤ), s') ∧
      Shows s' asset handle (overlay 0#8 file off data) := by
  have hlen : (overlay 0#8 file off data).length = file.length := by
    rw [length_overlay]
    omega
  have hstored : ∃ heap, s.heap.store (s.handles handle).buffer off data = some heap ∧
      HoldsFile heap (s.handles handle).buffer (overlay 0#8 file off data) := by
    have hbuffer := h.buffer
    cases hp : (s.handles handle).buffer with
    | none =>
      rw [hp] at hbuffer
      obtain rfl : file = [] := hbuffer
      obtain ⟨rfl, hnil⟩ : off = 0 ∧ data.length = 0 := by
        simp only [length_nil] at hle
        omega
      obtain rfl := length_eq_zero_iff.mp hnil
      exact ⟨s.heap, rfl, rfl⟩
    | some p =>
      rw [hp] at hbuffer
      obtain ⟨hblock, hslab, hoff, hpre⟩ := hbuffer
      have hfit := hpre.length_le
      rw [length_drop] at hfit
      refine store_holds data hblock hslab ?_ (by omega)
      rw [pad_of_le (by omega)]
      exact hpre
  obtain ⟨heap, hstore, hholds⟩ := hstored
  refine ⟨{ s with heap := heap }, ?_, h.found, ?_, hholds⟩
  · unfold ramfsWrite
    rw [h.found]
    dsimp only
    rw [h.size, if_neg (by omega), bind_some, hstore]
    rfl
  · rw [hlen]
    exact h.size

theorem Shows.write (h : Shows s asset handle file) {off : ℕ} {data : List (BitVec 8)}
    (hsmall : off + data.length < 16384)
    (hgrow : file.length < off + data.length →
      CanGrow s.heap (s.handles handle).buffer file.length off) :
    ∃ s', ramfsWrite s asset off data = some ((data.length : ℤ), s') ∧
      Shows s' asset handle (overlay 0#8 file off data) := by
  by_cases hinside : off + data.length ≤ file.length
  · exact h.write_inside hinside
  have hlen : (overlay 0#8 file off data).length = off + data.length := by
    rw [length_overlay]
    omega
  obtain ⟨p, heap, hrealloc, hoff, hblock, hslab, hsize, hpre⟩ := h.buffer.realloc
    (off + data.length) (by omega) hsmall (Nat.le_add_right off _) (hgrow (by omega))
  obtain ⟨heap', hstore, hholds⟩ := store_holds data hblock (fun _ => hoff)
    (by rw [hoff]; exact hpre) (by omega)
  have hbuffer : (s.setSize asset (off + data.length)).reallocBuffer handle (off + data.length) =
      some _ := reallocBuffer_eq hrealloc
  have hcast : sizeT ((off : ℤ) + data.length) = off + data.length := by
    rw [sizeT]
    omega
  refine ⟨(s.setSize asset (off + data.length)).setBuffer handle (some p) heap', ?_,
    shows_set h.found hholds (by rw [hlen]; rfl)⟩
  unfold ramfsWrite
  rw [h.found]
  dsimp only
  rw [h.size, if_pos (by omega), hcast, hbuffer, bind_some, buffer_setBuffer]
  exact congrArg (Option.map _) hstore

theorem Shows.resize (h : Shows s asset handle file) {n : ℕ} (hsmall : n < 16384)
    (hgrow : n ≠ 0 → CanGrow s.heap (s.handles handle).buffer file.length n) :
    ∃ s', ramfsResize s asset n = some ((n : ℤ), s') ∧
      Shows s' asset handle (resize 0#8 file n) := by
  -- The new buffer, for zero bytes, too.
  have hnew : ∃ buffer heap, realloc (s.handles handle).buffer n s.heap = some (buffer, heap) ∧
      HoldsFile heap buffer (Padded.resize 0#8 file n) := by
    by_cases hzero : n = 0
    · subst hzero
      refine ⟨(s.handles handle).buffer, s.heap, ?_, ?_⟩
      · cases (s.handles handle).buffer with
        | none => rfl
        | some p => exact realloc_kept (Nat.zero_le _)
      · have hbuffer := h.buffer
        cases hp : (s.handles handle).buffer with
        | none => rfl
        | some p =>
          rw [hp] at hbuffer
          exact ⟨hbuffer.1, hbuffer.2.1, hbuffer.2.2.1, nil_prefix⟩
    · obtain ⟨p, heap, hrealloc, hoff, hblock, hslab, -, hpre⟩ := h.buffer.realloc
        n (pos_of_ne_zero hzero) hsmall (le_refl n) (hgrow hzero)
      refine ⟨some p, heap, hrealloc, hblock, fun _ => hoff, by omega, ?_⟩
      rw [hoff]
      exact resize_prefix hpre
  obtain ⟨buffer, heap, hrealloc, hholds⟩ := hnew
  have hbuffer : (s.setSize asset n).reallocBuffer handle n = some _ := reallocBuffer_eq hrealloc
  have hcast : sizeT (n : ℤ) = n := by
    rw [sizeT]
    omega
  refine ⟨(s.setSize asset n).setBuffer handle buffer heap, ?_,
    shows_set h.found hholds (by rw [length_resize])⟩
  unfold ramfsResize
  rw [h.found]
  dsimp only
  rw [hcast, hbuffer, map_some, Int.bmod_eq_of_le (by omega) (by omega)]

end Calls

end Pastoral
