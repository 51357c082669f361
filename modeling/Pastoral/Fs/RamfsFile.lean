import Pastoral.Fs.Ustar

/-!
# Files as arrays

A file of ramfs as an array of bytes: a write overwrites, after zeros between the old end and its
offset, and a change of the size cuts off or adds zeros.

## Main results

* `contents_refine_array`: reads return the bytes of the array
-/

open List Option Padded Transition

namespace Pastoral

/-! ## Other files -/

section Others

variable {s s' s₁ : RamfsState} {n m k : ℕ} {file : List (BitVec 8)}

theorem HoldsFile.of_load {h : Memory} {p : Pointer} (hblock : p.block < h.blockCnt)
    (hslab : (h.blocks p.block).slab = true → p.offset = 0)
    (hoff : p.offset ≤ (h.blocks p.block).bytes.length)
    (hload : h.load (some p) 0 file.length = some file) : HoldsFile h (some p) file := by
  refine ⟨hblock, hslab, hoff, ?_⟩
  unfold Memory.load at hload
  split_ifs at hload with hzero
  · rw [← some.inj hload]
    exact nil_prefix
  · rw [bind_some] at hload
    split_ifs at hload with hin
    have hfile := some.inj hload
    rw [← hfile]
    exact take_prefix _ _

theorem HoldsFile.pushBlock {h : Memory} {buffer : Option Pointer} (hfile : HoldsFile h buffer file)
    (b : Block) : HoldsFile (h.push b) buffer file := by
  cases buffer with
  | none => exact hfile
  | some p =>
    obtain ⟨hblock, hrest⟩ := hfile
    refine ⟨Nat.lt_succ_of_lt hblock, ?_⟩
    rw [push_old h b hblock]
    exact hrest

theorem FileEffect.shows_other {asset handle : ℕ} {size' : ℤ}
    (h : FileEffect s s' asset handle size') (hinv : RamfsInv s) (hlayout : LayoutInv s)
    (hn : s.IsRamfs n) (hm : s.IsRamfs m) (hne : n ≠ m) (hasset : (s.vfs.nodes n).asset = asset)
    (hhandle : s.handleOf n = some handle) (hk : k ≠ handle)
    (hshows : Shows s (s.vfs.nodes m).asset k file) :
    Shows s' (s'.vfs.nodes m).asset k file := by
  have hdiff : (s.vfs.nodes m).asset ≠ asset := fun heq =>
    hne (hinv.asset_inj hn hm (hasset.trans heq.symm))
  have hsize := (congrArg Asset.stSize (h.assetOf_eq m)).trans (if_neg hdiff)
  refine ⟨(h.handleOf_eq m).trans hshows.found, hsize.trans hshows.size, ?_⟩
  rw [h.handles k hk]
  have hbuffer := hshows.buffer
  cases hq : (s.handles k).buffer with
  | none =>
    rw [hq] at hbuffer
    exact hbuffer
  | some q =>
    have hend : ((0 : ℕ) : ℤ) + file.length ≤ (s.assetOf m).stSize := by
      have hlength : (s.assetOf m).stSize = file.length := hshows.size
      omega
    have hload := h.load_other hinv hlayout hn hm hasset hhandle hshows.found hk hend
    rw [hbuffer.load 0 file.length (by omega), hq, slice, drop_zero, take_length] at hload
    rw [hq] at hbuffer
    obtain ⟨hblock, hslab, hoff, -⟩ := hbuffer
    have hlength : (s'.heap.blocks q.block).bytes.length = (s.heap.blocks q.block).bytes.length := by
      rcases h.memory with hplace | hmoved
      · exact hplace.length q.block
      · rw [hmoved.blocks q.block hblock]
    refine HoldsFile.of_load (lt_of_lt_of_le hblock h.blockCnt_le) ?_ ?_ hload
    · rw [h.slab_eq hblock]
      exact hslab
    · rw [hlength]
      exact hoff

def StillShows (s s' : RamfsState) (n : ℕ) : Prop :=
  ∀ k file, Shows s (s.vfs.nodes n).asset k file →
    Shows s' (s'.vfs.nodes n).asset k file ∧ (s'.handles k).buffer = (s.handles k).buffer

theorem StillShows.trans (h : StillShows s s₁ n) (h' : StillShows s₁ s' n) : StillShows s s' n := by
  intro k file hshows
  obtain ⟨hshows₁, hbuffer⟩ := h k file hshows
  obtain ⟨hshows', hbuffer'⟩ := h' k file hshows₁
  exact ⟨hshows', hbuffer'.trans hbuffer⟩

theorem NodeAdded.stillShows {buffer : Option Pointer} {a : Asset} (hadd : NodeAdded s s' buffer a)
    (hinv : RamfsInv s) (hn : n < s.vfs.nodeCnt) : StillShows s s' n := by
  intro k file hshows
  refine ⟨?_, ?_⟩
  · rw [(hadd.assetOf_old hinv hn).1]
    exact hadd.shows hinv (hinv.ok.assets n hn) hshows
  · rw [hadd.buffer_old (hinv.find_iff.mp hshows.found).1]

end Others

/-! ## Files of an archive -/

def Contained (archive : List (BitVec 8)) (address : ℕ) : ℕ → ℕ → Prop
  | 0, _ => True
  | entries + 1, header =>
    magicMatches archive (header - address) = some true →
      ∀ hd, ustarHeader archive (header - address) = some hd →
        0 ≤ (octalToDecimal hd.size).toInt ∧
          (header - address : ℕ) + 512 + (octalToDecimal hd.size).toInt ≤ archive.length ∧
          ∀ next, nextHeader header (octalToDecimal hd.size).toInt = some next →
            Contained archive address entries next

def RamfsState.bufferOf (s : RamfsState) (n : ℕ) : Option Pointer :=
  (s.handleOf n).bind fun k => (s.handles k).buffer

def RamfsState.entryBytes (s : RamfsState) (archive : List (BitVec 8)) (n : ℕ) : List (BitVec 8) :=
  match s.bufferOf n with
  | none => []
  | some p => slice archive p.offset (s.assetOf n).stSize.toNat

def InArchive (s : RamfsState) (block n : ℕ) : Prop :=
  ∃ k off file, Shows s (s.vfs.nodes n).asset k file ∧ (s.handles k).buffer = some ⟨block, off⟩

section Unpacked

variable {s s' s₁ : RamfsState} {links block address header entries n k : ℕ}
  {archive : List (BitVec 8)}

theorem Shows.bufferOf {file : List (BitVec 8)} (h : Shows s (s.vfs.nodes n).asset k file) :
    s.bufferOf n = (s.handles k).buffer := by
  rw [RamfsState.bufferOf, RamfsState.handleOf, h.found, bind_some]

theorem InArchive.still (h : InArchive s block n) (hstill : StillShows s s' n) :
    InArchive s' block n := by
  obtain ⟨k, off, file, hshows, hbuffer⟩ := h
  obtain ⟨hshows', hbuffer'⟩ := hstill k file hshows
  exact ⟨k, off, file, hshows', hbuffer'.trans hbuffer⟩

theorem InArchive.entryBytes (h : InArchive s block n)
    (hbytes : (s.heap.blocks block).bytes = archive) :
    ∃ k, Shows s (s.vfs.nodes n).asset k (s.entryBytes archive n) := by
  obtain ⟨k, off, file, hshows, hbuffer⟩ := h
  have hholds := hshows.buffer
  rw [hbuffer] at hholds
  have hsize : (s.assetOf n).stSize = file.length := hshows.size
  have hfile : s.entryBytes archive n = file := by
    rw [RamfsState.entryBytes, hshows.bufferOf, hbuffer]
    dsimp only
    rw [hsize, ← hbytes]
    exact (prefix_iff_eq_take.mp hholds.2.2.2).symm
  exact ⟨k, hfile ▸ hshows⟩

theorem unpackEntry_shows (hinv : RamfsInv s) (hblock : block < s.heap.blockCnt)
    (hplain : (s.heap.blocks block).slab = false) {hd : UstarHeader}
    (hsize : 0 ≤ (octalToDecimal hd.size).toInt)
    (hfit : header + 512 + (octalToDecimal hd.size).toInt ≤ (s.heap.blocks block).bytes.length)
    (h : unpackEntry links block header hd s = some s₁) (hn : s₁.IsRamfs n) :
    (s.IsRamfs n ∧ StillShows s s₁ n) ∨ (¬ s.IsRamfs n ∧ InArchive s₁ block n) := by
  have hadd := unpackEntry_added hinv h
  by_cases hlt : n < s.vfs.nodeCnt
  · exact .inl ⟨(hadd.isRamfs_old hinv hlt).mp hn, hadd.stillShows hinv hlt⟩
  refine .inr ⟨fun hold => hlt hold.1, ?_⟩
  -- The new file is what the header says.
  obtain ⟨size, hnat⟩ := Int.eq_ofNat_of_zero_le hsize
  have hlength : (slice (s.heap.blocks block).bytes (header + 512) size).length = size := by
    rw [slice, length_take, length_drop]
    omega
  have hholds : HoldsFile s.heap (some ⟨block, header + 512⟩)
      (slice (s.heap.blocks block).bytes (header + 512) size) :=
    ⟨hblock, fun hobject => absurd hobject (by rw [hplain]; decide), by dsimp only; omega,
      take_prefix _ _⟩
  have hshows := hadd.shows_new hinv hn (Nat.le_of_not_lt hlt) (hnat.trans (by rw [hlength])) hholds
  exact ⟨_, _, _, hshows, hadd.buffer_new⟩

theorem unpack_shows (hinv : RamfsInv s) (hblock : block < s.heap.blockCnt)
    (hplain : (s.heap.blocks block).slab = false)
    (hcontained : Contained (s.heap.blocks block).bytes address entries header)
    (h : unpack links block address entries header s = some s') (hn : s'.IsRamfs n) :
    s'.heap = s.heap ∧
      ((s.IsRamfs n ∧ StillShows s s' n) ∨ (¬ s.IsRamfs n ∧ InArchive s' block n)) := by
  induction entries generalizing header s with
  | zero => exact absurd h (by simp [unpack])
  | succ entries ih =>
    obtain ⟨-, rfl | ⟨hd, s₁, next, hmagic, hheader, hentry, hnext, hrest⟩⟩ := unpack_cases h
    · exact ⟨rfl, .inl ⟨hn, fun k file hshows => ⟨hshows, rfl⟩⟩⟩
    · obtain ⟨hsize, hfit, hnexts⟩ := hcontained hmagic hd hheader
      have hadd := unpackEntry_added hinv hentry
      have hheap := hadd.heap
      have hone : ∀ {n}, s₁.IsRamfs n → _ := fun {n} =>
        unpackEntry_shows (n := n) hinv hblock hplain hsize hfit hentry
      rcases hrest with rfl | hrest
      · exact ⟨hheap, hone hn⟩
      · -- A file of the first entry is still there after the others.
        obtain ⟨hheap', hcases⟩ := ih (hadd.inv hinv) (by rw [hheap]; exact hblock)
          (by rw [hheap]; exact hplain) (by rw [hheap]; exact hnexts next hnext) hrest
        refine ⟨hheap'.trans hheap, ?_⟩
        rcases hcases with ⟨hn₁, hstill⟩ | ⟨hn₁, harchive⟩
        · rcases hone hn₁ with ⟨hold, hstill₁⟩ | ⟨hold, harchive⟩
          · exact .inl ⟨hold, hstill₁.trans hstill⟩
          · exact .inr ⟨hold, harchive.still hstill⟩
        · refine .inr ⟨fun hold => hn₁ ?_, harchive⟩
          exact (hadd.isRamfs_old hinv hold.1).mpr hold

end Unpacked

/-! ## The array of a file -/

def RamfsOp.node : RamfsOp → Option ℕ
  | .write node _ _ => some node
  | .resize node _ => some node
  | _ => none

/-- Arguments that are not negative, for sizes below 16384. -/
def RamfsOp.Small : RamfsOp → Prop
  | .write _ offset data => offset + data.length < 16384
  | .resize _ cnt => 0 ≤ cnt ∧ cnt < 16384
  | _ => True

instance : DecidablePred RamfsOp.Small := fun op => by
  unfold RamfsOp.Small
  split <;> infer_instance

/-- The archive that is unpacked is in order and complete. -/
def RamfsOp.Complete : RamfsOp → Prop
  | .unpack _ entries address archive =>
    Pastoral.Forward archive address entries address ∧ Contained archive address entries address
  | _ => True

def arrayAfter (n : ℕ) (array : List (BitVec 8)) (e : Event RamfsState RamfsOp) :
    List (BitVec 8) :=
  match e.act with
  | .unpack _ _ _ archive => if e.pre.IsRamfs n then array else e.post.entryBytes archive n
  | .create _ _ _ => if e.pre.IsRamfs n then array else []
  | .write node offset data => if node = n then overlay 0#8 array offset data else array
  | .resize node cnt => if node = n then resize 0#8 array cnt.toNat else array

def fileArray (n : ℕ) (tr : List (Event RamfsState RamfsOp)) : List (BitVec 8) :=
  tr.foldl (arrayAfter n) []

/-- **What a call must find**: a call through the node that makes the file longer, or a change of
the size to another one than zero, finds the file in an object in which the bytes behind its end are
zero, or finds no bytes at all; other calls go through nodes with other handles. -/
def Keeps (n : ℕ) (s : RamfsState) : RamfsOp → Prop
  | .write node offset data =>
    if node = n then (s.assetOf n).stSize < offset + data.length →
      CanGrow s.heap (s.bufferOf n) (s.assetOf n).stSize.toNat offset
    else s.IsRamfs n → ¬ SharesZero s node n
  | .resize node cnt =>
    if node = n then cnt ≠ 0 →
      CanGrow s.heap (s.bufferOf n) (s.assetOf n).stSize.toNat cnt.toNat
    else s.IsRamfs n → ¬ SharesZero s node n
  | _ => True

instance (n : ℕ) (s : RamfsState) (op : RamfsOp) : Decidable (Keeps n s op) := by
  unfold Keeps
  split <;> infer_instance

section Arrays

variable {s s' : RamfsState} {n node : ℕ} {array : List (BitVec 8)} {op : RamfsOp}

theorem Shows.write_next {k offset : ℕ} {data : List (BitVec 8)}
    (h : Shows s (s.vfs.nodes n).asset k array) (hn : s.IsRamfs n)
    (hsmall : (RamfsOp.write n offset data).Small) (hkeeps : Keeps n s (.write n offset data)) :
    ∃ s', ramfsNext s (.write n offset data) = some s' ∧
      Shows s' (s.vfs.nodes n).asset k (overlay 0#8 array offset data) := by
  have hsize : (s.assetOf n).stSize = array.length := h.size
  have hsmall' : offset + data.length < 16384 := hsmall
  rw [Keeps, if_pos rfl, h.bufferOf, hsize] at hkeeps
  obtain ⟨s', hwrite, hshows⟩ := h.write hsmall' fun hlong => hkeeps (by omega)
  refine ⟨s', ?_, hshows⟩
  have hvalid : s.IsRamfs n ∧ offset + data.length < 2 ^ 63 := ⟨hn, by omega⟩
  rw [ramfsNext, if_pos hvalid, hwrite]
  rfl

theorem Shows.resize_next {k : ℕ} {cnt : ℤ} (h : Shows s (s.vfs.nodes n).asset k array)
    (hn : s.IsRamfs n) (hsmall : (RamfsOp.resize n cnt).Small) (hkeeps : Keeps n s (.resize n cnt)) :
    ∃ s', ramfsNext s (.resize n cnt) = some s' ∧
      Shows s' (s.vfs.nodes n).asset k (Padded.resize 0#8 array cnt.toNat) := by
  have hsize : (s.assetOf n).stSize = array.length := h.size
  obtain ⟨hlow, hhigh⟩ : 0 ≤ cnt ∧ cnt < 16384 := hsmall
  obtain ⟨cnt, rfl⟩ := Int.eq_ofNat_of_zero_le hlow
  rw [Keeps, if_pos rfl, h.bufferOf, hsize, Int.toNat_natCast] at hkeeps
  rw [Int.toNat_natCast] at hkeeps ⊢
  obtain ⟨s', hresize, hshows⟩ := h.resize (by omega) fun hne => hkeeps (by omega)
  refine ⟨s', ?_, hshows⟩
  have hvalid : s.IsRamfs n ∧ -2 ^ 63 ≤ (cnt : ℤ) ∧ (cnt : ℤ) < 2 ^ 63 := ⟨hn, by omega, by omega⟩
  rw [ramfsNext, if_pos hvalid, hresize]
  rfl

theorem Shows.call_next {k : ℕ} (h : Shows s (s.vfs.nodes n).asset k array) (hn : s.IsRamfs n)
    (hnode : op.node = some n) (hsmall : op.Small) (hkeeps : Keeps n s op) :
    ∃ s', ramfsNext s op = some s' ∧
      Shows s' (s.vfs.nodes n).asset k (arrayAfter n array ⟨s, op, s'⟩) := by
  unfold arrayAfter
  cases op with
  | unpack links entries address archive => exact absurd hnode (by simp [RamfsOp.node])
  | create parent name mode => exact absurd hnode (by simp [RamfsOp.node])
  | write node offset data =>
    cases hnode
    dsimp only
    rw [if_pos rfl]
    exact h.write_next hn hsmall hkeeps
  | resize node cnt =>
    cases hnode
    dsimp only
    rw [if_pos rfl]
    exact h.resize_next hn hsmall hkeeps

theorem RamfsOp.call_of_node (h : op.node = some node) :
    (∃ off data, op = .write node off data) ∨ ∃ cnt, op = .resize node cnt := by
  cases op with
  | unpack links entries address archive => exact absurd h (by simp [RamfsOp.node])
  | create parent name mode => exact absurd h (by simp [RamfsOp.node])
  | write m off data =>
    cases h
    exact .inl ⟨off, data, rfl⟩
  | resize m cnt =>
    cases h
    exact .inr ⟨cnt, rfl⟩

theorem Keeps.other (hkeeps : Keeps n s op) (hnode : op.node = some node) (hne : node ≠ n) :
    (s.IsRamfs n → ¬ SharesZero s node n) ∧ arrayAfter n array ⟨s, op, s'⟩ = array := by
  rcases RamfsOp.call_of_node hnode with ⟨off, data, rfl⟩ | ⟨cnt, rfl⟩
  · rw [Keeps, if_neg hne] at hkeeps
    exact ⟨hkeeps, if_neg hne⟩
  · rw [Keeps, if_neg hne] at hkeeps
    exact ⟨hkeeps, if_neg hne⟩

theorem ramfsStep_call_shows (hinv : RamfsInv s) (hlayout : LayoutInv s) (hn : s.IsRamfs n)
    (hnode : op.node = some node) (hsmall : op.node = some n → op.Small) (hkeeps : Keeps n s op)
    (hstep : ramfsStep s op s') {k : ℕ} (h : Shows s (s.vfs.nodes n).asset k array) :
    Shows s' (s'.vfs.nodes n).asset k (arrayAfter n array ⟨s, op, s'⟩) := by
  have hop := RamfsOp.call_of_node hnode
  obtain ⟨hram, hcall⟩ := ramfsStep_call hop hstep
  by_cases hne : node = n
  · subst hne
    obtain ⟨s₁, hnext, hshows⟩ := h.call_next hn hnode (hsmall hnode) hkeeps
    obtain rfl := some.inj (hnext.symm.trans hstep)
    have hnodes : s₁.vfs.nodes = s.vfs.nodes := by
      rcases hcall with rfl | ⟨handle, size', -, heffect, -⟩
      · rfl
      · rw [heffect.vfs]
        rfl
    rw [hnodes]
    exact hshows
  · obtain ⟨hshare, hsame⟩ := hkeeps.other hnode hne
    rw [hsame]
    rcases hcall with rfl | ⟨handle, size', hhandle, -, heffect⟩
    · exact h
    · have hfile := heffect fun p => hlayout.sizes node handle hram hhandle p
      refine hfile.shows_other hinv hlayout hram hn hne rfl hhandle (fun heq => ?_) h
      exact (hinv.distinct_iff hram hn hne).mpr (hshare hn) handle hhandle (heq ▸ h.found)

theorem unpackArchive_shows {links entries address : ℕ} {archive : List (BitVec 8)}
    (hinv : RamfsInv s) (hcontained : Contained archive address entries address)
    (hstep : s.unpackArchive links entries address archive = some s')
    (hold : s.IsRamfs n → ∃ k, Shows s (s.vfs.nodes n).asset k array) (hn : s'.IsRamfs n) :
    ∃ k, Shows s' (s'.vfs.nodes n).asset k
      (if s.IsRamfs n then array else s'.entryBytes archive n) := by
  rw [unpackArchive_eq] at hstep
  have hnew := push_new s.heap ⟨archive, false⟩
  have hbytes := congrArg Block.bytes hnew
  obtain ⟨hheap, ⟨hram, hstill⟩ | ⟨hram, harchive⟩⟩ := unpack_shows (hinv.pushBlock _)
    (Nat.lt_succ_self _) (congrArg Block.slab hnew) (by rw [hbytes]; exact hcontained) hstep hn
  · have hram : s.IsRamfs n := hram
    obtain ⟨k, hshows⟩ := hold hram
    rw [if_pos hram]
    exact ⟨k, (hstill k array ⟨hshows.found, hshows.size, hshows.buffer.pushBlock _⟩).1⟩
  · have hram : ¬ s.IsRamfs n := hram
    rw [if_neg hram]
    exact harchive.entryBytes (by rw [hheap]; exact hbytes)

theorem NodeAdded.shows_created {a : Asset} (hadd : NodeAdded s s' none a) (hinv : RamfsInv s)
    (hsize : a.stSize = 0) (hold : s.IsRamfs n → ∃ k, Shows s (s.vfs.nodes n).asset k array)
    (hn : s'.IsRamfs n) :
    ∃ k, Shows s' (s'.vfs.nodes n).asset k (if s.IsRamfs n then array else []) := by
  split_ifs with hram
  · obtain ⟨k, hshows⟩ := hold hram
    exact ⟨k, (hadd.stillShows hinv hram.1 k array hshows).1⟩
  · have hle : s.vfs.nodeCnt ≤ n := by
      by_contra hlt
      exact hram ((hadd.isRamfs_old hinv (Nat.lt_of_not_le hlt)).mp hn)
    exact ⟨_, hadd.shows_new hinv hn hle hsize rfl⟩

theorem ramfsStep_shows (hinv : RamfsInv s) (hlayout : LayoutInv s) (hcomplete : op.Complete)
    (hsmall : op.node = some n → op.Small) (hkeeps : Keeps n s op) (hstep : ramfsStep s op s')
    (hold : s.IsRamfs n → ∃ k, Shows s (s.vfs.nodes n).asset k array) (hn : s'.IsRamfs n) :
    ∃ k, Shows s' (s'.vfs.nodes n).asset k (arrayAfter n array ⟨s, op, s'⟩) := by
  have hcall : ∀ node, op.node = some node →
      ∃ k, Shows s' (s'.vfs.nodes n).asset k (arrayAfter n array ⟨s, op, s'⟩) := by
    intro node hnode
    have hram : s.IsRamfs n := by
      obtain ⟨-, rfl | ⟨handle, size', -, heffect, -⟩⟩ :=
        ramfsStep_call (RamfsOp.call_of_node hnode) hstep
      · exact hn
      · exact heffect.isRamfs_iff.mp hn
    obtain ⟨k, hshows⟩ := hold hram
    exact ⟨k, ramfsStep_call_shows hinv hlayout hram hnode hsmall hkeeps hstep hshows⟩
  cases op with
  | unpack links entries address archive =>
    exact unpackArchive_shows hinv hcomplete.2 hstep hold hn
  | create parent name mode =>
    unfold ramfsStep ramfsNext at hstep
    dsimp only at hstep
    split_ifs at hstep with hparent
    obtain ⟨⟨node, s₁⟩, hcreate, rfl⟩ := map_eq_some_iff.mp hstep
    exact (ramfsCreate_added hinv hparent hcreate).shows_created hinv rfl hold hn
  | write node offset data => exact hcall node rfl
  | resize node cnt => exact hcall node rfl

end Arrays

/-- **Files are arrays**: in every run whose calls through a node have small arguments and find what
they need, every read through the node returns the bytes of its array, and every such call
returns. -/
theorem contents_refine_array {tr : List (Event RamfsState RamfsOp)} {s : RamfsState}
    (run : Run ramfsStep ramfsInit tr s) {n : ℕ}
    (hsmall : ∀ e ∈ tr, e.act.node = some n → e.act.Small)
    (hkeeps : ∀ e ∈ tr, e.act.Complete ∧ Keeps n e.pre e.act) (hn : s.IsRamfs n) (h3 : 3 ≤ n) :
    (∀ off cnt : ℕ, off + cnt < 2 ^ 63 → ramfsRead s (s.vfs.nodes n).asset off cnt =
        some (slice (fileArray n tr) off cnt)) ∧
      ∀ op : RamfsOp, op.node = some n → op.Small → Keeps n s op → ∃ s', ramfsStep s op s' := by
  obtain ⟨-, -, hold⟩ : RamfsInv s ∧ LayoutInv s ∧
      (s.IsRamfs n → ∃ k, Shows s (s.vfs.nodes n).asset k (fileArray n tr)) := by
    refine run.guarded (I := fun tr s => RamfsInv s ∧ LayoutInv s ∧
        (s.IsRamfs n → ∃ k, Shows s (s.vfs.nodes n).asset k (fileArray n tr)))
      (Q := fun e => (e.act.node = some n → e.act.Small) ∧ e.act.Complete ∧ Keeps n e.pre e.act)
      ⟨ramfsInit_inv, ramfsInit_layout, fun hinit => ?_⟩ ?_ fun e he => ⟨hsmall e he, hkeeps e he⟩
    · exact absurd hinit.1 (Nat.not_lt_of_le h3)
    · rintro tr s op s' ⟨hinv, hlayout, hold⟩ hstep ⟨hs, hcomplete, hk⟩
      have hforward : op.Forward := by
        cases op with
        | unpack links entries address archive => exact hcomplete.1
        | _ => trivial
      refine ⟨ramfsStep_inv hinv hstep, ramfsStep_layout hinv hlayout hforward hstep, fun hn' => ?_⟩
      rw [fileArray, foldl_append]
      exact ramfsStep_shows hinv hlayout hcomplete hs hk hstep hold hn'
  obtain ⟨k, hshows⟩ := hold hn
  refine ⟨fun _ _ => hshows.read, fun op hnode hs hk => ?_⟩
  obtain ⟨s', hnext, -⟩ := hshows.call_next hn hnode hs hk
  exact ⟨s', hnext⟩

def filesWritten : List RamfsOp :=
  [.create 0 [0x61#8] (sIfreg ||| 0o644#32), .create 0 [0x62#8] (sIfreg ||| 0o644#32),
    .write 3 0 [5#8, 6#8], .write 4 0 [9#8], .write 3 3 [7#8], .resize 3 2, .write 3 0 [8#8]]

/-- **Two bytes** are in the first file and in its array. -/
theorem contents_refine_array_two_files : ∃ tr s, Run ramfsStep ramfsInit tr s ∧
    tr.map Event.act = filesWritten ∧ ramfsRead s (s.vfs.nodes 3).asset 0 9 = some [8#8, 6#8] ∧
    slice (fileArray 3 tr) 0 9 = [8#8, 6#8] := by
  obtain ⟨tr, s, run, hacts, hread, hram, hguard⟩ := Run.computed (f := ramfsNext)
    (P := fun tr s => ramfsRead s (s.vfs.nodes 3).asset 0 9 = some [8#8, 6#8] ∧ s.IsRamfs 3 ∧
      ∀ e ∈ tr, (e.act.node = some 3 → e.act.Small) ∧ Keeps 3 e.pre e.act)
    ramfsInit filesWritten (by decide +kernel)
  have hcomplete : ∀ e ∈ tr, e.act.Complete := by
    intro e he
    have hmem : e.act ∈ filesWritten := hacts ▸ mem_map_of_mem he
    simp only [filesWritten, mem_cons, not_mem_nil, or_false] at hmem
    rcases hmem with heq | heq | heq | heq | heq | heq | heq <;> rw [heq] <;> trivial
  have harray := (contents_refine_array run (fun e he => (hguard e he).1)
    (fun e he => ⟨hcomplete e he, (hguard e he).2⟩) hram (le_refl 3)).1 0 9 (by decide)
  exact ⟨tr, s, run, hacts, hread, Option.some.inj (harray.symm.trans hread)⟩

def fileEmptied : List RamfsOp :=
  [.create 0 [0x61#8] (sIfreg ||| 0o644#32), .write 3 0 [1#8], .resize 3 0]

/-- **Two writes that are none on arrays**: a write behind a file of the archive loses its bytes, and
a write into a file that was emptied brings a byte back. -/
theorem extending_write_differs : (∃ tr s s', Run ramfsStep ramfsInit tr s ∧
      tr.map Event.act = [.unpack 0 3 0x1000 sampleArchive] ∧ s.IsRamfs 6 ∧
      ramfsRead s (s.vfs.nodes 6).asset 0 9 = some [1#8, 2#8] ∧
      ramfsStep s (.write 6 2 [3#8]) s' ∧ overlay 0#8 [1#8, 2#8] 2 [3#8] = [1#8, 2#8, 3#8] ∧
      ramfsRead s' (s'.vfs.nodes 6).asset 0 9 = some [0#8, 0#8, 3#8]) ∧
    ∃ tr s s', Run ramfsStep ramfsInit tr s ∧ tr.map Event.act = fileEmptied ∧ s.IsRamfs 3 ∧
      ramfsRead s (s.vfs.nodes 3).asset 0 9 = some [] ∧
      ramfsStep s (.write 3 1 [2#8]) s' ∧ overlay 0#8 [] 1 [2#8] = [0#8, 2#8] ∧
      ramfsRead s' (s'.vfs.nodes 3).asset 0 9 = some [1#8, 2#8] := by
  constructor
  · obtain ⟨tr, s, run, hacts, hram, hbefore, hwrite⟩ := Run.computed (f := ramfsNext)
      (P := fun _ s => s.IsRamfs 6 ∧ ramfsRead s (s.vfs.nodes 6).asset 0 9 = some [1#8, 2#8] ∧
        ((ramfsNext s (.write 6 2 [3#8])).map fun s' => ramfsRead s' (s'.vfs.nodes 6).asset 0 9) =
          some (some [0#8, 0#8, 3#8])) ramfsInit [.unpack 0 3 0x1000 sampleArchive]
      (by decide +kernel)
    obtain ⟨s', hs', hafter⟩ := map_eq_some_iff.mp hwrite
    exact ⟨tr, s, s', run, hacts, hram, hbefore, hs', by decide, hafter⟩
  · obtain ⟨tr, s, run, hacts, hram, hbefore, hwrite⟩ := Run.computed (f := ramfsNext)
      (P := fun _ s => s.IsRamfs 3 ∧ ramfsRead s (s.vfs.nodes 3).asset 0 9 = some [] ∧
        ((ramfsNext s (.write 3 1 [2#8])).map fun s' => ramfsRead s' (s'.vfs.nodes 3).asset 0 9) =
          some (some [1#8, 2#8])) ramfsInit fileEmptied (by decide +kernel)
    obtain ⟨s', hs', hafter⟩ := map_eq_some_iff.mp hwrite
    exact ⟨tr, s, s', run, hacts, hram, hbefore, hs', by decide, hafter⟩

end Pastoral
