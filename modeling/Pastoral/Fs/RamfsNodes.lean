import Pastoral.Fs.Initramfs

/-!
# Nodes and their storage

Trees with ramfs nodes: `vfs_init` makes three, the root and its two entries, and `initramfs` and
`ramfs_create` make the others.

## Main definitions

* `RamfsInv`: every node of ramfs has a handle
-/

open BitVec Function Option Padded Probe

namespace Pastoral

/-! ## Pointers in trees with links -/

section Links

variable {s s' : VfsState} {follow : ℕ → Name → Option (Option ℕ)} {parent node asset : ℕ}
  {filesystem : Option ℕ} {comps : List Name}

theorem VfsOk.walkExisting_lt (h : VfsOk s) (hfollow : FollowsInside s follow)
    (hparent : parent < s.nodeCnt) {rest : List Name}
    (hwalk : walkExisting follow s parent comps = some (node, rest)) : node < s.nodeCnt := by
  induction comps generalizing parent with
  | nil => exact (Prod.mk.inj (some.inj hwalk)).1 ▸ hparent
  | cons name comps ih =>
    obtain ⟨found, hfound, hrest⟩ := bind_eq_some_iff.mp hwalk
    cases found with
    | none => exact (Prod.mk.inj (some.inj hrest)).1 ▸ hparent
    | some c =>
      have hc := h.finite.searchRelative_lt hfollow hparent hfound
      dsimp only at hrest
      rw [h.mounted_eq hc] at hrest
      exact ih hc hrest

structure VfsAdds (s s' : VfsState) (asset : ℕ) : Prop where
  ok : VfsOk s'
  grows : VfsGrows s s'
  fresh : ∀ n < s'.nodeCnt, s.nodeCnt ≤ n → (s'.nodes n).asset = asset ∨
    s.assetCnt ≤ (s'.nodes n).asset ∧ (s'.assets (s'.nodes n).asset).ramfs = false
  once : ∀ n < s'.nodeCnt, ∀ m < s'.nodeCnt, s.nodeCnt ≤ n → s.nodeCnt ≤ m →
    (s'.nodes n).asset = asset → (s'.nodes m).asset = asset → n = m

theorem VfsAdds.refl (h : VfsOk s) (asset : ℕ) : VfsAdds s s asset :=
  ⟨h, VfsGrows.refl s, fun _ hn hle => absurd hn (Nat.not_lt_of_le hle),
    fun _ hn _ _ hle => absurd hn (Nat.not_lt_of_le hle)⟩

theorem CreatedNode.adds {name : Name} {entries : List ℕ}
    (h : CreatedNode s s' parent asset filesystem name entries) (hok : VfsOk s)
    (hparent : parent < s.nodeCnt) (hasset : asset < s.assetCnt) : VfsAdds s s' asset := by
  have hentry : ∀ n ∈ entries, s.assetCnt ≤ (s'.nodes n).asset ∧
      (s'.assets (s'.nodes n).asset).ramfs = false := by
    intro n hn
    obtain ⟨a, hle, -, hdefault, hnode⟩ := h.dots n hn
    have hasset' : (s'.nodes n).asset = a := by
      rcases hnode with hnode | hnode <;> rw [hnode] <;> rfl
    rw [hasset', hdefault]
    exact ⟨hle, rfl⟩
  have hnew : ∀ n < s'.nodeCnt, s.nodeCnt ≤ n → n = s.nodeCnt ∨ n ∈ entries := by
    intro n hn hle
    rcases h.cases hn with hlt | heq | hmem
    · exact absurd hle (Nat.not_le_of_lt hlt)
    · exact .inl heq
    · exact .inr hmem
  refine ⟨h.ok hok hparent hasset, h.grows, fun n hn hle => ?_, fun n hn m hm hle hle' ha ha' => ?_⟩
  · rcases hnew n hn hle with rfl | hmem
    · exact .inl (congrArg VfsNode.asset h.node)
    · exact .inr (hentry n hmem)
  · have hself : ∀ k < s'.nodeCnt, s.nodeCnt ≤ k → (s'.nodes k).asset = asset → k = s.nodeCnt := by
      intro k hk hkle hka
      rcases hnew k hk hkle with heq | hmem
      · exact heq
      · have hge := (hentry k hmem).1
        omega
    rw [hself n hn hle ha, hself m hm hle' ha']

theorem VfsAdds.afterDir (hdir : VfsAdds (s.allocAsset (vfsDefaultAsset sIfdir)) s' s.assetCnt)
    {s'' : VfsState} (hasset : asset < s.assetCnt) (h : VfsAdds s' s'' asset) :
    VfsAdds s s'' asset := by
  have halloc := VfsGrows.allocAsset s (vfsDefaultAsset sIfdir)
  have hgrows := halloc.trans hdir.grows
  have hcnt := hgrows.assetCnt
  -- The nodes of the directory have assets that are allocated for it.
  have hold : ∀ n < s'.nodeCnt, s.nodeCnt ≤ n → s.assetCnt ≤ (s''.nodes n).asset ∧
      (s''.assets (s''.nodes n).asset).ramfs = false := by
    intro n hn hle
    rw [h.grows.asset n hn, h.grows.assets _ (hdir.ok.assets n hn)]
    rcases hdir.fresh n hn hle with heq | ⟨hge, hplain⟩
    · rw [heq, hdir.grows.assets s.assetCnt (Nat.lt_succ_self _)]
      refine ⟨le_refl _, ?_⟩
      rw [VfsState.allocAsset]
      dsimp only
      rw [update_self]
      rfl
    · exact ⟨Nat.le_of_succ_le hge, hplain⟩
  have hback : ∀ n < s''.nodeCnt, s.nodeCnt ≤ n → (s''.nodes n).asset = asset → s'.nodeCnt ≤ n := by
    intro n _ hle ha
    by_contra hlt
    have hge := (hold n (Nat.lt_of_not_le hlt) hle).1
    omega
  refine ⟨h.ok, hgrows.trans h.grows, fun n hn hle => ?_, fun n hn m hm hle hle' ha ha' => ?_⟩
  · by_cases hlt : n < s'.nodeCnt
    · exact .inr (hold n hlt hle)
    · rcases h.fresh n hn (Nat.le_of_not_lt hlt) with heq | ⟨hge, hplain⟩
      · exact .inl heq
      · exact .inr ⟨le_trans hcnt hge, hplain⟩
  · exact h.once n hn m hm (hback n hn hle ha) (hback m hm hle' ha') ha ha'

theorem VfsOk.createRest_adds (h : VfsOk s) (hparent : parent < s.nodeCnt)
    (hasset : asset < s.assetCnt) :
    VfsAdds s (createRest asset filesystem parent comps s).2 asset := by
  induction comps generalizing s parent with
  | nil => exact VfsAdds.refl h asset
  | cons name comps ih =>
    cases comps with
    | nil => exact (vfsCreateNode_spec asset filesystem name hparent).adds h hparent hasset
    | cons next rest =>
      have hpar : parent < (s.allocAsset (vfsDefaultAsset sIfdir)).nodeCnt := hparent
      have hspec := vfsCreateNode_spec s.assetCnt (s.nodes parent).filesystem name hpar
      have hdir := hspec.adds (h.allocAsset _) hpar (Nat.lt_succ_self s.assetCnt)
      have hlt : s.nodeCnt < _ := hspec.lt_nodeCnt
      have hcnt := hdir.grows.assetCnt
      have hmore := Nat.lt_succ_of_lt hasset
      rw [createRest, hdir.ok.mounted_eq hlt]
      exact hdir.afterDir hasset (ih hdir.ok hlt (lt_of_lt_of_le hmore hcnt))

theorem VfsOk.createDeep_adds (h : VfsOk s) (hparent : parent < s.nodeCnt)
    (hasset : asset < s.assetCnt) {fuel : ℕ} {path : Name}
    (hcall : vfsCreateNodeDeep fuel parent asset filesystem path s = some (node, s')) :
    VfsAdds s s' asset := by
  unfold vfsCreateNodeDeep at hcall
  split_ifs at hcall
  obtain ⟨⟨q, rest⟩, hwalk, hresult⟩ := map_eq_some_iff.mp hcall
  have hq := h.walkExisting_lt (h.finite.searchAbsolute_inside fuel) hparent hwalk
  have hadds : VfsAdds s (createRest asset filesystem q rest s).2 asset :=
    h.createRest_adds hq hasset
  rw [hresult] at hadds
  exact hadds

end Links

/-! ## Nodes, numbers and handles -/

def RamfsState.assetOf (s : RamfsState) (node : ℕ) : Asset := s.vfs.assets (s.vfs.nodes node).asset

/-- A node that reads and writes as ramfs does. -/
def RamfsState.IsRamfs (s : RamfsState) (node : ℕ) : Prop :=
  node < s.vfs.nodeCnt ∧ (s.assetOf node).ramfs = true

def RamfsState.handleOf (s : RamfsState) (node : ℕ) : Option ℕ := s.find (s.vfs.nodes node).asset

structure RamfsInv (s : RamfsState) : Prop where
  ok : VfsOk s.vfs
  good : s.nodeList.Good inodeHash
  table : ∀ k h, (k, h) ∈ entries s.nodeList.slots ↔ h < s.handleCnt ∧ k = BitVec.ofNat 64 h
  cnt : s.inodeCnt = BitVec.ofNat 64 s.handleCnt
  limit : s.handleCnt ≤ handleLimit
  three : 3 ≤ s.vfs.nodeCnt
  rootZero : ∀ n < 3, (s.assetOf n).stIno = 0#64
  rootAsset : ∀ n < 3, (s.vfs.nodes n).asset = n
  numbered : ∀ n, s.IsRamfs n → 3 ≤ n → 3 ≤ (s.vfs.nodes n).asset ∧
    ∃ h < s.handleCnt, (s.assetOf n).stIno = BitVec.ofNat 64 h
  unique : ∀ n m, s.IsRamfs n → s.IsRamfs m → 3 ≤ n → 3 ≤ m →
    (s.assetOf n).stIno = (s.assetOf m).stIno → n = m

/-- Two nodes lead to different handles, or one of them to none. -/
def DistinctHandles (s : RamfsState) (n m : ℕ) : Prop :=
  ∀ h, s.handleOf n = some h → s.handleOf m ≠ some h

/-- Both nodes have number zero, and a handle has it. -/
def SharesZero (s : RamfsState) (n m : ℕ) : Prop :=
  (s.assetOf n).stIno = 0#64 ∧ (s.assetOf m).stIno = 0#64 ∧ s.inodeCnt ≠ 0#64
  deriving Decidable

section Numbers

variable {s s' : RamfsState} {n m h : ℕ}

theorem ofNat_inj_of_lt {a b : ℕ} (ha : a < 2 ^ 64) (hb : b < 2 ^ 64)
    (h : BitVec.ofNat 64 a = BitVec.ofNat 64 b) : a = b := by
  have htoNat := congrArg BitVec.toNat h
  rw [toNat_ofNat, toNat_ofNat, Nat.mod_eq_of_lt ha, Nat.mod_eq_of_lt hb] at htoNat
  exact htoNat

theorem RamfsInv.lt_two_pow (hinv : RamfsInv s) (hh : h ≤ s.handleCnt) : h < 2 ^ 64 :=
  lt_of_le_of_lt (le_trans hh hinv.limit) (by decide)

theorem RamfsInv.find_iff (hinv : RamfsInv s) {asset : ℕ} :
    s.find asset = some h ↔ h < s.handleCnt ∧ (s.vfs.assets asset).stIno = BitVec.ofNat 64 h := by
  rw [RamfsState.find, hashTableSearch_eq_some_iff hinv.good, hinv.table]

theorem RamfsInv.cnt_eq_zero_iff (hinv : RamfsInv s) : s.inodeCnt = 0#64 ↔ s.handleCnt = 0 := by
  rw [hinv.cnt]
  constructor
  · intro hzero
    exact ofNat_inj_of_lt (hinv.lt_two_pow (le_refl _)) (by decide) hzero
  · intro hzero
    rw [hzero]

theorem RamfsInv.number_fresh (hinv : RamfsInv s) (hh : h < s.handleCnt) :
    BitVec.ofNat 64 h ≠ s.inodeCnt := by
  intro heq
  rw [hinv.cnt] at heq
  have hsame := ofNat_inj_of_lt (hinv.lt_two_pow (le_of_lt hh))
    (hinv.lt_two_pow (le_refl _)) heq
  omega

theorem RamfsInv.distinct_iff (hinv : RamfsInv s) (hn : s.IsRamfs n) (hm : s.IsRamfs m)
    (hne : n ≠ m) : DistinctHandles s n m ↔ ¬ SharesZero s n m := by
  constructor
  · rintro hdistinct ⟨hzn, hzm, hcnt⟩
    -- The handle with number zero is the first one.
    have hpos := pos_of_ne_zero fun h => hcnt (hinv.cnt_eq_zero_iff.mpr h)
    exact hdistinct 0 (hinv.find_iff.mpr ⟨hpos, hzn⟩) (hinv.find_iff.mpr ⟨hpos, hzm⟩)
  · intro hshare h hhn hhm
    obtain ⟨hlt, hin⟩ := hinv.find_iff.mp hhn
    obtain ⟨-, him⟩ := hinv.find_iff.mp hhm
    have hcnt : s.inodeCnt ≠ 0#64 := fun hzero => by
      have hnone := hinv.cnt_eq_zero_iff.mp hzero
      omega
    by_cases hboth : 3 ≤ n ∧ 3 ≤ m
    · exact hne (hinv.unique n m hn hm hboth.1 hboth.2 (hin.trans him.symm))
    · -- One of the nodes is one of the first three, so the common number is zero.
      refine hshare ⟨?_, ?_, hcnt⟩
      · by_cases hn3 : n < 3
        · exact hinv.rootZero n hn3
        · have hzero := hinv.rootZero m (by omega)
          exact (hin.trans him.symm).trans hzero
      · by_cases hm3 : m < 3
        · exact hinv.rootZero m hm3
        · have hzero := hinv.rootZero n (by omega)
          exact (him.trans hin.symm).trans hzero

theorem RamfsInv.asset_inj (hinv : RamfsInv s) (hn : s.IsRamfs n) (hm : s.IsRamfs m)
    (ha : (s.vfs.nodes n).asset = (s.vfs.nodes m).asset) : n = m := by
  have hino : (s.assetOf n).stIno = (s.assetOf m).stIno := by
    rw [RamfsState.assetOf, RamfsState.assetOf, ha]
  by_cases hn3 : n < 3
  · have han := hinv.rootAsset n hn3
    by_cases hm3 : m < 3
    · have ham := hinv.rootAsset m hm3
      omega
    · have ham := (hinv.numbered m hm (Nat.le_of_not_lt hm3)).1
      omega
  · by_cases hm3 : m < 3
    · have ham := hinv.rootAsset m hm3
      have han := (hinv.numbered n hn (Nat.le_of_not_lt hn3)).1
      omega
    · exact hinv.unique n m hn hm (Nat.le_of_not_lt hn3) (Nat.le_of_not_lt hm3) hino

end Numbers

/-! ## A new handle -/

structure NodeAdded (s s' : RamfsState) (buffer : Option Pointer) (a : Asset) : Prop where
  room : s.handleCnt < handleLimit
  nodeList : s'.nodeList = hashTablePush inodeHash s.nodeList s.inodeCnt s.handleCnt
  inodeCnt : s'.inodeCnt = s.inodeCnt + 1
  handles : s'.handles = update s.handles s.handleCnt ⟨s.inodeCnt, buffer⟩
  handleCnt : s'.handleCnt = s.handleCnt + 1
  heap : s'.heap = s.heap
  vfs : VfsAdds (s.vfs.allocAsset a) s'.vfs s.vfs.assetCnt
  stIno : a.stIno = s.inodeCnt

theorem nodeAdded_of_addHandle {s s₁ : RamfsState} {buffer : Option Pointer} {a : Asset}
    {vfs : VfsState} (hadd : s.addHandle buffer = some s₁) (hino : a.stIno = s.inodeCnt)
    (hvfs : VfsAdds (s.vfs.allocAsset a) vfs s.vfs.assetCnt) :
    NodeAdded s { s₁ with vfs := vfs } buffer a := by
  unfold RamfsState.addHandle at hadd
  split_ifs at hadd with hroom
  cases hadd
  exact ⟨hroom, rfl, rfl, rfl, rfl, rfl, hvfs, hino⟩

namespace NodeAdded

variable {s s' : RamfsState} {buffer : Option Pointer} {a : Asset} {n h : ℕ}

theorem assetOf_old (hadd : NodeAdded s s' buffer a) (hinv : RamfsInv s) (hn : n < s.vfs.nodeCnt) :
    (s'.vfs.nodes n).asset = (s.vfs.nodes n).asset ∧ s'.assetOf n = s.assetOf n := by
  have hlt := hinv.ok.assets n hn
  have hasset : (s'.vfs.nodes n).asset = (s.vfs.nodes n).asset := hadd.vfs.grows.asset n hn
  refine ⟨hasset, ?_⟩
  rw [RamfsState.assetOf, hasset,
    hadd.vfs.grows.assets _ (Nat.lt_succ_of_lt hlt)]
  exact (VfsGrows.allocAsset s.vfs a).assets _ hlt

theorem assetOf_new (hadd : NodeAdded s s' buffer a) (hn : s'.IsRamfs n) (hle : s.vfs.nodeCnt ≤ n) :
    (s'.vfs.nodes n).asset = s.vfs.assetCnt ∧ s'.assetOf n = a := by
  rcases hadd.vfs.fresh n hn.1 hle with heq | ⟨-, hplain⟩
  · refine ⟨heq, ?_⟩
    rw [RamfsState.assetOf, heq, hadd.vfs.grows.assets _ (Nat.lt_succ_self _)]
    exact update_self _ _ _
  · exact absurd hn.2 (by rw [RamfsState.assetOf, hplain]; decide)

theorem isRamfs_old (hadd : NodeAdded s s' buffer a) (hinv : RamfsInv s) (hn : n < s.vfs.nodeCnt) :
    s'.IsRamfs n ↔ s.IsRamfs n := by
  have hmore := hadd.vfs.grows.nodeCnt
  unfold RamfsState.IsRamfs
  rw [(hadd.assetOf_old hinv hn).2]
  exact and_congr_left' (iff_of_true (lt_of_lt_of_le hn hmore) hn)

theorem inv (hadd : NodeAdded s s' buffer a) (hinv : RamfsInv s) : RamfsInv s' := by
  have hkey : s.inodeCnt ∉ keys s.nodeList.slots := by
    intro hmem
    obtain ⟨h, hentry⟩ := mem_keys_iff.mp hmem
    obtain ⟨hlt, heq⟩ := (hinv.table _ _).mp hentry
    exact hinv.number_fresh hlt heq.symm
  obtain ⟨hgood, hperm⟩ := hashTablePush_fresh (d := s.handleCnt) hinv.good hkey
  have hthree := hinv.three
  have hmore : s.vfs.nodeCnt ≤ s'.vfs.nodeCnt := hadd.vfs.grows.nodeCnt
  -- A node of ramfs from the fourth on has its old number, or the new one.
  have hcases : ∀ n, s'.IsRamfs n → 3 ≤ n →
      (n < s.vfs.nodeCnt ∧ s.IsRamfs n ∧ s'.assetOf n = s.assetOf n) ∨
        (s.vfs.nodeCnt ≤ n ∧ s'.assetOf n = a) := by
    intro n hn _
    by_cases hlt : n < s.vfs.nodeCnt
    · exact .inl ⟨hlt, (hadd.isRamfs_old hinv hlt).mp hn, (hadd.assetOf_old hinv hlt).2⟩
    · exact .inr ⟨Nat.le_of_not_lt hlt, (hadd.assetOf_new hn (Nat.le_of_not_lt hlt)).2⟩
  refine ⟨hadd.vfs.ok, ?_, fun k h => ?_, ?_, ?_, by omega, fun n hn => ?_, fun n hn => ?_,
    fun n hn h3 => ?_, fun n m hn hm hn3 hm3 heq => ?_⟩
  · rw [hadd.nodeList]
    exact hgood
  · rw [hadd.nodeList, hperm.mem_iff, List.mem_cons, hinv.table, hadd.handleCnt, Prod.mk.injEq,
      hinv.cnt]
    constructor
    · rintro (⟨rfl, rfl⟩ | ⟨hlt, rfl⟩)
      · exact ⟨Nat.lt_succ_self _, rfl⟩
      · exact ⟨Nat.lt_succ_of_lt hlt, rfl⟩
    · rintro ⟨hlt, rfl⟩
      by_cases heq : h = s.handleCnt
      · exact .inl ⟨by rw [heq], heq⟩
      · exact .inr ⟨by omega, rfl⟩
  · rw [hadd.inodeCnt, hadd.handleCnt, hinv.cnt, ofNat_add]
    rfl
  · rw [hadd.handleCnt]
    exact hadd.room
  · rw [(hadd.assetOf_old hinv (by omega)).2]
    exact hinv.rootZero n hn
  · rw [(hadd.assetOf_old hinv (by omega)).1]
    exact hinv.rootAsset n hn
  · rw [hadd.handleCnt]
    by_cases hlt : n < s.vfs.nodeCnt
    · obtain ⟨hsame, hasset⟩ := hadd.assetOf_old hinv hlt
      obtain ⟨hge, h, hh, hino⟩ := hinv.numbered n ((hadd.isRamfs_old hinv hlt).mp hn) h3
      rw [hsame, hasset]
      exact ⟨hge, h, Nat.lt_succ_of_lt hh, hino⟩
    · obtain ⟨hsame, hasset⟩ := hadd.assetOf_new hn (Nat.le_of_not_lt hlt)
      have hroot := hinv.ok.assets 2 (by omega)
      rw [hinv.rootAsset 2 (by omega)] at hroot
      rw [hsame, hasset]
      exact ⟨hroot, s.handleCnt, Nat.lt_succ_self _, hadd.stIno.trans hinv.cnt⟩
  · rcases hcases n hn hn3 with ⟨hlt, hold, hsame⟩ | ⟨hle, hnew⟩
    · rcases hcases m hm hm3 with ⟨-, holdm, hsamem⟩ | ⟨-, hnewm⟩
      · rw [hsame, hsamem] at heq
        exact hinv.unique n m hold holdm hn3 hm3 heq
      · obtain ⟨-, h, hh, hino⟩ := hinv.numbered n hold hn3
        rw [hsame, hnewm, hino, hadd.stIno] at heq
        exact absurd heq (hinv.number_fresh hh)
    · rcases hcases m hm hm3 with ⟨-, holdm, hsamem⟩ | ⟨hlem, -⟩
      · obtain ⟨-, h, hh, hino⟩ := hinv.numbered m holdm hm3
        rw [hnew, hsamem, hino, hadd.stIno] at heq
        exact absurd heq.symm (hinv.number_fresh hh)
      · exact hadd.vfs.once n hn.1 m hm.1 hle hlem (hadd.assetOf_new hn hle).1
          (hadd.assetOf_new hm hlem).1

end NodeAdded

/-! ## What a write or a change of the size does -/

structure InPlace (s s' : RamfsState) (handle : ℕ) (size size' : ℤ) : Prop where
  buffer : (s'.handles handle).buffer = (s.handles handle).buffer
  blockCnt : s'.heap.blockCnt = s.heap.blockCnt
  slab : ∀ b, (s'.heap.blocks b).slab = (s.heap.blocks b).slab
  length : ∀ b, (s'.heap.blocks b).bytes.length = (s.heap.blocks b).bytes.length
  others : ∀ b, (∀ p ∈ (s.handles handle).buffer, p.block ≠ b) →
    s'.heap.blocks b = s.heap.blocks b
  archive : ∀ p ∈ (s.handles handle).buffer, (s.heap.blocks p.block).slab = false →
    (size' = size ∨ size' = 0) ∧
      ∀ i cnt : ℕ, i + cnt ≤ p.offset ∨ p.offset + size ≤ i →
        slice (s'.heap.blocks p.block).bytes i cnt = slice (s.heap.blocks p.block).bytes i cnt

structure MovedBuffer (s s' : RamfsState) (handle : ℕ) : Prop where
  blockCnt : s.heap.blockCnt ≤ s'.heap.blockCnt
  blocks : ∀ b < s.heap.blockCnt, s'.heap.blocks b = s.heap.blocks b
  buffer : ∀ p ∈ (s'.handles handle).buffer, s.heap.blockCnt ≤ p.block ∧
    p.block < s'.heap.blockCnt ∧ (s'.heap.blocks p.block).slab = true

structure CallEffect (s s' : RamfsState) (asset : ℕ) (size' : ℤ) : Prop where
  vfs : s'.vfs = (s.setSize asset size').vfs
  nodeList : s'.nodeList = s.nodeList
  inodeCnt : s'.inodeCnt = s.inodeCnt
  handleCnt : s'.handleCnt = s.handleCnt

structure FileEffect (s s' : RamfsState) (asset handle : ℕ) (size' : ℤ) : Prop
    extends CallEffect s s' asset size' where
  handles : ∀ k ≠ handle, s'.handles k = s.handles k
  memory : InPlace s s' handle (s.vfs.assets asset).stSize size' ∨ MovedBuffer s s' handle

section Effects

variable {s s' : RamfsState} {asset handle : ℕ}

theorem sizeT_eq_zero {n : ℤ} (hlow : -2 ^ 63 ≤ n) (hhigh : n < 2 ^ 63) (h : sizeT n = 0) :
    n = 0 := by
  unfold sizeT at h
  omega

theorem reallocBuffer_effect {size : ℤ} {s₁ : RamfsState} (hlow : -2 ^ 63 ≤ size)
    (hhigh : size < 2 ^ 63)
    (h : (s.setSize asset size).reallocBuffer handle (sizeT size) = some s₁) :
    (∃ buffer heap, s₁ = (s.setSize asset size).setBuffer handle buffer heap) ∧
      ((s₁.heap = s.heap ∧ (s₁.handles handle).buffer = (s.handles handle).buffer ∧
          ∀ p ∈ (s.handles handle).buffer, (s.heap.blocks p.block).slab = false → size = 0) ∨
        MovedBuffer s s₁ handle) := by
  obtain ⟨⟨buffer, heap⟩, hrealloc, rfl⟩ := map_eq_some_iff.mp h
  refine ⟨⟨buffer, heap, rfl⟩, ?_⟩
  have hbuffer := buffer_setBuffer (s.setSize asset size) handle buffer heap
  rcases realloc_cases hrealloc with ⟨rfl, rfl, hkept⟩ | ⟨rfl, rfl⟩ | ⟨bytes, rfl, rfl⟩
  · refine .inl ⟨rfl, hbuffer, fun p hp hslab => ?_⟩
    -- Memory without an object is large enough for nothing.
    have hsize : sizeT size ≤ s.heap.objectSize p := hkept p hp
    rw [Memory.objectSize, hslab] at hsize
    exact sizeT_eq_zero hlow hhigh (Nat.le_zero.mp hsize)
  · refine .inr ⟨le_refl _, fun _ _ => rfl, fun p hp => ?_⟩
    rw [hbuffer] at hp
    simp at hp
  · refine .inr ⟨Nat.le_succ _, fun b hb => ?_, fun p hp => ?_⟩
    · exact push_old s.heap _ hb
    · rw [hbuffer] at hp
      cases hp
      refine ⟨le_refl _, Nat.lt_succ_self _, ?_⟩
      exact congrArg Block.slab (push_new s.heap ⟨bytes, true⟩)

theorem store_effect {heap heap' : Memory} {buffer : Option Pointer} {off : ℕ}
    {data : List (BitVec 8)} (h : heap.store buffer off data = some heap') :
    heap'.blockCnt = heap.blockCnt ∧ (∀ b, (heap'.blocks b).slab = (heap.blocks b).slab) ∧
      (∀ b, (heap'.blocks b).bytes.length = (heap.blocks b).bytes.length) ∧
      (∀ b, (∀ p ∈ buffer, p.block ≠ b) → heap'.blocks b = heap.blocks b) ∧
      ∀ p ∈ buffer, ∀ i cnt : ℕ, i + cnt ≤ p.offset + off ∨ p.offset + off + data.length ≤ i →
        slice (heap'.blocks p.block).bytes i cnt = slice (heap.blocks p.block).bytes i cnt := by
  rcases store_cases h with rfl | ⟨p, rfl, -, hle, rfl⟩
  · exact ⟨rfl, fun _ => rfl, fun _ => rfl, fun _ _ => rfl, fun _ _ _ _ _ => rfl⟩
  · have hnat : ((p.offset : ℤ) + off).toNat = p.offset + off := by omega
    have hfit : p.offset + off + data.length ≤ (heap.blocks p.block).bytes.length := by omega
    refine ⟨rfl, fun b => ?_, fun b => ?_, fun b hb => ?_, fun q hq i cnt hout => ?_⟩
    · by_cases hb : b = p.block
      · subst hb
        dsimp only
        rw [update_self]
      · dsimp only
        rw [update_of_ne hb]
    · by_cases hb : b = p.block
      · subst hb
        dsimp only
        rw [update_self]
        rw [hnat, length_splice hfit]
      · dsimp only
        rw [update_of_ne hb]
    · exact update_of_ne (fun heq => hb p rfl heq.symm) _ _
    · cases hq
      dsimp only
      rw [update_self]
      exact slice_splice_of_disjoint hfit hout

theorem setSize_self (s : RamfsState) (asset : ℕ) :
    s.setSize asset (s.vfs.assets asset).stSize = s := by
  unfold RamfsState.setSize
  rw [update_eq_self]

theorem ramfsWrite_effect {off : ℕ} {data : List (BitVec 8)} {r : ℤ}
    (hfind : s.find asset = some handle) (hoff : (off : ℤ) + data.length < 2 ^ 63)
    (h : ramfsWrite s asset off data = some (r, s')) :
    ∃ size', CallEffect s s' asset size' ∧
      ((∀ p ∈ (s.handles handle).buffer, (s.heap.blocks p.block).slab = false →
        0 ≤ (s.vfs.assets asset).stSize) → FileEffect s s' asset handle size') := by
  unfold ramfsWrite at h
  rw [hfind] at h
  obtain ⟨s₁, hgrown, hrest⟩ := bind_eq_some_iff.mp h
  obtain ⟨heap, hstore, hresult⟩ := map_eq_some_iff.mp hrest
  cases hresult
  obtain ⟨hcnt, hslab, hlength, hothers, hbytes⟩ := store_effect hstore
  split_ifs at hgrown with hlong
  · obtain ⟨⟨buffer, heap₁, rfl⟩, hmemory⟩ := reallocBuffer_effect (by omega) hoff hgrown
    refine ⟨off + data.length, ⟨rfl, rfl, rfl, rfl⟩, fun hnonneg =>
      ⟨⟨rfl, rfl, rfl, rfl⟩, fun k hk => update_of_ne hk _ _, ?_⟩⟩
    rcases hmemory with ⟨hheap, hbuffer, hempty⟩ | hmoved
    · -- The bytes of an object may be written; elsewhere the file would be empty.
      refine .inl ⟨hbuffer, hcnt.trans (congrArg Memory.blockCnt hheap), fun b => ?_, fun b => ?_,
        fun b hb => ?_, fun p hp hplain => ?_⟩
      · rw [hslab b, hheap]
      · rw [hlength b, hheap]
      · rw [hothers b (by rw [hbuffer]; exact hb), hheap]
      · have hzero := hempty p hp hplain
        have hsize := hnonneg p hp hplain
        omega
    · refine .inr ⟨hcnt ▸ hmoved.blockCnt, fun b hb => ?_, fun p hp => ?_⟩
      · rw [← hmoved.blocks b hb]
        refine hothers b fun p hp => ?_
        have hnew := (hmoved.buffer p hp).1
        omega
      · obtain ⟨hge, hlt, hobject⟩ := hmoved.buffer p hp
        exact ⟨hge, hcnt ▸ hlt, (hslab p.block).trans hobject⟩
  · cases hgrown
    have hcall : CallEffect s { s with heap := heap } asset (s.vfs.assets asset).stSize :=
      ⟨by rw [setSize_self], rfl, rfl, rfl⟩
    refine ⟨_, hcall, fun _ => ⟨hcall, fun _ _ => rfl, .inl ⟨rfl, hcnt, hslab, hlength, hothers,
      fun p hp _ => ⟨.inl rfl, fun i cnt hout => ?_⟩⟩⟩⟩
    exact hbytes p hp i cnt (by omega)

theorem ramfsResize_effect {cnt r : ℤ} (hfind : s.find asset = some handle)
    (hlow : -2 ^ 63 ≤ cnt) (hhigh : cnt < 2 ^ 63) (h : ramfsResize s asset cnt = some (r, s')) :
    FileEffect s s' asset handle cnt := by
  unfold ramfsResize at h
  rw [hfind] at h
  obtain ⟨s₁, hrealloc, hresult⟩ := map_eq_some_iff.mp h
  cases hresult
  obtain ⟨⟨buffer, heap₁, rfl⟩, hmemory⟩ := reallocBuffer_effect hlow hhigh hrealloc
  refine ⟨⟨rfl, rfl, rfl, rfl⟩, fun k hk => update_of_ne hk _ _, ?_⟩
  rcases hmemory with ⟨hheap, hbuffer, hempty⟩ | hmoved
  · refine .inl ⟨hbuffer, congrArg Memory.blockCnt hheap, fun b => ?_, fun b => ?_, fun b _ => ?_,
      fun p hp hplain => ⟨.inr (hempty p hp hplain), fun i n _ => ?_⟩⟩
    · rw [hheap]
    · rw [hheap]
    · rw [hheap]
    · rw [hheap]
  · exact .inr hmoved

end Effects

namespace CallEffect

variable {s s' : RamfsState} {asset n m : ℕ} {size' : ℤ}

theorem assetOf_eq (h : CallEffect s s' asset size') (n : ℕ) : s'.assetOf n = { s.assetOf n with
      stSize := if (s.vfs.nodes n).asset = asset then size' else (s.assetOf n).stSize } := by
  have hnodes : s'.vfs.nodes n = s.vfs.nodes n := by
    rw [h.vfs]
    rfl
  rw [RamfsState.assetOf, RamfsState.assetOf, h.vfs]
  unfold RamfsState.setSize
  dsimp only
  split_ifs with heq
  · rw [heq, update_self]
  · rw [update_of_ne heq]

theorem isRamfs_iff (h : CallEffect s s' asset size') : s'.IsRamfs n ↔ s.IsRamfs n := by
  unfold RamfsState.IsRamfs
  rw [h.assetOf_eq, h.vfs]
  rfl

theorem handleOf_eq (h : CallEffect s s' asset size') (n : ℕ) : s'.handleOf n = s.handleOf n := by
  have hino : (s'.assetOf n).stIno = (s.assetOf n).stIno := by rw [h.assetOf_eq]
  unfold RamfsState.handleOf RamfsState.find
  rw [h.nodeList]
  exact congrArg _ hino

theorem inv (h : CallEffect s s' asset size') (hinv : RamfsInv s) : RamfsInv s' := by
  have hnodes : s'.vfs.nodes = s.vfs.nodes := by rw [h.vfs]; rfl
  have hcnt : s'.vfs.nodeCnt = s.vfs.nodeCnt := by rw [h.vfs]; rfl
  have hassets : s'.vfs.assetCnt = s.vfs.assetCnt := by rw [h.vfs]; rfl
  have hino : ∀ n, (s'.assetOf n).stIno = (s.assetOf n).stIno := fun n => by rw [h.assetOf_eq]
  refine ⟨⟨?_, ?_, ?_, ?_, ?_⟩, ?_, fun k i => ?_, ?_, ?_, ?_, fun n hn => ?_, fun n hn => ?_,
    fun n hn h3 => ?_, fun n m hn hm hn3 hm3 heq => ?_⟩
  · exact hcnt ▸ hinv.ok.root
  · rw [hnodes, hcnt]
    exact hinv.ok.children
  · rw [hnodes, hcnt]
    exact hinv.ok.parents
  · rw [hnodes, hcnt]
    exact hinv.ok.unmounted
  · rw [hnodes, hcnt, hassets]
    exact hinv.ok.assets
  · rw [h.nodeList]
    exact hinv.good
  · rw [h.nodeList, h.handleCnt]
    exact hinv.table k i
  · rw [h.inodeCnt, h.handleCnt]
    exact hinv.cnt
  · rw [h.handleCnt]
    exact hinv.limit
  · exact hcnt ▸ hinv.three
  · rw [hino]
    exact hinv.rootZero n hn
  · rw [hnodes]
    exact hinv.rootAsset n hn
  · rw [hnodes, hino, h.handleCnt]
    exact hinv.numbered n (h.isRamfs_iff.mp hn) h3
  · rw [hino, hino] at heq
    exact hinv.unique n m (h.isRamfs_iff.mp hn) (h.isRamfs_iff.mp hm) hn3 hm3 heq

end CallEffect

end Pastoral
