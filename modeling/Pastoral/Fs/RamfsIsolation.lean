import Pastoral.Fs.RamfsNodes

/-!
# Isolation of files

When a write through one node of ramfs shows in what is read through another one.

## Main results

* `nodes_isolated_iff`: nodes have handles of their own unless both are number zero
-/

open Option Padded Probe Transition

namespace Pastoral

/-! ## Where the buffers lie -/

structure LayoutInv (s : RamfsState) : Prop where
  inside : ∀ h < s.handleCnt, ∀ p ∈ (s.handles h).buffer, p.block < s.heap.blockCnt
  objects : ∀ h < s.handleCnt, ∀ k < s.handleCnt, h ≠ k → ∀ p ∈ (s.handles h).buffer,
    ∀ q ∈ (s.handles k).buffer, (s.heap.blocks p.block).slab = true → p.block ≠ q.block
  ranges : ∀ n m h k, s.IsRamfs n → s.IsRamfs m → s.handleOf n = some h → s.handleOf m = some k →
    h ≠ k → ∀ p ∈ (s.handles h).buffer, ∀ q ∈ (s.handles k).buffer, p.block = q.block →
    p.offset + (s.assetOf n).stSize ≤ q.offset ∨ q.offset + (s.assetOf m).stSize ≤ p.offset
  sizes : ∀ n h, s.IsRamfs n → s.handleOf n = some h → ∀ p ∈ (s.handles h).buffer,
    (s.heap.blocks p.block).slab = false → 0 ≤ (s.assetOf n).stSize
  idle : s.handleCnt = 0 → ∀ n < 3, (s.assetOf n).stSize = 0

namespace FileEffect

variable {s s' : RamfsState} {asset handle n m : ℕ} {size' : ℤ}

variable (h : FileEffect s s' asset handle size')

include h

theorem load_other (hinv : RamfsInv s)
    (hlayout : LayoutInv s) (hn : s.IsRamfs n) (hm : s.IsRamfs m)
    (hasset : (s.vfs.nodes n).asset = asset) (hhandle : s.handleOf n = some handle) {k : ℕ}
    (hk : s.handleOf m = some k) (hne : k ≠ handle) {off len : ℕ}
    (hle : (off : ℤ) + len ≤ (s.assetOf m).stSize) :
    s'.heap.load (s.handles k).buffer off len = s.heap.load (s.handles k).buffer off len := by
  have hlt := (hinv.find_iff.mp hhandle).1
  have hklt := (hinv.find_iff.mp hk).1
  cases hq : (s.handles k).buffer with
  | none => rfl
  | some q =>
    rcases h.memory with hplace | hmoved
    · by_cases hsame : ∀ p ∈ (s.handles handle).buffer, p.block ≠ q.block
      · have hblock := hplace.others q.block hsame
        exact load_congr (by rw [hblock]) (by rw [hblock])
      · -- Both buffers are in one archive, in parts that do not overlap.
        obtain ⟨p, hp⟩ := not_forall.mp hsame
        obtain ⟨hpmem, hpq⟩ := Classical.not_imp.mp hp
        have heq := not_not.mp hpq
        have hplain : (s.heap.blocks p.block).slab = false := by
          refine Bool.eq_false_iff.mpr fun hslab => ?_
          exact hlayout.objects handle hlt k hklt hne.symm p hpmem q hq hslab heq
        have hrange := hlayout.ranges n m handle k hn hm hhandle hk hne.symm p hpmem q hq heq
        have hsize : s.assetOf n = s.vfs.assets asset := by rw [RamfsState.assetOf, hasset]
        have hbytes := (hplace.archive p hpmem hplain).2 (q.offset + off) len
        rw [heq, ← hsize] at hbytes
        refine load_congr (hbytes ?_) (hplace.length q.block)
        omega
    · have hblock := hmoved.blocks q.block (hlayout.inside k hklt q hq)
      exact load_congr (by rw [hblock]) (by rw [hblock])

theorem read_other (hinv : RamfsInv s)
    (hlayout : LayoutInv s) (hn : s.IsRamfs n) (hm : s.IsRamfs m) (hne : n ≠ m)
    (hasset : (s.vfs.nodes n).asset = asset) (hhandle : s.handleOf n = some handle)
    (hother : s.handleOf m ≠ some handle) {off cnt : ℕ} (hend : off + cnt < 2 ^ 63) :
    ramfsRead s' (s'.vfs.nodes m).asset off cnt = ramfsRead s (s.vfs.nodes m).asset off cnt := by
  refine ramfsRead_congr (h.handleOf_eq m) ?_ (fun k hk i len hle => ?_) hend
  · have hdiff : (s.vfs.nodes m).asset ≠ asset := fun heq =>
      hne (hinv.asset_inj hn hm (hasset.trans heq.symm))
    exact (congrArg Asset.stSize (h.assetOf_eq m)).trans (if_neg hdiff)
  · have hkne : k ≠ handle := fun heq => hother (heq ▸ hk)
    rw [h.handles k hkne]
    exact h.load_other hinv hlayout hn hm hasset hhandle hk hkne hle

theorem blockCnt_le : s.heap.blockCnt ≤ s'.heap.blockCnt := by
  rcases h.memory with hplace | hmoved
  · exact le_of_eq hplace.blockCnt.symm
  · exact hmoved.blockCnt

theorem slab_eq {b : ℕ} (hb : b < s.heap.blockCnt) :
    (s'.heap.blocks b).slab = (s.heap.blocks b).slab := by
  rcases h.memory with hplace | hmoved
  · exact hplace.slab b
  · rw [hmoved.blocks b hb]

theorem buffer_cases (hlayout : LayoutInv s) {k : ℕ}
    (hk : k < s.handleCnt) {p : Pointer} (hp : p ∈ (s'.handles k).buffer) :
    (p ∈ (s.handles k).buffer ∧ p.block < s.heap.blockCnt) ∨
      (k = handle ∧ s.heap.blockCnt ≤ p.block ∧ p.block < s'.heap.blockCnt ∧
        (s'.heap.blocks p.block).slab = true) := by
  by_cases hkh : k = handle
  · subst hkh
    rcases h.memory with hplace | hmoved
    · rw [hplace.buffer] at hp
      exact .inl ⟨hp, hlayout.inside k hk p hp⟩
    · exact .inr ⟨rfl, hmoved.buffer p hp⟩
  · rw [h.handles k hkh] at hp
    exact .inl ⟨hp, hlayout.inside k hk p hp⟩

theorem shrinks (hlayout : LayoutInv s)
    (hasset : (s.vfs.nodes n).asset = asset) (hhandle : s.handleOf n = some handle) {k : ℕ}
    (hm : s.IsRamfs m) (hk : s.handleOf m = some k) {p : Pointer} (hp : p ∈ (s.handles k).buffer)
    (hp' : p ∈ (s'.handles k).buffer) (hin : p.block < s.heap.blockCnt)
    (hplain : (s.heap.blocks p.block).slab = false) :
    0 ≤ (s'.assetOf m).stSize ∧ (s'.assetOf m).stSize ≤ (s.assetOf m).stSize := by
  have hsize := congrArg Asset.stSize (h.assetOf_eq m)
  have hpos := hlayout.sizes m k hm hk p hp hplain
  dsimp only at hsize
  split_ifs at hsize with heq
  · -- The size that has changed: the handle is the one of the call.
    have hsame : s.handleOf m = s.handleOf n := by
      rw [RamfsState.handleOf, RamfsState.handleOf, heq, hasset]
    obtain rfl : k = handle := some.inj (hk.symm.trans (hsame.trans hhandle))
    have hold : s.assetOf m = s.vfs.assets asset := by rw [RamfsState.assetOf, heq]
    rcases h.memory with hplace | hmoved
    · rw [hold] at hpos ⊢
      rcases (hplace.archive p hp hplain).1 with hkept | hzero <;> omega
    · have hnew := (hmoved.buffer p hp').1
      omega
  · omega

theorem layout (hinv : RamfsInv s) (hlayout : LayoutInv s)
    (hasset : (s.vfs.nodes n).asset = asset)
    (hhandle : s.handleOf n = some handle) : LayoutInv s' := by
  have hlt := (hinv.find_iff.mp hhandle).1
  have hcnt := h.blockCnt_le
  refine ⟨fun k hk p hp => ?_, fun k hk l hl hne p hp q hq hobj heq => ?_,
    fun a b k l ha hb hka hlb hne p hp q hq heq => ?_, fun a k ha hka p hp hplain => ?_,
    fun hzero => ?_⟩
  · rw [h.handleCnt] at hk
    rcases h.buffer_cases hlayout hk hp with ⟨-, hin⟩ | ⟨-, -, hin, -⟩
    · exact lt_of_lt_of_le hin hcnt
    · exact hin
  · rw [h.handleCnt] at hk hl
    rcases h.buffer_cases hlayout hk hp with ⟨hpold, hpin⟩ | ⟨rfl, hpnew, -⟩
    · rcases h.buffer_cases hlayout hl hq with ⟨hqold, -⟩ | ⟨-, hqnew, -⟩
      · rw [h.slab_eq hpin] at hobj
        exact hlayout.objects k hk l hl hne p hpold q hqold hobj heq
      · omega
    · rcases h.buffer_cases hlayout hl hq with ⟨-, hqin⟩ | ⟨rfl, -⟩
      · omega
      · exact hne rfl
  · rw [h.handleOf_eq] at hka hlb
    rw [h.isRamfs_iff] at ha hb
    have hk := (hinv.find_iff.mp hka).1
    have hl := (hinv.find_iff.mp hlb).1
    rcases h.buffer_cases hlayout hk hp with ⟨hpold, hpin⟩ | ⟨rfl, hpnew, -⟩
    · rcases h.buffer_cases hlayout hl hq with ⟨hqold, hqin⟩ | ⟨-, hqnew, -⟩
      · -- Two handles have buffers in one block, which is in no slab then.
        have hplain : (s.heap.blocks p.block).slab = false := by
          refine Bool.eq_false_iff.mpr fun hobj => ?_
          exact hlayout.objects k hk l hl hne p hpold q hqold hobj heq
        have hrange := hlayout.ranges a b k l ha hb hka hlb hne p hpold q hqold heq
        have hsa := h.shrinks hlayout hasset hhandle ha hka hpold hp hpin hplain
        have hsb := h.shrinks hlayout hasset hhandle hb hlb hqold hq hqin (heq ▸ hplain)
        omega
      · omega
    · rcases h.buffer_cases hlayout hl hq with ⟨-, hqin⟩ | ⟨rfl, -⟩
      · omega
      · exact absurd rfl hne
  · rw [h.handleOf_eq] at hka
    rw [h.isRamfs_iff] at ha
    rcases h.buffer_cases hlayout (hinv.find_iff.mp hka).1 hp with ⟨hpold, hpin⟩ | ⟨-, -, -, hobj⟩
    · rw [h.slab_eq hpin] at hplain
      exact (h.shrinks hlayout hasset hhandle ha hka hpold hp hpin hplain).1
    · rw [hobj] at hplain
      exact absurd hplain (by decide)
  · rw [h.handleCnt] at hzero
    omega

end FileEffect

/-! ## New nodes and the layout -/

def Behind (s : RamfsState) (block : ℕ) (limit : ℤ) : Prop :=
  ∀ n h, s.IsRamfs n → s.handleOf n = some h → ∀ p ∈ (s.handles h).buffer, p.block = block →
    p.offset + (s.assetOf n).stSize ≤ limit

namespace NodeAdded

variable {s s' : RamfsState} {buffer : Option Pointer} {a : Asset} {n k : ℕ}

variable (hadd : NodeAdded s s' buffer a)

include hadd

theorem buffer_old (hk : k < s.handleCnt) : s'.handles k = s.handles k := by
  rw [hadd.handles]
  exact Function.update_of_ne (ne_of_lt hk) _ _

theorem buffer_new : (s'.handles s.handleCnt).buffer = buffer := by
  rw [hadd.handles, Function.update_self]

theorem shows (hinv : RamfsInv s) {asset handle : ℕ}
    {file : List (BitVec 8)} (hlt : asset < s.vfs.assetCnt) (h : Shows s asset handle file) :
    Shows s' asset handle file := by
  have hasset : s'.vfs.assets asset = s.vfs.assets asset := by
    rw [hadd.vfs.grows.assets _ (Nat.lt_succ_of_lt hlt)]
    exact (VfsGrows.allocAsset s.vfs a).assets _ hlt
  obtain ⟨hhandle, hino⟩ := hinv.find_iff.mp h.found
  refine ⟨(hadd.inv hinv).find_iff.mpr ⟨?_, ?_⟩, ?_, ?_⟩
  · rw [hadd.handleCnt]
    exact Nat.lt_succ_of_lt hhandle
  · rw [hasset]
    exact hino
  · rw [hasset]
    exact h.size
  · rw [hadd.heap, hadd.buffer_old hhandle]
    exact h.buffer

theorem shows_new (hinv : RamfsInv s) (hn : s'.IsRamfs n)
    (hle : s.vfs.nodeCnt ≤ n) {file : List (BitVec 8)} (hsize : a.stSize = file.length)
    (hholds : HoldsFile s.heap buffer file) :
    Shows s' (s'.vfs.nodes n).asset s.handleCnt file := by
  have hnew := (hadd.assetOf_new hn hle).2
  have hino : (s'.assetOf n).stIno = BitVec.ofNat 64 s.handleCnt := by
    rw [hnew, hadd.stIno, hinv.cnt]
  refine ⟨(hadd.inv hinv).find_iff.mpr ⟨?_, hino⟩, (congrArg Asset.stSize hnew).trans hsize, ?_⟩
  · rw [hadd.handleCnt]
    exact Nat.lt_succ_self _
  · rw [hadd.heap, hadd.buffer_new]
    exact hholds

theorem handleOf_cases (hinv : RamfsInv s) (hn : s'.IsRamfs n) (hk : s'.handleOf n = some k) :
    (k < s.handleCnt ∧ s.IsRamfs n ∧ s.handleOf n = some k ∧ s'.assetOf n = s.assetOf n) ∨
      (k = s.handleCnt ∧ ((n < 3 ∧ s.handleCnt = 0 ∧ s'.assetOf n = s.assetOf n) ∨
        s'.assetOf n = a)) := by
  have hinv' := hadd.inv hinv
  obtain ⟨hlt, hino⟩ := hinv'.find_iff.mp hk
  change (s'.assetOf n).stIno = _ at hino
  rw [hadd.handleCnt] at hlt
  have hbound := hinv'.lt_two_pow (le_of_eq hadd.handleCnt.symm)
  by_cases hold : n < s.vfs.nodeCnt
  · have hsame := (hadd.assetOf_old hinv hold).2
    have hram := (hadd.isRamfs_old hinv hold).mp hn
    by_cases hkold : k < s.handleCnt
    · refine .inl ⟨hkold, hram, hinv.find_iff.mpr ⟨hkold, ?_⟩, hsame⟩
      rw [hsame] at hino
      exact hino
    · -- The number is the new one, so it is zero.
      have hkeq : k = s.handleCnt := by omega
      refine .inr ⟨hkeq, .inl ?_⟩
      by_cases h3 : n < 3
      · rw [hsame, hinv.rootZero n h3] at hino
        have hzero := ofNat_inj_of_lt (by decide) (by omega) hino
        exact ⟨h3, by omega, hsame⟩
      · obtain ⟨-, h, hh, hnum⟩ := hinv.numbered n hram (Nat.le_of_not_lt h3)
        rw [hsame, hnum] at hino
        have heq := ofNat_inj_of_lt (by omega) (by omega) hino
        omega
  · have hnew := (hadd.assetOf_new hn (Nat.le_of_not_lt hold)).2
    rw [hnew, hadd.stIno, hinv.cnt] at hino
    have heq := ofNat_inj_of_lt (by omega) (by omega) hino
    exact .inr ⟨heq.symm, .inr hnew⟩

theorem size_new (hinv : RamfsInv s) (hlayout : LayoutInv s)
    (hn : s'.IsRamfs n) (hk : s'.handleOf n = some s.handleCnt) (ha : 0 ≤ a.stSize) :
    0 ≤ (s'.assetOf n).stSize ∧ (s'.assetOf n).stSize ≤ a.stSize := by
  rcases hadd.handleOf_cases hinv hn hk with ⟨hlt, -⟩ | ⟨-, ⟨h3, hzero, hsame⟩ | hnew⟩
  · exact absurd hlt (lt_irrefl _)
  · rw [hsame, hlayout.idle hzero n h3]
    exact ⟨le_refl _, ha⟩
  · rw [hnew]
    exact ⟨ha, le_refl _⟩

theorem layout (hinv : RamfsInv s) (hlayout : LayoutInv s)
    (hbuffer : ∀ p ∈ buffer, p.block < s.heap.blockCnt ∧
      (s.heap.blocks p.block).slab = false ∧ 0 ≤ a.stSize ∧ Behind s p.block p.offset) :
    LayoutInv s' := by
  -- A buffer is an old one, or the one of the new handle.
  have hcases : ∀ h < s'.handleCnt, ∀ p ∈ (s'.handles h).buffer,
      (h < s.handleCnt ∧ p ∈ (s.handles h).buffer) ∨ (h = s.handleCnt ∧ p ∈ buffer) := by
    intro h hh p hp
    rw [hadd.handleCnt] at hh
    by_cases hold : h < s.handleCnt
    · rw [hadd.buffer_old hold] at hp
      exact .inl ⟨hold, hp⟩
    · obtain rfl : h = s.handleCnt := by omega
      rw [hadd.buffer_new] at hp
      exact .inr ⟨rfl, hp⟩
  have hlt : ∀ n h, s'.handleOf n = some h → h < s'.handleCnt :=
    fun n h hh => ((hadd.inv hinv).find_iff.mp hh).1
  refine ⟨fun h hh p hp => ?_, fun h hh k hk hne p hp q hq hobj heq => ?_,
    fun n m h k hn hm hhn hkm hne p hp q hq heq => ?_, fun n h hn hhn p hp hplain => ?_,
    fun hzero => ?_⟩
  · rw [hadd.heap]
    rcases hcases h hh p hp with ⟨hold, hmem⟩ | ⟨-, hmem⟩
    · exact hlayout.inside h hold p hmem
    · exact (hbuffer p hmem).1
  · rw [hadd.heap] at hobj
    rcases hcases h hh p hp with ⟨hold, hmem⟩ | ⟨-, hmem⟩
    · rcases hcases k hk q hq with ⟨holdk, hmemk⟩ | ⟨-, hmemk⟩
      · exact hlayout.objects h hold k holdk hne p hmem q hmemk hobj heq
      · rw [heq, (hbuffer q hmemk).2.1] at hobj
        exact absurd hobj (by decide)
    · rw [(hbuffer p hmem).2.1] at hobj
      exact absurd hobj (by decide)
  · rcases hcases h (hlt n h hhn) p hp with ⟨hold, hmem⟩ | ⟨rfl, hmem⟩
    · rcases hadd.handleOf_cases hinv hn hhn with ⟨-, hnold, hhnold, hsize⟩ | ⟨hnew, -⟩
      · rcases hcases k (hlt m k hkm) q hq with ⟨holdk, hmemk⟩ | ⟨rfl, hmemk⟩
        · rcases hadd.handleOf_cases hinv hm hkm with ⟨-, hmold, hkmold, hsizem⟩ | ⟨hnew, -⟩
          · rw [hsize, hsizem]
            exact hlayout.ranges n m h k hnold hmold hhnold hkmold hne p hmem q hmemk heq
          · omega
        · have hbehind := (hbuffer q hmemk).2.2.2 n h hnold hhnold p hmem heq
          rw [hsize]
          exact .inl hbehind
      · omega
    · rcases hcases k (hlt m k hkm) q hq with ⟨holdk, hmemk⟩ | ⟨rfl, -⟩
      · rcases hadd.handleOf_cases hinv hm hkm with ⟨-, hmold, hkmold, hsizem⟩ | ⟨hnew, -⟩
        · have hbehind := (hbuffer p hmem).2.2.2 m k hmold hkmold q hmemk heq.symm
          rw [hsizem]
          exact .inr hbehind
        · omega
      · exact absurd rfl hne
  · rw [hadd.heap] at hplain
    rcases hcases h (hlt n h hhn) p hp with ⟨hold, hmem⟩ | ⟨rfl, hmem⟩
    · rcases hadd.handleOf_cases hinv hn hhn with ⟨-, hnold, hhnold, hsize⟩ | ⟨hnew, -⟩
      · rw [hsize]
        exact hlayout.sizes n h hnold hhnold p hmem hplain
      · omega
    · exact (hadd.size_new hinv hlayout hn hhn (hbuffer p hmem).2.2.1).1
  · rw [hadd.handleCnt] at hzero
    omega

theorem behind (hinv : RamfsInv s) (hlayout : LayoutInv s)
    {p : Pointer} (hp : buffer = some p) (ha : 0 ≤ a.stSize) (hbehind : Behind s p.block p.offset) :
    Behind s' p.block (p.offset + a.stSize) := by
  intro n h hn hhn q hq heq
  rcases hadd.handleOf_cases hinv hn hhn with ⟨hold, hnold, hhnold, hsize⟩ | ⟨rfl, -⟩
  · rw [hadd.buffer_old hold] at hq
    have hbefore := hbehind n h hnold hhnold q hq heq
    rw [hsize]
    omega
  · rw [hadd.buffer_new, hp] at hq
    cases hq
    have hle := (hadd.size_new hinv hlayout hn hhn ha).2
    omega

end NodeAdded

/-! ## Unpacking -/

section Unpacking

variable {s s' : RamfsState} {links block address header entries : ℕ}

theorem setSymlink_nodes (v : VfsState) (node : ℕ) (linkname : Option Name) (n : ℕ) :
    (v.setSymlink node linkname).nodes n = { v.nodes n with
      symlink := if n = node then linkname else (v.nodes n).symlink } := by
  unfold VfsState.setSymlink
  dsimp only
  split_ifs with heq
  · subst heq
    rw [Function.update_self]
  · rw [Function.update_of_ne heq]

theorem VfsAdds.setSymlink {v v' : VfsState} {asset : ℕ} (h : VfsAdds v v' asset) (node : ℕ)
    (linkname : Option Name) : VfsAdds v (v'.setSymlink node linkname) asset := by
  have hnodes := setSymlink_nodes v' node linkname
  refine ⟨⟨h.ok.root, ?_, ?_, ?_, ?_⟩, ⟨⟨h.grows.tree.size, ?_, ?_, ?_⟩, ?_, h.grows.assetCnt,
    h.grows.assets⟩, ?_, ?_⟩
  · intro n hn
    rw [hnodes]
    exact h.ok.children n hn
  · intro n hn
    rw [hnodes]
    exact h.ok.parents n hn
  · intro n hn
    rw [hnodes]
    exact h.ok.unmounted n hn
  · intro n hn
    rw [hnodes]
    exact h.ok.assets n hn
  · intro n hn
    exact (congrArg VfsNode.name (hnodes n)).trans (h.grows.tree.name n hn)
  · intro n hn
    exact (congrArg VfsNode.parent (hnodes n)).trans (h.grows.tree.parent n hn)
  · intro n hn
    have hsame : (v'.setSymlink node linkname).tree.children n = v'.tree.children n :=
      (congrArg VfsNode.children (hnodes n) :)
    rw [hsame]
    exact h.grows.tree.children n hn
  · intro n hn
    rw [hnodes]
    exact h.grows.asset n hn
  · intro n hn
    rw [hnodes]
    exact h.fresh n hn
  · intro n hn m hm
    rw [hnodes, hnodes]
    exact h.once n hn m hm

theorem unpackEntry_added (hinv : RamfsInv s) {hd : UstarHeader}
    (h : unpackEntry links block header hd s = some s') :
    NodeAdded s s' (some ⟨block, header + 512⟩) (hd.asset s.inodeCnt) := by
  obtain ⟨s₁, hadd, hrest⟩ := bind_eq_some_iff.mp h
  obtain ⟨⟨node, vfs⟩, hcreate, rfl⟩ := map_eq_some_iff.mp hrest
  have hadds := (hinv.ok.allocAsset (hd.asset s.inodeCnt)).createDeep_adds
    hinv.ok.root (Nat.lt_succ_self s.vfs.assetCnt) hcreate
  refine nodeAdded_of_addHandle hadd rfl ?_
  split_ifs
  · exact hadds.setSymlink node hd.linkname
  · exact hadds

/-- The headers that are read are in order: each size is not negative, and the next header is behind
the data. -/
def Forward (archive : List (BitVec 8)) (address : ℕ) : ℕ → ℕ → Prop
  | 0, _ => True
  | entries + 1, header =>
    magicMatches archive (header - address) = some true →
      ∀ hd, ustarHeader archive (header - address) = some hd →
        0 ≤ (octalToDecimal hd.size).toInt ∧
          ∀ next, nextHeader header (octalToDecimal hd.size).toInt = some next →
            header + 512 + (octalToDecimal hd.size).toInt ≤ next ∧
              Forward archive address entries next

theorem unpack_cases (h : unpack links block address (entries + 1) header s = some s') :
    address ≤ header ∧
      (s' = s ∨ ∃ hd s₁ next, magicMatches (s.heap.blocks block).bytes (header - address) = some true ∧
        ustarHeader (s.heap.blocks block).bytes (header - address) = some hd ∧
        unpackEntry links block (header - address) hd s = some s₁ ∧
        nextHeader header (octalToDecimal hd.size).toInt = some next ∧
        (s' = s₁ ∨ unpack links block address entries next s₁ = some s')) := by
  rw [unpack] at h
  split_ifs at h with hlow
  refine ⟨Nat.le_of_not_lt hlow, ?_⟩
  obtain ⟨magic, hmagic, hrest⟩ := bind_eq_some_iff.mp h
  cases magic with
  | false => exact .inl (some.inj hrest).symm
  | true =>
    obtain ⟨hd, hheader, hrest⟩ := bind_eq_some_iff.mp hrest
    obtain ⟨s₁, hentry, hrest⟩ := bind_eq_some_iff.mp hrest
    obtain ⟨next, hnext, hrest⟩ := bind_eq_some_iff.mp hrest
    refine .inr ⟨hd, s₁, next, hmagic, hheader, hentry, hnext, ?_⟩
    split_ifs at hrest with hend
    · exact .inl (some.inj hrest).symm
    · exact .inr hrest

theorem unpack_inv (hinv : RamfsInv s)
    (h : unpack links block address entries header s = some s') : RamfsInv s' := by
  induction entries generalizing header s with
  | zero => exact absurd h (by simp [unpack])
  | succ entries ih =>
    obtain ⟨-, rfl | ⟨hd, s₁, next, -, -, hentry, -, rfl | hrest⟩⟩ := unpack_cases h
    · exact hinv
    · exact (unpackEntry_added hinv hentry).inv hinv
    · exact ih ((unpackEntry_added hinv hentry).inv hinv) hrest

theorem unpack_layout (hinv : RamfsInv s) (hlayout : LayoutInv s)
    (hblock : block < s.heap.blockCnt) (hplain : (s.heap.blocks block).slab = false)
    (hbehind : Behind s block ((header : ℤ) - address))
    (hforward : Forward (s.heap.blocks block).bytes address entries header)
    (h : unpack links block address entries header s = some s') : LayoutInv s' := by
  induction entries generalizing header s with
  | zero => exact absurd h (by simp [unpack])
  | succ entries ih =>
    obtain ⟨hlow, rfl | ⟨hd, s₁, next, hmagic, hheader, hentry, hnext, hrest⟩⟩ := unpack_cases h
    · exact hlayout
    · have hadd := unpackEntry_added hinv hentry
      obtain ⟨hsize, hnexts⟩ := hforward hmagic hd hheader
      obtain ⟨hle, hforward'⟩ := hnexts next hnext
      have hsizeA := hsize
      -- The files so far end before this header, and the data is behind it.
      have hbehind' : Behind s block ((header - address + 512 : ℕ) : ℤ) := by
        intro n k hn hk p hp heq
        have hend := hbehind n k hn hk p hp heq
        omega
      have hlayout' : LayoutInv s₁ := by
        refine hadd.layout hinv hlayout fun p hp => ?_
        cases hp
        exact ⟨hblock, hplain, hsizeA, hbehind'⟩
      rcases hrest with rfl | hrest
      · exact hlayout'
      · have hheap := hadd.heap
        refine ih (hadd.inv hinv) hlayout' (by rw [hheap]; exact hblock)
          (by rw [hheap]; exact hplain) ?_ (by rw [hheap]; exact hforward') hrest
        have hmore := hadd.behind hinv hlayout rfl hsizeA hbehind'
        intro n k hn hk p hp heq
        have hend := hmore n k hn hk p hp heq
        have hstSize : (hd.asset s.inodeCnt).stSize = (octalToDecimal hd.size).toInt := rfl
        dsimp only at hend
        omega

end Unpacking

/-! ## Runs -/

inductive RamfsOp where
  | unpack (links entries address : ℕ) (archive : List (BitVec 8))
  | create (parent : ℕ) (name : Name) (mode : BitVec 32)
  | write (node offset : ℕ) (data : List (BitVec 8))
  | resize (node : ℕ) (cnt : ℤ)

def RamfsState.unpackArchive (s : RamfsState) (links entries address : ℕ)
    (archive : List (BitVec 8)) : Option RamfsState :=
  (initramfs links entries (some [⟨address, s.heap.blockCnt, initramfsCmdline⟩])
    { s with heap := s.heap.push ⟨archive, false⟩ }).map Prod.snd

instance (s : RamfsState) (node : ℕ) : Decidable (s.IsRamfs node) :=
  inferInstanceAs (Decidable (_ ∧ _))

def ramfsNext (s : RamfsState) : RamfsOp → Option RamfsState
  | .unpack links entries address archive => s.unpackArchive links entries address archive
  | .create parent name mode =>
    if parent < s.vfs.nodeCnt then (ramfsCreate parent name mode s).map Prod.snd else none
  | .write node offset data =>
    if s.IsRamfs node ∧ offset + data.length < 2 ^ 63 then
      (ramfsWrite s (s.vfs.nodes node).asset offset data).map Prod.snd
    else none
  | .resize node cnt =>
    if s.IsRamfs node ∧ -2 ^ 63 ≤ cnt ∧ cnt < 2 ^ 63 then
      (ramfsResize s (s.vfs.nodes node).asset cnt).map Prod.snd
    else none

/-- The steps of a run. -/
def ramfsStep (s : RamfsState) (op : RamfsOp) (s' : RamfsState) : Prop := ramfsNext s op = some s'

def ramfsInit : RamfsState where
  vfs := vfsInit
  nodeList := HashTable.empty
  inodeCnt := 0#64
  handles _ := ⟨0#64, none⟩
  handleCnt := 0
  heap := ⟨fun _ => ⟨[], false⟩, 0⟩

/-- The headers of an archive that is unpacked are in order. -/
def RamfsOp.Forward : RamfsOp → Prop
  | .unpack _ entries address archive => Pastoral.Forward archive address entries address
  | _ => True

section Runs

variable {s s' : RamfsState} {op : RamfsOp}

theorem RamfsInv.pushBlock (h : RamfsInv s) (b : Block) :
    RamfsInv { s with heap := s.heap.push b } :=
  ⟨h.ok, h.good, h.table, h.cnt, h.limit, h.three, h.rootZero, h.rootAsset, h.numbered, h.unique⟩

theorem LayoutInv.pushBlock (h : LayoutInv s) (hinv : RamfsInv s) (b : Block) :
    LayoutInv { s with heap := s.heap.push b } := by
  refine ⟨fun k hk p hp => Nat.lt_succ_of_lt (h.inside k hk p hp),
    fun k hk l hl hne p hp q hq hobj => ?_, h.ranges, fun n k hn hnk p hp hplain => ?_, h.idle⟩
  · rw [push_old _ _ (h.inside k hk p hp)] at hobj
    exact h.objects k hk l hl hne p hp q hq hobj
  · have hk := (hinv.find_iff.mp hnk).1
    rw [push_old _ _ (h.inside k hk p hp)] at hplain
    exact h.sizes n k hn hnk p hp hplain

theorem unpackArchive_eq (s : RamfsState) (links entries address : ℕ) (archive : List (BitVec 8)) :
    s.unpackArchive links entries address archive =
      unpack links s.heap.blockCnt address entries address
        { s with heap := s.heap.push ⟨archive, false⟩ } := by
  have hmodule : ((some [⟨address, s.heap.blockCnt, initramfsCmdline⟩] :
      Option (List LimineFile)).bind fun modules =>
        modules.find? fun m => m.cmdline = initramfsCmdline) =
      some ⟨address, s.heap.blockCnt, initramfsCmdline⟩ := by simp
  unfold RamfsState.unpackArchive initramfs
  rw [hmodule]
  rw [map_map]
  exact map_id'

theorem ramfsCreate_added (hinv : RamfsInv s) {parent node : ℕ} {name : Name} {mode : BitVec 32}
    (hparent : parent < s.vfs.nodeCnt) (h : ramfsCreate parent name mode s = some (node, s')) :
    NodeAdded s s' none ⟨mode, s.inodeCnt, 0, true⟩ := by
  obtain ⟨s₁, hadd, hresult⟩ := map_eq_some_iff.mp h
  cases hresult
  refine nodeAdded_of_addHandle hadd rfl ?_
  have hpar : parent < (s.vfs.allocAsset ⟨mode, s.inodeCnt, 0, true⟩).nodeCnt := hparent
  exact (vfsCreateNode_spec s.vfs.assetCnt _ name hpar).adds (hinv.ok.allocAsset _) hpar
    (Nat.lt_succ_self _)

theorem ramfsStep_call {node : ℕ}
    (hop : (∃ off data, op = .write node off data) ∨ ∃ cnt, op = .resize node cnt)
    (h : ramfsStep s op s') :
    s.IsRamfs node ∧ (s' = s ∨ ∃ handle size', s.handleOf node = some handle ∧
      CallEffect s s' (s.vfs.nodes node).asset size' ∧
      ((∀ p ∈ (s.handles handle).buffer, (s.heap.blocks p.block).slab = false →
        0 ≤ (s.assetOf node).stSize) →
        FileEffect s s' (s.vfs.nodes node).asset handle size')) := by
  rcases hop with ⟨off, data, rfl⟩ | ⟨cnt, rfl⟩
  · unfold ramfsStep ramfsNext at h
    dsimp only at h
    split_ifs at h with hvalid
    obtain ⟨⟨r, s₁⟩, hcall, rfl⟩ := map_eq_some_iff.mp h
    refine ⟨hvalid.1, ?_⟩
    cases hfind : s.handleOf node with
    | none =>
      refine .inl ?_
      rw [ramfsWrite, show s.find (s.vfs.nodes node).asset = none from hfind] at hcall
      exact (Prod.mk.inj (some.inj hcall)).2.symm
    | some handle =>
      obtain ⟨size', heffect⟩ := ramfsWrite_effect hfind (by omega) hcall
      exact Or.inr ⟨handle, size', rfl, heffect⟩
  · unfold ramfsStep ramfsNext at h
    dsimp only at h
    split_ifs at h with hvalid
    obtain ⟨⟨r, s₁⟩, hcall, rfl⟩ := map_eq_some_iff.mp h
    refine ⟨hvalid.1, ?_⟩
    cases hfind : s.handleOf node with
    | none =>
      refine .inl ?_
      rw [ramfsResize, show s.find (s.vfs.nodes node).asset = none from hfind] at hcall
      exact (Prod.mk.inj (some.inj hcall)).2.symm
    | some handle =>
      have heffect := ramfsResize_effect hfind hvalid.2.1 hvalid.2.2 hcall
      exact .inr ⟨handle, cnt, rfl, heffect.toCallEffect, fun _ => heffect⟩

theorem ramfsStep_inv (hinv : RamfsInv s) (h : ramfsStep s op s') : RamfsInv s' := by
  have hcall : ∀ node, ((∃ off data, op = .write node off data) ∨ ∃ cnt, op = .resize node cnt) →
      RamfsInv s' := by
    intro node hop
    obtain ⟨-, rfl | ⟨handle, size', -, heffect, -⟩⟩ := ramfsStep_call hop h
    · exact hinv
    · exact heffect.inv hinv
  cases op with
  | unpack links entries address archive =>
    rw [ramfsStep, ramfsNext, unpackArchive_eq] at h
    exact unpack_inv (hinv.pushBlock _) h
  | create parent name mode =>
    unfold ramfsStep ramfsNext at h
    dsimp only at h
    split_ifs at h with hparent
    obtain ⟨⟨node, s₁⟩, hcreate, rfl⟩ := map_eq_some_iff.mp h
    exact (ramfsCreate_added hinv hparent hcreate).inv hinv
  | write node off data => exact hcall node (.inl ⟨off, data, rfl⟩)
  | resize node cnt => exact hcall node (.inr ⟨cnt, rfl⟩)

theorem ramfsStep_layout (hinv : RamfsInv s) (hlayout : LayoutInv s) (hforward : op.Forward)
    (h : ramfsStep s op s') : LayoutInv s' := by
  have hcall : ∀ node, ((∃ off data, op = .write node off data) ∨ ∃ cnt, op = .resize node cnt) →
      LayoutInv s' := by
    intro node hop
    obtain ⟨hnode, rfl | ⟨handle, size', hhandle, -, heffect⟩⟩ := ramfsStep_call hop h
    · exact hlayout
    · exact (heffect fun p => hlayout.sizes node handle hnode hhandle p).layout hinv hlayout rfl
        hhandle
  cases op with
  | unpack links entries address archive =>
    have hnew := push_new s.heap ⟨archive, false⟩
    rw [ramfsStep, ramfsNext, unpackArchive_eq] at h
    refine unpack_layout (hinv.pushBlock _) (hlayout.pushBlock hinv _) (Nat.lt_succ_self _) ?_ ?_ ?_
      h
    · exact congrArg Block.slab hnew
    · -- No buffer is in the archive yet.
      intro n k hn hk p hp heq
      have hlt := (hinv.find_iff.mp hk).1
      have hin := hlayout.inside k hlt p hp
      omega
    · rw [hnew]
      exact hforward
  | create parent name mode =>
    unfold ramfsStep ramfsNext at h
    dsimp only at h
    split_ifs at h with hparent
    obtain ⟨⟨node, s₁⟩, hcreate, rfl⟩ := map_eq_some_iff.mp h
    exact (ramfsCreate_added hinv hparent hcreate).layout hinv hlayout (by simp)
  | write node off data => exact hcall node (.inl ⟨off, data, rfl⟩)
  | resize node cnt => exact hcall node (.inr ⟨cnt, rfl⟩)

theorem ramfsInit_inv : RamfsInv ramfsInit := by
  have hroot : ∀ n, ramfsInit.assetOf n = ⟨rootMode, 0#64, 0, true⟩ := fun _ => rfl
  have hlt : ∀ n, ramfsInit.IsRamfs n → n < 3 := fun n hn => hn.1
  refine ⟨vfsInit_ok, good_empty, fun k h => ?_, rfl, by decide, le_refl _, fun n _ => ?_,
    fun n hn => ?_, fun n hn h3 => ?_, fun n m hn _ h3 => ?_⟩
  · simp [ramfsInit, HashTable.empty]
  · rw [hroot]
  · obtain rfl | rfl | rfl : n = 0 ∨ n = 1 ∨ n = 2 := by omega
    all_goals rfl
  · exact absurd (hlt n hn) (Nat.not_lt_of_le h3)
  · exact absurd (hlt n hn) (Nat.not_lt_of_le h3)

theorem ramfsInit_layout : LayoutInv ramfsInit := by
  refine ⟨fun h hh => ?_, fun h hh => ?_, fun n m h k _ _ _ _ _ p hp => ?_,
    fun n h _ _ p hp => ?_, fun _ n _ => rfl⟩
  · exact absurd hh (Nat.not_lt_zero h)
  · exact absurd hh (Nat.not_lt_zero h)
  · exact absurd hp (by simp [ramfsInit])
  · exact absurd hp (by simp [ramfsInit])

end Runs

/-! ## Isolation -/

def Unaffected (s : RamfsState) (n m : ℕ) : Prop :=
  ∀ op, ((∃ off data, op = .write n off data) ∨ ∃ cnt, op = .resize n cnt) →
    ∀ s', ramfsStep s op s' → ∀ off cnt : ℕ, off + cnt < 2 ^ 63 →
      ramfsRead s' (s'.vfs.nodes m).asset off cnt = ramfsRead s (s.vfs.nodes m).asset off cnt

/-- **Isolation of two nodes.** -/
def Isolated (s : RamfsState) (n m : ℕ) : Prop := DistinctHandles s n m ∧ Unaffected s n m

/-- **When nodes are isolated**: in every tree that `vfs_init`, `initramfs` and `ramfs_create` build,
whatever is written to it, two nodes of ramfs have handles of their own unless both have number zero
and it is taken; then, if the archives were in order, calls through one do not show through the
other. -/
theorem nodes_isolated_iff {tr : List (Event RamfsState RamfsOp)} {s : RamfsState}
    (run : Run ramfsStep ramfsInit tr s) {n m : ℕ} (hn : s.IsRamfs n) (hm : s.IsRamfs m)
    (hne : n ≠ m) :
    (DistinctHandles s n m ↔ ¬ SharesZero s n m) ∧
      ((∀ e ∈ tr, e.act.Forward) → (Isolated s n m ↔ ¬ SharesZero s n m)) := by
  have hinv : RamfsInv s :=
    run.invariant (I := fun _ s => RamfsInv s) ramfsInit_inv fun _ _ _ _ => ramfsStep_inv
  have hiff := hinv.distinct_iff hn hm hne
  refine ⟨hiff, fun hforward => ⟨fun hiso => hiff.mp hiso.1, fun hshare => ⟨hiff.mpr hshare, ?_⟩⟩⟩
  have hlayout : RamfsInv s ∧ LayoutInv s :=
    run.guarded (I := fun _ s => RamfsInv s ∧ LayoutInv s) (Q := fun e => e.act.Forward)
      ⟨ramfsInit_inv, ramfsInit_layout⟩
      (fun _ _ _ _ h hstep hf => ⟨ramfsStep_inv h.1 hstep, ramfsStep_layout h.1 h.2 hf hstep⟩)
      hforward
  intro op hop s' hstep off cnt hend
  obtain ⟨-, rfl | ⟨handle, size', hhandle, -, heffect⟩⟩ := ramfsStep_call hop hstep
  · rfl
  · have hfile := heffect fun p => hlayout.2.sizes n handle hn hhandle p
    exact hfile.read_other hinv hlayout.2 hn hm hne rfl hhandle (hiff.mpr hshare handle hhandle)
      hend

def twoCreated : List RamfsOp :=
  [.create 0 [0x61#8] (sIfreg ||| 0o644#32), .create 0 [0x62#8] (sIfreg ||| 0o644#32),
    .write 3 0 [5#8]]

/-- **Two files** are nodes 3 and 4, with numbers 0 and 1, and are isolated. -/
theorem nodes_isolated_iff_two_files : ∃ tr s, Run ramfsStep ramfsInit tr s ∧
    tr.map Event.act = twoCreated ∧ ramfsRead s (s.vfs.nodes 3).asset 0 9 = some [5#8] ∧
    Isolated s 3 4 := by
  obtain ⟨tr, s, run, hacts, hread, hthree, hfour, hshare⟩ := Run.computed (f := ramfsNext)
    (P := fun _ s => ramfsRead s (s.vfs.nodes 3).asset 0 9 = some [5#8] ∧ s.IsRamfs 3 ∧ s.IsRamfs 4 ∧
      ¬ SharesZero s 3 4) ramfsInit twoCreated (by decide +kernel)
  refine ⟨tr, s, run, hacts, hread, ?_⟩
  refine ((nodes_isolated_iff run hthree hfour (by decide)).2 fun e he => ?_).mpr hshare
  have hmem : e.act ∈ twoCreated := hacts ▸ List.mem_map_of_mem he
  simp only [twoCreated, List.mem_cons, List.not_mem_nil, or_false] at hmem
  rcases hmem with heq | heq | heq <;> rw [heq] <;> trivial

def firstCreated : List RamfsOp :=
  [.create 0 [0x61#8] (sIfreg ||| 0o644#32), .write 3 0 [5#8]]

/-- **The root writes to the first file**: both have number zero, and so one handle. -/
theorem root_shares_first_handle : ∃ tr s s', Run ramfsStep ramfsInit tr s ∧
    tr.map Event.act = firstCreated ∧ s.IsRamfs 0 ∧ s.IsRamfs 3 ∧
    s.handleOf 0 = some 0 ∧ s.handleOf 3 = some 0 ∧ ramfsStep s (.write 0 0 [7#8]) s' ∧
    ramfsRead s (s.vfs.nodes 3).asset 0 1 = some [5#8] ∧
    ramfsRead s' (s'.vfs.nodes 3).asset 0 1 = some [7#8] ∧ ¬ Isolated s 0 3 := by
  obtain ⟨tr, s, run, hacts, ⟨hroot, hfile, hhandle, hhandle'⟩, hbefore, hwrite⟩ := Run.computed
    (f := ramfsNext) (P := fun _ s =>
      (s.IsRamfs 0 ∧ s.IsRamfs 3 ∧ s.handleOf 0 = some 0 ∧ s.handleOf 3 = some 0) ∧
      ramfsRead s (s.vfs.nodes 3).asset 0 1 = some [5#8] ∧
      ((ramfsNext s (.write 0 0 [7#8])).map fun s' => ramfsRead s' (s'.vfs.nodes 3).asset 0 1) =
        some (some [7#8])) ramfsInit firstCreated (by decide +kernel)
  obtain ⟨s', hs', hafter⟩ := map_eq_some_iff.mp hwrite
  refine ⟨tr, s, s', run, hacts, hroot, hfile, hhandle, hhandle', hs', hbefore, hafter, ?_⟩
  rintro ⟨hdistinct, -⟩
  exact hdistinct 0 hhandle hhandle'

end Pastoral
