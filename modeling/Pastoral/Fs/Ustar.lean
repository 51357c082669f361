import Pastoral.Fs.RamfsIsolation

/-!
# The archive format

What `initramfs` makes of an archive.

## Main definitions

* `Encodes`: the archive of a list of entries

## Main results

* `initramfs_decodes`: the entries are found, with their data
-/

open BitVec List NameTree Option Padded

namespace Pastoral

/-! ## Entries -/

def components (path : Name) : List Name :=
  match subpathList path with
  | [] => []
  | k :: ks => if k = dot then ks else k :: ks

structure TarEntry where
  path : Name
  dir : Bool
  mode : BitVec 32
  data : List (BitVec 8)
  deriving DecidableEq, Repr

namespace TarEntry

def comps (e : TarEntry) : List Name := components e.path

def typeflag (e : TarEntry) : BitVec 8 := if e.dir then ustarDirtype else ustarRegtype

def typeMode (e : TarEntry) : BitVec 32 := if e.dir then sIfdir else sIfreg

def stMode (e : TarEntry) : BitVec 32 := e.mode ||| e.typeMode

end TarEntry

structure IsHeader (e : TarEntry) (header : List (BitVec 8)) : Prop where
  length : header.length = 512
  name : e.path ++ [0#8] <+: header.take 100
  mode : ∃ digits, IsOctal digits ∧ digits ++ [0#8] <+: (header.drop 100).take 8 ∧
    BitVec.ofNat 32 (octalValue digits) = e.mode
  size : ∃ digits, IsOctal digits ∧ digits ++ [0#8] <+: (header.drop 124).take 12 ∧
    octalValue digits = e.data.length
  typeflag : header[156]? = some e.typeflag
  magic : slice header 257 5 = ustarMagic

/-- **The encoding of a list of entries.** -/
inductive Encodes : List TarEntry → List (BitVec 8) → Prop
  | done (blocks : ℕ) : Encodes [] (List.replicate (512 * blocks) 0#8)
  | entry {e : TarEntry} {es : List TarEntry} {header pad rest : List (BitVec 8)} :
    IsHeader e header → pad.length < 512 → 512 ∣ e.data.length + pad.length → Encodes es rest →
      Encodes (e :: es) (header ++ (e.data ++ (pad ++ rest)))

/-- **Lists of entries**: paths with components, none of them `.` or `..`, all different; a mode has
no bits of another type; and the directories on a path are entries before it. -/
structure WellFormed (entries : List TarEntry) : Prop where
  noZero : ∀ e ∈ entries, 0#8 ∉ e.path
  named : ∀ e ∈ entries, e.comps ≠ []
  plain : ∀ e ∈ entries, ∀ k ∈ e.comps, ¬ IsDot k
  distinct : (entries.map TarEntry.comps).Nodup
  typed : ∀ e ∈ entries, e.stMode &&& sIfmt = e.typeMode
  listed : ∀ before e after, entries = before ++ e :: after →
    ∀ ls, ls ≠ [] → ls <+: e.comps → ls ≠ e.comps → ∃ d ∈ before, d.dir = true ∧ d.comps = ls

theorem TarEntry.stMode_type {e : TarEntry} (h : e.stMode &&& sIfmt = e.typeMode) :
    sIslnk e.stMode = false ∧ sIsdir e.stMode = e.dir := by
  unfold sIslnk sIsdir
  rw [h, TarEntry.typeMode]
  cases e.dir <;> decide

/-! ## Paths that begin with `./` -/

section Paths

variable {s : VfsState} {path : Name}

theorem VfsInv.createLast (h : VfsInv s) {init : List Name} {last : Name} {parent : ℕ}
    (hcomps : components path = init ++ [last]) (hplain : ∀ k ∈ init ++ [last], ¬ IsDot k)
    (hresolve : s.tree.resolve vfsRoot init = some parent)
    (hmissing : s.tree.child parent last = none) (fuel asset : ℕ) (filesystem : Option ℕ) :
    vfsCreateNodeDeep fuel vfsRoot asset filesystem path s =
      some (s.nodeCnt, vfsCreateNode parent asset filesystem last false s) := by
  have hwalk : ∀ follow, Pastoral.walkExisting follow s vfsRoot (subpathList path) =
      some (parent, [last]) := by
    intro follow
    have hlast := h.walk_to_last follow h.root hplain hresolve hmissing
    unfold components at hcomps
    cases hsub : subpathList path with
    | nil =>
      rw [hsub] at hcomps
      simp at hcomps
    | cons k ks =>
      rw [hsub] at hcomps
      dsimp only at hcomps
      split_ifs at hcomps with hdot
      · -- A leading `.` leads from the root to the root.
        rw [Pastoral.walkExisting, h.searchRelative h.root, VfsState.entry, if_pos hdot,
          bind_some]
        dsimp only
        rw [h.mounted_eq h.root, hcomps]
        exact hlast
      · rw [hcomps]
        exact hlast
  have hpath : path ≠ [] := by
    rintro rfl
    exact absurd hcomps (by simp [components, subpathList, scanPath])
  rw [vfsCreateNodeDeep, if_neg hpath, hwalk]
  rfl

theorem lookup_components (hroot : sIsdir (s.mode vfsRoot)) (hne : components path ≠ []) :
    s.lookup vfsRoot (subpathList path) = s.lookup vfsRoot (components path) := by
  unfold components at hne ⊢
  cases hsub : subpathList path with
  | nil => rfl
  | cons k ks =>
    rw [hsub] at hne
    dsimp only at hne ⊢
    split_ifs at hne ⊢ with hdot
    · cases ks with
      | nil => exact absurd rfl hne
      | cons next rest =>
        rw [VfsState.lookup, VfsState.entry, if_pos hdot, bind_some, if_pos hroot]
    · rfl

end Paths

/-! ## Reading an entry -/

section Reading

variable {e : TarEntry} {header : List (BitVec 8)}

theorem IsHeader.read (h : IsHeader e header) (hzero : 0#8 ∉ e.path) (done rest : List (BitVec 8)) :
    magicMatches (done ++ (header ++ rest)) done.length = some true ∧
      ∃ hd, ustarHeader (done ++ (header ++ rest)) done.length = some hd ∧ hd.name = e.path ∧
        (octalToDecimal hd.size).toInt = e.data.length ∧ e.data.length < 2 ^ 33 ∧
        ∀ inode, (hd.asset inode).stMode = e.stMode := by
  obtain ⟨mode, hmodeOctal, hmode, hmodeValue⟩ := h.mode
  obtain ⟨size, hsizeOctal, hsize, hsizeValue⟩ := h.size
  have hlength := h.length
  have hname : cString (done ++ (header ++ rest)) done.length = some e.path :=
    cString_of_prefix (prefix_drop_append (i := 0) (h.name.trans (List.take_prefix _ _))) hzero
  have hmodeRead : cString (done ++ (header ++ rest)) (done.length + 100) = some mode :=
    cString_of_prefix (prefix_drop_append (hmode.trans (List.take_prefix _ _)))
      (zero_notMem_of_isOctal hmodeOctal)
  have hsizeRead : cString (done ++ (header ++ rest)) (done.length + 124) = some size :=
    cString_of_prefix (prefix_drop_append (hsize.trans (List.take_prefix _ _)))
      (zero_notMem_of_isOctal hsizeOctal)
  have htype : (done ++ (header ++ rest))[done.length + 156]? = some e.typeflag := by
    rw [getElem?_append_right (by omega), Nat.add_sub_cancel_left,
      getElem?_append_left (by omega)]
    exact h.typeflag
  have hdigits : size.length ≤ 11 := by
    have hle := hsize.length_le
    rw [length_append, length_singleton, length_take] at hle
    omega
  refine ⟨?_, ⟨e.path, mode, size, e.typeflag, cString (done ++ (header ++ rest))
    (done.length + 157)⟩, ?_, rfl, ?_, ?_, fun inode => ?_⟩
  · have hmagic : slice (done ++ (header ++ rest)) (done.length + 257) 5 = ustarMagic := by
      rw [← h.magic, slice, slice, drop_append, drop_eq_nil_of_le (by omega),
        nil_append, Nat.add_sub_cancel_left, drop_append_of_le_length (by omega),
        take_append_of_le_length (by rw [length_drop]; omega)]
    rw [magicMatches, if_pos (by simp only [length_append]; omega), hmagic]
    rfl
  · rw [ustarHeader, hname, hmodeRead, hsizeRead,
      htype]
    rfl
  · rw [octalToDecimal_toInt hsizeOctal hdigits, hsizeValue]
  · rw [← hsizeValue]
    exact lt_of_lt_of_le (octalValue_lt hsizeOctal)
      (le_trans (Nat.pow_le_pow_right (by decide) hdigits) (by decide))
  · have hbits : (octalToDecimal mode).setWidth 32 = e.mode := by
      rw [octalToDecimal_eq hmodeOctal, ← hmodeValue]
      refine eq_of_toNat_eq ?_
      rw [toNat_setWidth, toNat_ofNat, toNat_ofNat,
        Nat.mod_mod_of_dvd _ (by decide)]
    have htypeMode : ustarMode e.typeflag = e.typeMode := by
      unfold TarEntry.typeflag TarEntry.typeMode
      split_ifs <;> rfl
    rw [UstarHeader.asset, TarEntry.stMode, hbits, htypeMode]

end Reading

/-! ## What has been unpacked -/

structure EntryAt (s : RamfsState) (e : TarEntry) (node : ℕ) : Prop where
  resolve : s.vfs.tree.resolve vfsRoot e.comps = some node
  mode : (s.assetOf node).stMode = e.stMode
  shown : ∃ handle, Shows s (s.vfs.nodes node).asset handle e.data

structure Decoded (unpacked : List TarEntry) (s : RamfsState) : Prop where
  vfs : VfsInv s.vfs
  ram : RamfsInv s
  count : s.handleCnt = unpacked.length
  rootDir : sIsdir (s.vfs.mode vfsRoot) = true
  entries : ∀ e ∈ unpacked, ∃ node, EntryAt s e node
  only : ∀ ks node, ks ≠ [] → (∀ k ∈ ks, ¬ IsDot k) →
    s.vfs.tree.resolve vfsRoot ks = some node → ∃ e ∈ unpacked, e.comps = ks
  nodes : ∀ n < s.vfs.nodeCnt, n < 3 ∨ (∃ e ∈ unpacked, EntryAt s e n) ∨
    (IsDot (s.vfs.nodes n).name ∧ ∃ d ∈ unpacked, d.dir = true ∧
      ∃ p, (s.vfs.nodes n).parent = some p ∧ EntryAt s d p)

section Unpacked

variable {s s' : RamfsState} {unpacked rest : List TarEntry} {e : TarEntry} {block header : ℕ}

theorem decoded_init (b : Block) : Decoded [] { ramfsInit with heap := ramfsInit.heap.push b } := by
  refine ⟨vfsInit_inv, ramfsInit_inv.pushBlock b, rfl, (by decide : sIsdir rootMode = true),
    nofun, fun ks node hne hplain hresolve => ?_, fun n hn => .inl hn⟩
  -- The root has no other children than `.` and `..`.
  obtain ⟨k, ks, rfl⟩ := exists_cons_of_ne_nil hne
  obtain ⟨c, hchild, -⟩ := bind_eq_some_iff.mp hresolve
  obtain ⟨hmem, hname⟩ := Tree.mem_of_child hchild
  have hdot : ∀ c ∈ vfsInit.tree.children vfsRoot, IsDot (vfsInit.tree.name c) := by decide
  exact absurd (hname ▸ hdot c hmem) (hplain k mem_cons_self)

theorem EntryAt.added {buffer : Option Pointer} {a : Asset} {node : ℕ} (h : EntryAt s e node)
    (hadd : NodeAdded s s' buffer a) (hvfs : VfsInv s.vfs) (hram : RamfsInv s) :
    EntryAt s' e node := by
  have hlt := hvfs.wf.resolve_lt hvfs.root h.resolve
  obtain ⟨hasset, hsame⟩ := hadd.assetOf_old hram hlt
  obtain ⟨handle, hshown⟩ := h.shown
  refine ⟨hadd.vfs.grows.tree.resolve hvfs.wf hvfs.root h.resolve, ?_, handle, ?_⟩
  · rw [hsame]
    exact h.mode
  · rw [hasset]
    exact hadd.shows hram (hvfs.assets node hlt) hshown

theorem Decoded.parent (h : Decoded unpacked s) (hwf : WellFormed (unpacked ++ e :: rest)) :
    ∃ init last parent, e.comps = init ++ [last] ∧ (∀ k ∈ init ++ [last], ¬ IsDot k) ∧
      s.vfs.tree.resolve vfsRoot init = some parent ∧ s.vfs.tree.child parent last = none := by
  have hmem : e ∈ unpacked ++ e :: rest := by simp
  obtain ⟨init, last, hcomps⟩ := (eq_nil_or_concat' e.comps).resolve_left (hwf.named e hmem)
  have hplain : ∀ k ∈ init ++ [last], ¬ IsDot k := fun k hk => hwf.plain e hmem k (hcomps ▸ hk)
  have hparent : ∃ parent, s.vfs.tree.resolve vfsRoot init = some parent := by
    by_cases hinit : init = []
    · exact ⟨vfsRoot, by rw [hinit]; rfl⟩
    · obtain ⟨d, hd, -, hdc⟩ := hwf.listed unpacked e rest rfl init hinit
        (hcomps ▸ prefix_append _ _) (by rw [hcomps]; simp)
      obtain ⟨node, hnode⟩ := h.entries d hd
      exact ⟨node, hdc ▸ hnode.resolve⟩
  obtain ⟨parent, hresolve⟩ := hparent
  refine ⟨init, last, parent, hcomps, hplain, hresolve, ?_⟩
  cases hchild : s.vfs.tree.child parent last with
  | none => rfl
  | some c =>
    -- The path would be that of an entry before.
    have hfound : s.vfs.tree.resolve vfsRoot e.comps = some c := by
      rw [hcomps, Tree.resolve_snoc, hresolve]
      exact hchild
    obtain ⟨e', he', hsame⟩ := h.only e.comps c (hwf.named e hmem) (hwf.plain e hmem) hfound
    have hnodup := hwf.distinct
    rw [map_append] at hnodup
    exact absurd hsame ((nodup_append.mp hnodup).2.2 _ (mem_map_of_mem he') _
      mem_cons_self)

theorem Decoded.grown (h : Decoded unpacked s) {a : Asset} {buffer : Option Pointer}
    {init : List Name} {last : Name} {parent : ℕ} {children : List ℕ}
    (hcomps : e.comps = init ++ [last])
    (hresolve : s.vfs.tree.resolve vfsRoot init = some parent)
    (hmissing : s.vfs.tree.child parent last = none) (hadd : NodeAdded s s' buffer a)
    (hspec : CreatedNode (s.vfs.allocAsset a) s'.vfs parent s.vfs.assetCnt (some ramfsFilesystem)
      last children) (hchildren : children ≠ [] → e.dir = true) (hvfs : VfsInv s'.vfs)
    (hnew : EntryAt s' e s.vfs.nodeCnt) : Decoded (unpacked ++ [e]) s' := by
  have hram := h.ram
  have hparent := h.vfs.wf.resolve_lt h.vfs.root hresolve
  have hinserted := hspec.inserted hparent
  have hkept : ∀ {d node}, EntryAt s d node → EntryAt s' d node :=
    fun hd => hd.added hadd h.vfs hram
  refine ⟨hvfs, hadd.inv hram, ?_, ?_, fun d hd => ?_, fun ks node hne hplain hks => ?_,
    fun n hn => ?_⟩
  · rw [hadd.handleCnt, h.count, length_append, length_singleton]
  · have hmode : s'.vfs.mode vfsRoot = s.vfs.mode vfsRoot :=
      congrArg Asset.stMode (hadd.assetOf_old hram h.vfs.root).2
    rw [hmode]
    exact h.rootDir
  · rcases mem_append.mp hd with hold | hlast
    · obtain ⟨node, hnode⟩ := h.entries d hold
      exact ⟨node, hkept hnode⟩
    · rw [mem_singleton.mp hlast]
      exact ⟨_, hnew⟩
  · rcases (hinserted.resolve_iff h.vfs.wf hmissing h.vfs.root hplain).mp hks with
      hold | ⟨ls, rfl, hls, -⟩
    · obtain ⟨d, hd, hdc⟩ := h.only ks node hne hplain hold
      exact ⟨d, mem_append_left _ hd, hdc⟩
    · -- Only one path leads to the directory.
      have hsame := h.vfs.wf.resolve_inj h.vfs.root h.vfs.orphan hls hresolve
      exact ⟨e, mem_append_right _ (mem_singleton.mpr rfl), by rw [hcomps, hsame]⟩
  · have hmem : e ∈ unpacked ++ [e] := mem_append_right _ (mem_singleton.mpr rfl)
    rcases hspec.cases hn with hold | rfl | hentry
    · rcases h.nodes n hold with hroot | ⟨d, hd, hdn⟩ | ⟨hdot, d, hd, hdir, p, hp, hdp⟩
      · exact .inl hroot
      · exact .inr (.inl ⟨d, mem_append_left _ hd, hkept hdn⟩)
      · have hname : (s'.vfs.nodes n).name = (s.vfs.nodes n).name := hadd.vfs.grows.tree.name n hold
        have hback : (s'.vfs.nodes n).parent = (s.vfs.nodes n).parent :=
          hadd.vfs.grows.tree.parent n hold
        refine .inr (.inr ⟨?_, d, mem_append_left _ hd, hdir, p, ?_, hkept hdp⟩)
        · rw [hname]
          exact hdot
        · rw [hback]
          exact hp
    · exact .inr (.inl ⟨e, hmem, hnew⟩)
    · obtain ⟨hdot, d, b, hnode, -⟩ := hspec.entry hentry
      refine .inr (.inr ⟨hdot, e, hmem, hchildren (ne_nil_of_mem hentry), s.vfs.nodeCnt,
        ?_, hnew⟩)
      rw [hnode]
      rfl

theorem Decoded.unpackEntry (h : Decoded unpacked s) (hwf : WellFormed (unpacked ++ e :: rest))
    {hd : UstarHeader} (hname : hd.name = e.path)
    (hsize : (octalToDecimal hd.size).toInt = e.data.length)
    (hmode : ∀ inode, (hd.asset inode).stMode = e.stMode) (hroom : unpacked.length < handleLimit)
    (hblock : block < s.heap.blockCnt) (hplain : (s.heap.blocks block).slab = false)
    (hfit : header + 512 ≤ (s.heap.blocks block).bytes.length)
    (hdata : e.data <+: (s.heap.blocks block).bytes.drop (header + 512)) (links : ℕ) :
    ∃ s', Pastoral.unpackEntry links block header hd s = some s' ∧ s'.heap = s.heap ∧
      Decoded (unpacked ++ [e]) s' := by
  obtain ⟨init, last, parent, hcomps, hnames, hresolve, hmissing⟩ := h.parent hwf
  obtain ⟨hlink, hdir⟩ := TarEntry.stMode_type (hwf.typed e (by simp))
  have hparent := h.vfs.wf.resolve_lt h.vfs.root hresolve
  have hfresh : (s.vfs.allocAsset (hd.asset s.inodeCnt)).assets s.vfs.assetCnt =
      hd.asset s.inodeCnt := Function.update_self _ _ _
  have hv := h.vfs.allocAsset (hd.asset s.inodeCnt)
  -- The node is made in its directory.
  have hcreate : vfsCreateNodeDeep links vfsRoot s.vfs.assetCnt (some ramfsFilesystem) e.path
      (s.vfs.allocAsset (hd.asset s.inodeCnt)) = some _ :=
    hv.createLast hcomps hnames hresolve hmissing links s.vfs.assetCnt (some ramfsFilesystem)
  have hinside : parent < (s.vfs.allocAsset (hd.asset s.inodeCnt)).nodeCnt := hparent
  have hspec := vfsCreateNode_spec s.vfs.assetCnt (some ramfsFilesystem) last hinside
  have hvfs := hspec.inv hv hinside (Nat.lt_succ_self _) (by rw [hfresh, hmode]; exact hlink)
    hmissing
  have hnode := congrArg VfsNode.asset hspec.node
  have hasset := hspec.assets s.vfs.assetCnt (Nat.lt_succ_self _)
  rw [hfresh] at hasset
  generalize vfsCreateNode parent s.vfs.assetCnt (some ramfsFilesystem) last false
    (s.vfs.allocAsset (hd.asset s.inodeCnt)) = v at hcreate hspec hvfs hnode hasset
  have hnode' : (v.nodes s.vfs.nodeCnt).asset = s.vfs.assetCnt := hnode
  have hkind : v.mode s.vfs.nodeCnt = e.stMode := by
    rw [VfsState.mode, hnode', hasset]
    exact hmode _
  obtain ⟨s₁, hhandle⟩ : ∃ s₁, s.addHandle (some ⟨block, header + 512⟩) = some s₁ :=
    ⟨_, if_pos (h.count ▸ hroom)⟩
  have hentry : Pastoral.unpackEntry links block header hd s = some { s₁ with vfs := v } := by
    unfold Pastoral.unpackEntry
    rw [hhandle, bind_some, hname, hcreate, map_some]
    rw [show v.mode (s.vfs.allocAsset (hd.asset s.inodeCnt)).nodeCnt = e.stMode from hkind, hlink]
    rfl
  have hadd := unpackEntry_added h.ram hentry
  refine ⟨_, hentry, hadd.heap, h.grown hcomps hresolve hmissing hadd hspec (fun hne => ?_) hvfs ?_⟩
  · rw [hfresh, hmode, hdir] at hne
    cases hd' : e.dir with
    | false => exact absurd (by rw [hd']; rfl) hne
    | true => rfl
  · have hinserted := hspec.inserted hinside
    have hram : RamfsState.IsRamfs { s₁ with vfs := v } s.vfs.nodeCnt := by
      refine ⟨?_, ?_⟩
      · exact hspec.lt_nodeCnt
      · rw [RamfsState.assetOf, hnode', hasset]
        rfl
    refine ⟨?_, hkind, s.handleCnt, hadd.shows_new h.ram hram (le_refl _) hsize ?_⟩
    · refine (hinserted.resolve_iff h.vfs.wf hmissing h.vfs.root ?_).mpr
        (.inr ⟨init, hcomps, hresolve, rfl⟩)
      rw [hcomps]
      exact hnames
    · -- The buffer is the data in the archive.
      exact ⟨hblock, fun hobject => absurd hobject (by rw [hplain]; decide), hfit, hdata⟩

end Unpacked

/-! ## The whole archive -/

section Archive

variable {s : RamfsState} {unpacked es : List TarEntry} {bytes done : List (BitVec 8)}
  {block address links : ℕ}

theorem encodes_nil {bytes : List (BitVec 8)} (h : Encodes es bytes) (hnil : bytes = []) :
    es = [] := by
  cases h with
  | done blocks => rfl
  | entry hheader =>
    have hlen := congrArg length hnil
    rw [length_append, hheader.length] at hlen
    simp at hlen

theorem magicMatches_zeros {blocks : ℕ} (hpos : 0 < blocks) :
    magicMatches (done ++ List.replicate (512 * blocks) 0#8) done.length = some false := by
  have hslice : slice (done ++ List.replicate (512 * blocks) 0#8) (done.length + 257) 5 =
      List.replicate 5 0#8 := by
    rw [slice, drop_append, drop_eq_nil_of_le (by omega), nil_append,
      drop_replicate, take_replicate,
      Nat.min_eq_left (by omega)]
  rw [magicMatches, if_pos (by simp only [length_append, length_replicate]; omega), hslice]
  decide

theorem Decoded.unpack (henc : Encodes es bytes) (h : Decoded unpacked s)
    (hwf : WellFormed (unpacked ++ es)) (hne : bytes ≠ []) {entries : ℕ}
    (hfuel : es.length < entries) (hroom : (unpacked ++ es).length ≤ handleLimit)
    (hblock : block < s.heap.blockCnt) (hplain : (s.heap.blocks block).slab = false)
    (hbytes : (s.heap.blocks block).bytes = done ++ bytes)
    (haddress : address + (done ++ bytes).length < 2 ^ 64) :
    ∃ s', Pastoral.unpack links block address entries (address + done.length) s = some s' ∧
      Decoded (unpacked ++ es) s' := by
  induction henc generalizing unpacked s done entries with
  | done blocks =>
    obtain ⟨entries, rfl⟩ := Nat.exists_eq_succ_of_ne_zero (ne_of_gt hfuel)
    have hpos : 0 < blocks := by
      refine pos_of_ne_zero fun hzero => hne ?_
      rw [hzero]
      rfl
    refine ⟨s, ?_, ?_⟩
    · rw [Pastoral.unpack, if_neg (by omega), hbytes, Nat.add_sub_cancel_left,
        magicMatches_zeros hpos]
      rfl
    · rw [append_nil]
      exact h
  | @entry e es header pad rest hheader hpad hdvd henc ih =>
    obtain ⟨entries, rfl⟩ := Nat.exists_eq_succ_of_ne_zero (ne_of_gt (Nat.zero_lt_of_lt hfuel))
    have hzero := hwf.noZero e (by simp)
    obtain ⟨hmagic, hd, hread, hname, hsize, hsmall, hmode⟩ :=
      hheader.read hzero done (e.data ++ (pad ++ rest))
    have hlength := hheader.length
    have htotal : (done ++ (header ++ (e.data ++ (pad ++ rest)))).length =
        done.length + 512 + e.data.length + pad.length + rest.length := by
      simp only [length_append]
      omega
    have hsplit : done ++ (header ++ (e.data ++ (pad ++ rest))) =
        (done ++ header ++ e.data ++ pad) ++ rest := by
      simp only [List.append_assoc]
    have hlist : unpacked ++ [e] ++ es = unpacked ++ e :: es := by
      rw [List.append_assoc, singleton_append]
    -- The entry at this header.
    have hfit : done.length + 512 ≤ (s.heap.blocks block).bytes.length := by
      rw [hbytes]
      omega
    have hdata : e.data <+: (s.heap.blocks block).bytes.drop (done.length + 512) := by
      rw [hbytes, ← List.append_assoc, drop_left' (by rw [length_append, hlength])]
      exact prefix_append _ _
    have hless : es.length < entries := Nat.lt_of_succ_lt_succ hfuel
    have hcount : unpacked.length < handleLimit := by
      rw [length_append, length_cons] at hroom
      omega
    obtain ⟨s₁, hentry, hheap, hdecoded⟩ :=
      h.unpackEntry hwf hname hsize hmode hcount hblock hplain hfit hdata links
    have hbound : address + done.length + 512 + e.data.length + pad.length < 2 ^ 64 := by
      rw [htotal] at haddress
      omega
    have hnext := nextHeader_eq hpad hdvd hbound hsmall
    have hloop : Pastoral.unpack links block address (entries + 1) (address + done.length) s =
        if rest = [] then some s₁
        else Pastoral.unpack links block address entries
          (address + (done ++ header ++ e.data ++ pad).length) s₁ := by
      have hplace : address + (done ++ header ++ e.data ++ pad).length =
          address + done.length + 512 + e.data.length + pad.length := by
        simp only [length_append]
        omega
      have hend : address + done.length + 512 + e.data.length + pad.length ≥
          wrap (address + (done ++ (header ++ (e.data ++ (pad ++ rest)))).length) ↔ rest = [] := by
        rw [wrap_of_lt haddress, htotal, ← length_eq_zero_iff]
        omega
      rw [Pastoral.unpack, if_neg (by omega), hbytes, Nat.add_sub_cancel_left, hmagic,
        bind_some, if_pos rfl, hread, bind_some, hentry,
        show (hd.asset s.inodeCnt).stSize = e.data.length from hsize, hnext, hplace]
      exact if_congr hend rfl rfl
    rw [hloop]
    split_ifs with hlast
    · obtain rfl := encodes_nil henc hlast
      exact ⟨s₁, rfl, hdecoded⟩
    · obtain ⟨s', hrest, hdone⟩ := ih hdecoded (hlist ▸ hwf) hlast
        hless (hlist ▸ hroom) (by rw [hheap]; exact hblock)
        (by rw [hheap]; exact hplain) (by rw [hheap, hbytes]; exact hsplit)
        (by rw [← hsplit]; exact haddress)
      exact ⟨s', hrest, hlist ▸ hdone⟩

theorem Decoded.search (h : Decoded unpacked s) (hwf : WellFormed unpacked) {e : TarEntry}
    (he : e ∈ unpacked) {node : ℕ} (hnode : EntryAt s e node) (fuel : ℕ) :
    vfsSearchAbsolute s.vfs (fuel + 1) vfsRoot e.path true = some (some node) := by
  have hcomps : components e.path ≠ [] := hwf.named e he
  have hpath : e.path ≠ [] := by
    intro hnil
    exact hcomps (by rw [hnil]; rfl)
  have hlookup : s.vfs.lookup vfsRoot e.comps = some node := by
    refine lookup_of_resolve (hwf.named e he) (fun k hk => not_or.mp (hwf.plain e he k hk))
      hnode.resolve fun ls hls hpre hproper m hm => ?_
    -- The nodes on the way are directories.
    obtain ⟨before, after, hlist⟩ := append_of_mem he
    obtain ⟨d, hd, hdir, hdc⟩ := hwf.listed before e after hlist ls hls hpre hproper
    have hmem := hlist ▸ mem_append_left _ hd
    obtain ⟨m', hm'⟩ := h.entries d hmem
    obtain rfl := some.inj ((hdc ▸ hm'.resolve).symm.trans hm)
    have hmode : s.vfs.mode m' = d.stMode := hm'.mode
    rw [hmode, (TarEntry.stMode_type (hwf.typed d hmem)).2]
    exact hdir
  rw [h.vfs.searchAbsolute fuel true hpath h.vfs.root, lookup_components h.rootDir hcomps]
  exact congrArg some hlookup

/-- **`initramfs` decodes archives**: after unpacking an archive of at least one block, every entry
is found under its path, with its type, its mode and its size, and its data is what is read; every
other node is one of the three that there were or an entry `.` or `..` of a directory of the
archive. -/
theorem initramfs_decodes (links address fuel : ℕ) {entries : List TarEntry}
    (hwf : WellFormed entries) (henc : Encodes entries bytes) (hne : bytes ≠ [])
    (hroom : entries.length ≤ handleLimit) (haddress : address + bytes.length < 2 ^ 64)
    (hfuel : entries.length < fuel) :
    ∃ s, ramfsInit.unpackArchive links fuel address bytes = some s ∧
      (∀ e ∈ entries, ∃ node, (∀ depth, vfsSearchAbsolute s.vfs (depth + 1) vfsRoot e.path true =
          some (some node)) ∧
        (s.assetOf node).stMode = e.stMode ∧ e.stMode &&& sIfmt = e.typeMode ∧
        (s.assetOf node).stSize = e.data.length ∧
        ∀ off cnt : ℕ, off + cnt < 2 ^ 63 →
          ramfsRead s (s.vfs.nodes node).asset off cnt = some (slice e.data off cnt)) ∧
      ∀ n < s.vfs.nodeCnt, n < 3 ∨
        (∃ e ∈ entries, vfsSearchAbsolute s.vfs 1 vfsRoot e.path true = some (some n)) ∨
        (IsDot (s.vfs.nodes n).name ∧ ∃ d ∈ entries, d.dir = true ∧ ∃ p,
          (s.vfs.nodes n).parent = some p ∧
            vfsSearchAbsolute s.vfs 1 vfsRoot d.path true = some (some p)) := by
  have hnew := push_new ramfsInit.heap ⟨bytes, false⟩
  have hdone := decoded_init ⟨bytes, false⟩
  have hbytes : ((ramfsInit.heap.push ⟨bytes, false⟩).blocks ramfsInit.heap.blockCnt).bytes =
      [] ++ bytes := congrArg Block.bytes hnew
  obtain ⟨s, hunpack, hdecoded⟩ : ∃ s, Pastoral.unpack links ramfsInit.heap.blockCnt address fuel
      address { ramfsInit with heap := ramfsInit.heap.push ⟨bytes, false⟩ } = some s ∧
        Decoded ([] ++ entries) s :=
    Decoded.unpack henc hdone hwf hne hfuel hroom (Nat.lt_succ_self _)
      (congrArg Block.slab hnew) hbytes haddress
  refine ⟨s, (unpackArchive_eq _ _ _ _ _).trans hunpack, fun e he => ?_, fun n hn => ?_⟩
  · obtain ⟨node, hnode⟩ := hdecoded.entries e he
    obtain ⟨handle, hshown⟩ := hnode.shown
    exact ⟨node, hdecoded.search hwf he hnode, hnode.mode, hwf.typed e he, hshown.size,
      fun _ _ => hshown.read⟩
  · rcases hdecoded.nodes n hn with hroot | ⟨e, he, hnode⟩ | ⟨hdot, d, hd, hdir, p, hp, hnode⟩
    · exact .inl hroot
    · exact .inr (.inl ⟨e, he, hdecoded.search hwf he hnode 0⟩)
    · exact .inr (.inr ⟨hdot, d, hd, hdir, p, hp, hdecoded.search hwf hd hnode 0⟩)

def ustarField (width : ℕ) (content : Name) : List (BitVec 8) :=
  content ++ List.replicate (width - content.length) 0#8

def encodeHeader (e : TarEntry) (mode size : Name) : List (BitVec 8) :=
  ustarField 100 e.path ++ ustarField 24 mode ++ ustarField 32 size ++
    (e.typeflag :: ustarField 100 []) ++ ustarField 255 ustarMagic

def sampleDir : TarEntry := ⟨[0x2e#8, slash, 0x64#8], true, 0o755#32, []⟩

def sampleFile : TarEntry := ⟨[0x2e#8, slash, 0x64#8, slash, 0x66#8], false, 0o644#32, [1#8, 2#8]⟩

def sampleArchive : List (BitVec 8) :=
  encodeHeader sampleDir [0x37#8, 0x35#8, 0x35#8] [] ++ (sampleDir.data ++ ([] ++
    (encodeHeader sampleFile [0x36#8, 0x34#8, 0x34#8] [0x32#8] ++ (sampleFile.data ++
      (List.replicate 510 0#8 ++ List.replicate (512 * 0) 0#8)))))

theorem isHeader_sampleDir :
    IsHeader sampleDir (encodeHeader sampleDir [0x37#8, 0x35#8, 0x35#8] []) :=
  ⟨by decide +kernel, by decide +kernel,
    ⟨[0x37#8, 0x35#8, 0x35#8], by decide, by decide +kernel, by decide⟩,
    ⟨[], by decide, by decide +kernel, by decide⟩, by decide +kernel, by decide +kernel⟩

theorem isHeader_sampleFile :
    IsHeader sampleFile (encodeHeader sampleFile [0x36#8, 0x34#8, 0x34#8] [0x32#8]) :=
  ⟨by decide +kernel, by decide +kernel,
    ⟨[0x36#8, 0x34#8, 0x34#8], by decide, by decide +kernel, by decide⟩,
    ⟨[0x32#8], by decide, by decide +kernel, by decide⟩, by decide +kernel, by decide +kernel⟩

theorem encodes_sample : Encodes [sampleDir, sampleFile] sampleArchive := by
  refine .entry isHeader_sampleDir (by decide) (by decide) (.entry isHeader_sampleFile ?_ ?_ (.done 0))
  · rw [length_replicate]
    decide
  · rw [length_replicate]
    decide

theorem wellFormed_sample : WellFormed [sampleDir, sampleFile] := by
  refine ⟨by decide, by decide, by decide, by decide, by decide, ?_⟩
  intro before e after hlist ls hls hpre hproper
  have hinits := (mem_inits ls e.comps).mpr hpre
  rcases before with - | ⟨b, - | ⟨c, before⟩⟩
  · obtain ⟨rfl, -⟩ := cons.inj hlist
    have hnone : ∀ ls ∈ sampleDir.comps.inits, ls ≠ [] → ls = sampleDir.comps := by decide
    exact absurd (hnone ls hinits hls) hproper
  · obtain ⟨rfl, hrest⟩ := cons.inj hlist
    obtain ⟨rfl, -⟩ := cons.inj hrest
    have hone : ∀ ls ∈ sampleFile.comps.inits, ls ≠ [] → ls ≠ sampleFile.comps →
        sampleDir.comps = ls := by decide
    exact ⟨sampleDir, mem_singleton.mpr rfl, rfl, hone ls hinits hls hproper⟩
  · simp at hlist

/-- **A directory and a file in it**: both are found, and the two bytes are read. -/
theorem initramfs_decodes_sample : ∃ s, ramfsInit.unpackArchive 0 3 0x1000 sampleArchive = some s ∧
    s.vfs.nodeCnt = 7 ∧ ∃ node,
      vfsSearchAbsolute s.vfs 1 vfsRoot sampleFile.path true = some (some node) ∧
      (s.assetOf node).stMode = sIfreg ||| 0o644#32 ∧
      ramfsRead s (s.vfs.nodes node).asset 0 100 = some [1#8, 2#8] := by
  have hlen : sampleArchive.length = 1536 := by decide +kernel
  obtain ⟨s, hs, hentries, -⟩ := initramfs_decodes 0 0x1000 3 wellFormed_sample encodes_sample
    (ne_nil_of_length_pos (by rw [hlen]; decide)) (by decide) (by rw [hlen]; decide)
    (by decide)
  have hcomputed : ((ramfsInit.unpackArchive 0 3 0x1000 sampleArchive).map fun s =>
      s.vfs.nodeCnt) = some 7 := by decide +kernel
  rw [hs] at hcomputed
  obtain ⟨node, hsearch, hmode, -, -, hread⟩ := hentries sampleFile (by simp)
  exact ⟨s, hs, Option.some.inj hcomputed, node, hsearch 0, hmode,
    hread 0 100 (by decide)⟩

def rootEntry : TarEntry := ⟨[0x2e#8, slash], true, 0o755#32, []⟩

def rootArchive : List (BitVec 8) :=
  encodeHeader rootEntry [0x37#8, 0x35#8, 0x35#8] [] ++ (rootEntry.data ++ ([] ++
    List.replicate (512 * 0) 0#8))

theorem encodes_root : Encodes [rootEntry] rootArchive := by
  refine .entry ⟨?_, ?_, ?_, ?_, ?_, ?_⟩ (by decide) (by decide) (.done 0)
  · decide +kernel
  · decide +kernel
  · exact ⟨[0x37#8, 0x35#8, 0x35#8], by decide, by decide +kernel, by decide⟩
  · exact ⟨[], by decide, by decide +kernel, by decide⟩
  · decide +kernel
  · decide +kernel

/-- **An entry for the root is dropped**: `./` leads to the root, which keeps the mode that
`vfs_init` gave it. -/
theorem root_entry_dropped : (Encodes [rootEntry] rootArchive ∧ rootEntry.comps = [] ∧
      rootEntry.stMode = sIfdir ||| 0o755#32 ∧
      ∃ s, ramfsInit.unpackArchive 0 2 0x1000 rootArchive = some s ∧
        vfsSearchAbsolute s.vfs 1 vfsRoot rootEntry.path true = some (some vfsRoot) ∧
        (s.assetOf vfsRoot).stMode = sIfdir ||| 0o751#32) ∧
    Encodes [] [] ∧ ∀ links entries address,
      ramfsInit.unpackArchive links entries address [] = none := by
  refine ⟨⟨encodes_root, by decide, by decide, ?_⟩, .done 0, fun links entries address => ?_⟩
  · have hcomputed : ((ramfsInit.unpackArchive 0 2 0x1000 rootArchive).map fun s =>
        (vfsSearchAbsolute s.vfs 1 vfsRoot rootEntry.path true, (s.assetOf vfsRoot).stMode)) =
        some (some (some vfsRoot), sIfdir ||| 0o751#32) := by decide +kernel
    obtain ⟨s, hs, hvalues⟩ := map_eq_some_iff.mp hcomputed
    obtain ⟨hsearch, hmode⟩ := Prod.mk.inj hvalues
    exact ⟨s, hs, hsearch, hmode⟩
  · rw [unpackArchive_eq]
    cases entries with
    | zero => rfl
    | succ entries =>
      -- There is no magic to be read.
      rw [Pastoral.unpack, if_neg (lt_irrefl _), push_new]
      rfl

end Archive

end Pastoral
