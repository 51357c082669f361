import Mathlib.Logic.Function.Basic
import Pastoral.Theory.NameTree
import Pastoral.Theory.Run

/-!
# The tree of files

`vfs.c`: nodes with names and children, the lookup of a path, and the creation of a node with the
directories above it that are missing.

## Main definitions

* `vfsSearchAbsolute`, `vfsCreateNodeDeep`

## Main results

* `create_then_lookup`: what was created is found, along every run
-/

open Function List NameTree Option Transition

namespace Pastoral

/-! ## Names, modes and records -/

abbrev Name := List (BitVec 8)

def slash : BitVec 8 := 0x2f#8

def dot : Name := [0x2e#8]

def dotdot : Name := [0x2e#8, 0x2e#8]

def scanPath (cur : Name) : Name → List Name
  | [] => if cur = [] then [] else [cur]
  | c :: cs =>
    if c = slash then if cur = [] then scanPath [] cs else cur :: scanPath [] cs
    else scanPath (cur ++ [c]) cs

def subpathList (path : Name) : List Name := scanPath [] path

abbrev sIfmt : BitVec 32 := 0xf000#32
abbrev sIfreg : BitVec 32 := 0x8000#32
abbrev sIfdir : BitVec 32 := 0x4000#32
abbrev sIflnk : BitVec 32 := 0xa000#32

def sIsdir (mode : BitVec 32) : Bool := mode &&& sIfmt == sIfdir

def sIslnk (mode : BitVec 32) : Bool := mode &&& sIfmt == sIflnk

structure Asset where
  stMode : BitVec 32
  stIno : BitVec 64
  stSize : ℤ
  ramfs : Bool
  deriving DecidableEq, Repr

structure VfsNode where
  name : Name
  asset : ℕ
  filesystem : Option ℕ
  parent : Option ℕ
  mountpoint : Option ℕ
  children : List ℕ
  symlink : Option Name
  deriving DecidableEq, Repr

structure VfsState where
  nodes : ℕ → VfsNode
  nodeCnt : ℕ
  assets : ℕ → Asset
  assetCnt : ℕ

def vfsRoot : ℕ := 0

def ramfsFilesystem : ℕ := 0

def VfsState.mode (s : VfsState) (node : ℕ) : BitVec 32 := (s.assets (s.nodes node).asset).stMode

def VfsState.mounted (s : VfsState) (node : ℕ) : ℕ := (s.nodes node).mountpoint.getD node

/-! ## Lookup -/

abbrev VfsState.childNamed (s : VfsState) (parent : ℕ) (name : Name) : Option ℕ :=
  (s.nodes parent).children.find? fun c => (s.nodes c).name = name

def vfsSearchRelative (follow : ℕ → Name → Option (Option ℕ)) (s : VfsState) (parent : ℕ)
    (name : Name) (symlink : Bool) : Option (Option ℕ) :=
  if name = dot then some (some parent)
  else if name = dotdot then some (s.nodes parent).parent
  else
    match s.childNamed parent name with
    | none => some none
    | some node =>
      if symlink && sIslnk (s.mode node) then
        (s.nodes node).symlink.bind fun sympath =>
          follow (if sympath.head? = some slash then vfsRoot else parent) sympath
      else some (some node)

def searchFrom (follow : ℕ → Name → Option (Option ℕ)) (s : VfsState) (symfollow : Bool) :
    ℕ → List Name → Option (Option ℕ)
  | _, [] => some (some vfsRoot)
  | parent, [name] => vfsSearchRelative follow s parent name symfollow
  | parent, name :: next :: rest =>
    (vfsSearchRelative follow s parent name true).bind fun found =>
      match found with
      | none => some none
      | some node =>
        if sIsdir (s.mode (s.mounted node)) then
          searchFrom follow s symfollow (s.mounted node) (next :: rest)
        else some none

def vfsSearchAbsolute (s : VfsState) : ℕ → ℕ → Name → Bool → Option (Option ℕ)
  | 0, _, _, _ => none
  | fuel + 1, parent, path, symfollow =>
    if path = [] then none
    else
      searchFrom (fun parent sympath => vfsSearchAbsolute s fuel parent sympath true) s symfollow
        parent (subpathList path)

/-! ## Creation -/

def VfsState.allocAsset (s : VfsState) (asset : Asset) : VfsState :=
  { s with assets := update s.assets s.assetCnt asset, assetCnt := s.assetCnt + 1 }

def VfsState.allocNode (s : VfsState) (node : VfsNode) : VfsState :=
  { s with nodes := update s.nodes s.nodeCnt node, nodeCnt := s.nodeCnt + 1 }

def VfsState.pushChild (s : VfsState) (parent child : ℕ) : VfsState :=
  { s with
    nodes := update s.nodes parent
      { s.nodes parent with children := (s.nodes parent).children ++ [child] } }

def vfsDefaultAsset (mode : BitVec 32) : Asset := ⟨mode, 0#64, 0, false⟩

def VfsNode.new (name : Name) (asset : ℕ) (filesystem : Option ℕ) (parent : ℕ) : VfsNode :=
  ⟨name, asset, filesystem, some parent, none, [], none⟩

def VfsState.addDot (s : VfsState) (node : ℕ) (filesystem : Option ℕ) (name : Name) : VfsState :=
  (((s.allocAsset (vfsDefaultAsset sIfdir)).allocNode
    (VfsNode.new name s.assetCnt filesystem node)).pushChild node s.nodeCnt)

def vfsCreateNode (parent asset : ℕ) (filesystem : Option ℕ) (name : Name) (dangle : Bool)
    (s : VfsState) : VfsState :=
  let node := s.nodeCnt
  let s := s.allocNode (VfsNode.new name asset filesystem parent)
  let s := if dangle then s else s.pushChild parent node
  if sIsdir (s.assets asset).stMode then
    (s.addDot node filesystem dot).addDot node filesystem dotdot
  else s

def walkExisting (follow : ℕ → Name → Option (Option ℕ)) (s : VfsState) :
    ℕ → List Name → Option (ℕ × List Name)
  | parent, [] => some (parent, [])
  | parent, name :: rest =>
    (vfsSearchRelative follow s parent name true).bind fun found =>
      match found with
      | none => some (parent, name :: rest)
      | some node => walkExisting follow s (s.mounted node) rest

def createRest (asset : ℕ) (filesystem : Option ℕ) : ℕ → List Name → VfsState → ℕ × VfsState
  | parent, [], s => (parent, s)
  | parent, [name], s => (s.nodeCnt, vfsCreateNode parent asset filesystem name false s)
  | parent, name :: next :: rest, s =>
    let s' := vfsCreateNode parent s.assetCnt (s.nodes parent).filesystem name false
      (s.allocAsset (vfsDefaultAsset sIfdir))
    createRest asset filesystem (s'.mounted s.nodeCnt) (next :: rest) s'

def vfsCreateNodeDeep (fuel parent asset : ℕ) (filesystem : Option ℕ) (path : Name)
    (s : VfsState) : Option (ℕ × VfsState) :=
  if path = [] then none
  else
    (walkExisting (fun parent sympath => vfsSearchAbsolute s fuel parent sympath true) s parent
      (subpathList path)).map fun r => createRest asset filesystem r.1 r.2 s

abbrev rootMode : BitVec 32 := sIfdir ||| 0o751#32

def vfsInit : VfsState where
  nodes n :=
    if n = 0 then ⟨[slash], 0, some ramfsFilesystem, none, none, [1, 2], none⟩
    else if n = 1 then ⟨dot, 1, none, some 0, none, [], none⟩
    else if n = 2 then ⟨dotdot, 2, none, some 0, none, [], none⟩
    else ⟨[], 0, none, none, none, [], none⟩
  nodeCnt := 3
  assets _ := ⟨rootMode, 0#64, 0, true⟩
  assetCnt := 3

/-! ## What a new node changes -/

section Create

variable {s s' : VfsState} {parent asset : ℕ} {filesystem : Option ℕ} {name : Name}

structure CreatedNode (s s' : VfsState) (parent asset : ℕ) (filesystem : Option ℕ) (name : Name)
    (entries : List ℕ) : Prop where
  kept : ∀ n < s.nodeCnt, n ≠ parent → s'.nodes n = s.nodes n
  above : s'.nodes parent =
    { s.nodes parent with children := (s.nodes parent).children ++ [s.nodeCnt] }
  node : s'.nodes s.nodeCnt = { VfsNode.new name asset filesystem parent with children := entries }
  nodeCnt : s'.nodeCnt = s.nodeCnt + 1 + entries.length
  inside : ∀ d ∈ entries, s.nodeCnt < d ∧ d < s'.nodeCnt
  cover : ∀ d, s.nodeCnt < d → d < s'.nodeCnt → d ∈ entries
  dots : ∀ d ∈ entries, ∃ a, s.assetCnt ≤ a ∧ a < s'.assetCnt ∧
    s'.assets a = vfsDefaultAsset sIfdir ∧
    (s'.nodes d = VfsNode.new dot a filesystem s.nodeCnt ∨
      s'.nodes d = VfsNode.new dotdot a filesystem s.nodeCnt)
  distinct : (entries.map fun d => (s'.nodes d).name).Nodup
  assetCnt : s.assetCnt ≤ s'.assetCnt
  assets : ∀ a < s.assetCnt, s'.assets a = s.assets a

theorem addDot_nodes (s : VfsState) (filesystem : Option ℕ) (name : Name) {node : ℕ}
    (hnode : node < s.nodeCnt) :
    (s.addDot node filesystem name).nodes node =
        { s.nodes node with children := (s.nodes node).children ++ [s.nodeCnt] } ∧
      (s.addDot node filesystem name).nodes s.nodeCnt =
        VfsNode.new name s.assetCnt filesystem node ∧
      ∀ n ≠ node, n ≠ s.nodeCnt → (s.addDot node filesystem name).nodes n = s.nodes n := by
  unfold VfsState.addDot VfsState.pushChild VfsState.allocNode VfsState.allocAsset
  dsimp only
  refine ⟨?_, ?_, fun n hn hcnt => ?_⟩
  · rw [update_self, update_of_ne (by omega)]
  · rw [update_of_ne (by omega), update_self]
  · rw [update_of_ne hn, update_of_ne hcnt]

theorem created_file (hparent : parent < s.nodeCnt) :
    CreatedNode s ((s.allocNode (VfsNode.new name asset filesystem parent)).pushChild parent
      s.nodeCnt) parent asset filesystem name [] := by
  unfold VfsState.pushChild VfsState.allocNode
  refine ⟨fun n hn hne => ?_, ?_, ?_, rfl, nofun, ?_, nofun, nodup_nil, le_refl _,
    fun _ _ => rfl⟩
  · dsimp only
    rw [update_of_ne hne, update_of_ne (by omega)]
  · dsimp only
    rw [update_self, update_of_ne (by omega)]
  · dsimp only
    rw [update_of_ne (by omega), update_self]
    rfl
  · intro d hlt hd
    dsimp only at hd
    omega

theorem CreatedNode.addDot {entries : List ℕ} {d : Name}
    (h : CreatedNode s s' parent asset filesystem name entries) (hparent : parent < s.nodeCnt)
    (hd : d = dot ∨ d = dotdot) (hnew : ∀ e ∈ entries, (s'.nodes e).name ≠ d) :
    CreatedNode s (s'.addDot s.nodeCnt filesystem d) parent asset filesystem name
      (entries ++ [s'.nodeCnt]) := by
  have hcnt := h.nodeCnt
  have hlt : s.nodeCnt < s'.nodeCnt := by omega
  obtain ⟨hself, hentry, hother⟩ := addDot_nodes s' filesystem d hlt
  have hcnt' : (s'.addDot s.nodeCnt filesystem d).nodeCnt = s'.nodeCnt + 1 := rfl
  have hasset : (s'.addDot s.nodeCnt filesystem d).assetCnt = s'.assetCnt + 1 := rfl
  have hassets : (s'.addDot s.nodeCnt filesystem d).assets =
      update s'.assets s'.assetCnt (vfsDefaultAsset sIfdir) := rfl
  have hkept : ∀ e ∈ entries, (s'.addDot s.nodeCnt filesystem d).nodes e = s'.nodes e := by
    intro e he
    obtain ⟨hlt, hlt'⟩ := h.inside e he
    exact hother e (by omega) (by omega)
  refine ⟨fun n hn hne => ?_, ?_, ?_, ?_, fun e he => ?_, fun e hlt he => ?_, fun e he => ?_, ?_, ?_,
    fun a ha => ?_⟩
  · rw [hother n (by omega) (by omega)]
    exact h.kept n hn hne
  · rw [hother parent (by omega) (by omega)]
    exact h.above
  · rw [hself, h.node]
  · rw [length_append, length_singleton]
    omega
  · rcases mem_append.mp he with he | he
    · have hinside := h.inside e he
      omega
    · obtain rfl := mem_singleton.mp he
      omega
  · by_cases heq : e = s'.nodeCnt
    · exact mem_append_right _ (mem_singleton.mpr heq)
    · exact mem_append_left _ (h.cover e hlt (by omega))
  · have hle := h.assetCnt
    rcases mem_append.mp he with he | he
    · obtain ⟨a, hle, hlt, ha, hnode⟩ := h.dots e he
      refine ⟨a, hle, by omega, ?_, ?_⟩
      · rw [hassets, update_of_ne (by omega)]
        exact ha
      · rw [hkept e he]
        exact hnode
    · obtain rfl := mem_singleton.mp he
      refine ⟨s'.assetCnt, hle, by omega, ?_, ?_⟩
      · rw [hassets, update_self]
      · rw [hentry]
        rcases hd with rfl | rfl
        · exact .inl rfl
        · exact .inr rfl
  · have hnames : (entries.map fun e => ((s'.addDot s.nodeCnt filesystem d).nodes e).name) =
        entries.map fun e => (s'.nodes e).name :=
      map_congr_left fun e he => by rw [hkept e he]
    rw [map_append, map_singleton, hnames, hentry]
    refine nodup_append.mpr ⟨h.distinct, nodup_singleton _, ?_⟩
    rintro a ha b hb rfl
    obtain ⟨e, he, rfl⟩ := mem_map.mp ha
    exact hnew e he (mem_singleton.mp hb)
  · have hle := h.assetCnt
    omega
  · have hle := h.assetCnt
    rw [hassets, update_of_ne (by omega)]
    exact h.assets a ha

theorem vfsCreateNode_spec (asset : ℕ) (filesystem : Option ℕ) (name : Name)
    (hparent : parent < s.nodeCnt) :
    CreatedNode s (vfsCreateNode parent asset filesystem name false s) parent asset filesystem name
      (if sIsdir (s.assets asset).stMode then [s.nodeCnt + 1, s.nodeCnt + 2] else []) := by
  have hfile : CreatedNode s _ parent asset filesystem name [] := created_file hparent
  split_ifs with hdir
  · have heq : vfsCreateNode parent asset filesystem name false s = _ := if_pos hdir
    rw [heq]
    have hfirst := hfile.addDot hparent (.inl rfl) nofun
    refine hfirst.addDot hparent (.inr rfl) fun e he => ?_
    -- The entry there is so far is `"."`.
    obtain rfl := mem_singleton.mp he
    have hlt := hfile.nodeCnt
    rw [(addDot_nodes _ filesystem dot (lt_of_lt_of_eq (Nat.lt_succ_self _) hlt.symm)).2.1]
    exact (by decide : dot ≠ dotdot)
  · have heq : vfsCreateNode parent asset filesystem name false s = _ := if_neg hdir
    rw [heq]
    exact hfile

end Create

/-! ## Trees without links and mounts -/

def VfsState.tree (s : VfsState) : NameTree.Tree Name where
  name n := (s.nodes n).name
  children n := (s.nodes n).children
  parent n := (s.nodes n).parent
  size := s.nodeCnt

/-- Pointers lead to nodes and assets that there are, and nothing is mounted. -/
structure VfsOk (s : VfsState) : Prop where
  root : vfsRoot < s.nodeCnt
  children : ∀ n < s.nodeCnt, ∀ c ∈ (s.nodes n).children, c < s.nodeCnt
  parents : ∀ n < s.nodeCnt, ∀ p, (s.nodes n).parent = some p → p < s.nodeCnt
  unmounted : ∀ n < s.nodeCnt, (s.nodes n).mountpoint = none
  assets : ∀ n < s.nodeCnt, (s.nodes n).asset < s.assetCnt

/-- Every pointer of a node leads to one of the finitely many nodes; links may lead anywhere. -/
structure FiniteTree (s : VfsState) : Prop where
  root : vfsRoot < s.nodeCnt
  children : ∀ n < s.nodeCnt, ∀ c ∈ (s.nodes n).children, c < s.nodeCnt
  parents : ∀ n < s.nodeCnt, ∀ p, (s.nodes n).parent = some p → p < s.nodeCnt
  mounts : ∀ n < s.nodeCnt, s.mounted n < s.nodeCnt

structure VfsInv (s : VfsState) : Prop extends VfsOk s where
  wf : s.tree.WF
  orphan : (s.nodes vfsRoot).parent = none
  unlinked : ∀ n < s.nodeCnt, sIslnk (s.mode n) = false

structure VfsGrows (s s' : VfsState) : Prop where
  tree : Tree.Grows s.tree s'.tree
  asset : ∀ n < s.nodeCnt, (s'.nodes n).asset = (s.nodes n).asset
  assetCnt : s.assetCnt ≤ s'.assetCnt
  assets : ∀ a < s.assetCnt, s'.assets a = s.assets a

def VfsState.entry (s : VfsState) (parent : ℕ) (name : Name) : Option ℕ :=
  if name = dot then some parent
  else if name = dotdot then (s.nodes parent).parent
  else s.tree.child parent name

def VfsState.lookup (s : VfsState) : ℕ → List Name → Option ℕ
  | _, [] => some vfsRoot
  | parent, [name] => s.entry parent name
  | parent, name :: next :: rest =>
    (s.entry parent name).bind fun node =>
      if sIsdir (s.mode node) then s.lookup node (next :: rest) else none

section Tree

variable {s s' : VfsState} {follow : ℕ → Name → Option (Option ℕ)} {parent node : ℕ} {name : Name}
  {comps : List Name}

theorem VfsOk.mounted_eq (h : VfsOk s) (hnode : node < s.nodeCnt) : s.mounted node = node := by
  rw [VfsState.mounted, h.unmounted node hnode]
  rfl

theorem VfsOk.finite (h : VfsOk s) : FiniteTree s :=
  ⟨h.root, h.children, h.parents, fun n hn => by rwa [h.mounted_eq hn]⟩

def FollowsInside (s : VfsState) (follow : ℕ → Name → Option (Option ℕ)) : Prop :=
  ∀ p path n, p < s.nodeCnt → follow p path = some (some n) → n < s.nodeCnt

theorem FiniteTree.searchRelative_lt (h : FiniteTree s) (hfollow : FollowsInside s follow)
    (hparent : parent < s.nodeCnt) {name : Name} {symlink : Bool}
    (hsearch : vfsSearchRelative follow s parent name symlink = some (some node)) :
    node < s.nodeCnt := by
  unfold vfsSearchRelative at hsearch
  split_ifs at hsearch
  · exact some.inj (some.inj hsearch) ▸ hparent
  · exact h.parents parent hparent node (some.inj hsearch)
  · cases hfind : s.childNamed parent name with
    | none =>
      rw [hfind] at hsearch
      simp at hsearch
    | some c =>
      rw [hfind] at hsearch
      dsimp only at hsearch
      split_ifs at hsearch with hlink
      · -- The target of a link is looked up from the root or from the parent on.
        obtain ⟨sympath, -, htarget⟩ := bind_eq_some_iff.mp hsearch
        refine hfollow _ _ _ ?_ htarget
        split_ifs
        · exact h.root
        · exact hparent
      · obtain rfl := some.inj (some.inj hsearch)
        exact h.children parent hparent c (mem_of_find?_eq_some hfind)

theorem FiniteTree.searchFrom_lt (h : FiniteTree s) (hfollow : FollowsInside s follow)
    (hparent : parent < s.nodeCnt) {symfollow : Bool}
    (hsearch : searchFrom follow s symfollow parent comps = some (some node)) :
    node < s.nodeCnt := by
  induction comps generalizing parent with
  | nil => exact some.inj (some.inj hsearch) ▸ h.root
  | cons name comps ih =>
    cases comps with
    | nil => exact h.searchRelative_lt hfollow hparent hsearch
    | cons next rest =>
      obtain ⟨found, hfound, hrest⟩ := bind_eq_some_iff.mp hsearch
      cases found with
      | none => exact absurd hrest (by simp)
      | some c =>
        have hc := h.searchRelative_lt hfollow hparent hfound
        dsimp only at hrest
        split_ifs at hrest with hdir
        · exact ih (h.mounts c hc) hrest
        · simp at hrest

theorem FiniteTree.searchAbsolute_inside (h : FiniteTree s) (fuel : ℕ) :
    FollowsInside s fun p path => vfsSearchAbsolute s fuel p path true := by
  induction fuel with
  | zero => exact fun p path n _ hsearch => absurd hsearch (by simp [vfsSearchAbsolute])
  | succ fuel ih =>
    intro p path n hp hsearch
    dsimp only at hsearch
    rw [vfsSearchAbsolute] at hsearch
    split_ifs at hsearch
    exact h.searchFrom_lt ih hp hsearch

theorem VfsInv.entry_lt (h : VfsInv s) (hparent : parent < s.nodeCnt)
    (hentry : s.entry parent name = some node) : node < s.nodeCnt := by
  unfold VfsState.entry at hentry
  split_ifs at hentry
  · exact some.inj hentry ▸ hparent
  · exact h.parents parent hparent node hentry
  · exact h.wf.child_lt hparent hentry

theorem VfsInv.searchRelative (h : VfsInv s) (hparent : parent < s.nodeCnt) (symlink : Bool) :
    vfsSearchRelative follow s parent name symlink = some (s.entry parent name) := by
  unfold vfsSearchRelative VfsState.entry
  split_ifs with hdot hdotdot
  · rfl
  · rfl
  · have hchild : s.tree.child parent name = s.childNamed parent name := rfl
    cases hfind : s.childNamed parent name with
    | none => rw [hchild, hfind]
    | some node =>
      rw [hchild, hfind]
      have hlt := h.wf.child_lt hparent (hchild.trans hfind)
      simp [h.unlinked node hlt]

theorem VfsInv.searchFrom (h : VfsInv s) (symfollow : Bool) (hparent : parent < s.nodeCnt) :
    searchFrom follow s symfollow parent comps = some (s.lookup parent comps) := by
  induction comps generalizing parent with
  | nil => rfl
  | cons name comps ih =>
    cases comps with
    | nil => exact h.searchRelative hparent symfollow
    | cons next rest =>
      rw [Pastoral.searchFrom, h.searchRelative hparent, VfsState.lookup, bind_some]
      cases hentry : s.entry parent name with
      | none => rfl
      | some node =>
        have hlt := h.entry_lt hparent hentry
        dsimp only
        rw [h.mounted_eq hlt, bind_some, ih hlt]
        split_ifs <;> rfl

theorem VfsInv.searchAbsolute (h : VfsInv s) {path : Name} (fuel : ℕ) (symfollow : Bool)
    (hpath : path ≠ []) (hparent : parent < s.nodeCnt) :
    vfsSearchAbsolute s (fuel + 1) parent path symfollow =
      some (s.lookup parent (subpathList path)) := by
  rw [vfsSearchAbsolute, if_neg hpath, h.searchFrom symfollow hparent]

/-! ## Growth -/

theorem VfsGrows.refl (s : VfsState) : VfsGrows s s :=
  ⟨Tree.Grows.refl _, fun _ _ => rfl, le_refl _, fun _ _ => rfl⟩

theorem VfsGrows.trans {s'' : VfsState} (h : VfsGrows s s') (h' : VfsGrows s' s'') :
    VfsGrows s s'' :=
  ⟨h.tree.trans h'.tree,
    fun n hn => (h'.asset n (lt_of_lt_of_le hn h.tree.size)).trans (h.asset n hn),
    le_trans h.assetCnt h'.assetCnt,
    fun a ha => (h'.assets a (lt_of_lt_of_le ha h.assetCnt)).trans (h.assets a ha)⟩

theorem VfsGrows.nodeCnt (h : VfsGrows s s') : s.nodeCnt ≤ s'.nodeCnt := h.tree.size

theorem VfsGrows.mode (h : VfsGrows s s') (hok : VfsOk s) (hnode : node < s.nodeCnt) :
    s'.mode node = s.mode node := by
  rw [VfsState.mode, VfsState.mode, h.asset node hnode, h.assets _ (hok.assets node hnode)]

theorem VfsGrows.entry (h : VfsGrows s s') (hinv : VfsInv s) (hparent : parent < s.nodeCnt)
    (hentry : s.entry parent name = some node) : s'.entry parent name = some node := by
  unfold VfsState.entry at hentry ⊢
  split_ifs at hentry ⊢
  · exact hentry
  · exact (h.tree.parent parent hparent).trans hentry
  · exact h.tree.child hinv.wf hparent hentry

theorem VfsGrows.lookup (h : VfsGrows s s') (hinv : VfsInv s) (hparent : parent < s.nodeCnt)
    (hlookup : s.lookup parent comps = some node) : s'.lookup parent comps = some node := by
  induction comps generalizing parent with
  | nil => exact hlookup
  | cons name comps ih =>
    cases comps with
    | nil => exact h.entry hinv hparent hlookup
    | cons next rest =>
      rw [VfsState.lookup] at hlookup ⊢
      obtain ⟨found, hentry, hrest⟩ := bind_eq_some_iff.mp hlookup
      have hlt := hinv.entry_lt hparent hentry
      rw [h.entry hinv hparent hentry, bind_some, h.mode hinv.toVfsOk hlt]
      split_ifs at hrest ⊢
      exact ih hlt hrest

theorem VfsGrows.search (h : VfsGrows s s') (hinv : VfsInv s) (hinv' : VfsInv s') {path : Name}
    {fuel : ℕ} {symfollow : Bool} (hparent : parent < s.nodeCnt)
    (hsearch : vfsSearchAbsolute s fuel parent path symfollow = some (some node)) :
    vfsSearchAbsolute s' fuel parent path symfollow = some (some node) := by
  cases fuel with
  | zero => exact absurd hsearch (by simp [vfsSearchAbsolute])
  | succ fuel =>
    have hpath : path ≠ [] := by
      rintro rfl
      simp [vfsSearchAbsolute] at hsearch
    rw [hinv.searchAbsolute fuel symfollow hpath hparent] at hsearch
    rw [hinv'.searchAbsolute fuel symfollow hpath (lt_of_lt_of_le hparent h.nodeCnt),
      h.lookup hinv hparent (some.inj hsearch)]

theorem lookup_of_resolve (hne : comps ≠ []) (hplain : ∀ k ∈ comps, k ≠ dot ∧ k ≠ dotdot)
    (hresolve : s.tree.resolve parent comps = some node)
    (hdirs : ∀ ls, ls ≠ [] → ls <+: comps → ls ≠ comps → ∀ m, s.tree.resolve parent ls = some m →
      sIsdir (s.mode m)) : s.lookup parent comps = some node := by
  induction comps generalizing parent with
  | nil => exact absurd rfl hne
  | cons name comps ih =>
    obtain ⟨hdot, hdotdot⟩ := hplain name mem_cons_self
    have hentry : s.entry parent name = s.tree.child parent name := by
      rw [VfsState.entry, if_neg hdot, if_neg hdotdot]
    obtain ⟨c, hchild, hrest⟩ := bind_eq_some_iff.mp hresolve
    cases comps with
    | nil =>
      rw [VfsState.lookup, hentry, hchild]
      exact hrest
    | cons next rest =>
      have hdir : sIsdir (s.mode c) := by
        refine hdirs [name] (by simp) ⟨next :: rest, rfl⟩ (by simp) c ?_
        rw [Tree.resolve_cons, hchild]
        rfl
      rw [VfsState.lookup, hentry, hchild, bind_some, if_pos hdir]
      refine ih (by simp) (fun k hk => hplain k (mem_cons_of_mem name hk)) hrest ?_
      intro ls hls hpre hproper m hm
      refine hdirs (name :: ls) (by simp) ?_ (by simpa using hproper) m ?_
      · exact cons_prefix_cons.mpr ⟨rfl, hpre⟩
      · rw [Tree.resolve_cons, hchild]
        exact hm

end Tree

/-! ## A new node keeps the invariant -/

/-- The names of the two entries of a directory. -/
def IsDot (name : Name) : Prop := name = dot ∨ name = dotdot
  deriving Decidable

section NewNode

variable {s s' : VfsState} {parent asset n : ℕ} {filesystem : Option ℕ} {name : Name}
  {entries : List ℕ}

namespace CreatedNode

variable (h : CreatedNode s s' parent asset filesystem name entries)

include h

theorem old (hn : n < s.nodeCnt) : s'.nodes n = { s.nodes n with
      children := (s.nodes n).children ++ if n = parent then [s.nodeCnt] else [] } := by
  split_ifs with hparent
  · rw [hparent]
    exact h.above
  · rw [h.kept n hn hparent, append_nil]

theorem cases (hn : n < s'.nodeCnt) : n < s.nodeCnt ∨ n = s.nodeCnt ∨ n ∈ entries := by
  rcases lt_trichotomy n s.nodeCnt with hlt | heq | hgt
  · exact .inl hlt
  · exact .inr (.inl heq)
  · exact .inr (.inr (h.cover n hgt hn))

theorem entry (hn : n ∈ entries) :
    IsDot (s'.nodes n).name ∧ ∃ d a, s'.nodes n = VfsNode.new d a filesystem s.nodeCnt ∧
      a < s'.assetCnt ∧ s'.assets a = vfsDefaultAsset sIfdir := by
  obtain ⟨a, -, hlt, hasset, hdot | hdotdot⟩ := h.dots n hn
  · exact ⟨by rw [hdot]; exact .inl rfl, dot, a, hdot, hlt, hasset⟩
  · exact ⟨by rw [hdotdot]; exact .inr rfl, dotdot, a, hdotdot, hlt, hasset⟩

theorem lt_nodeCnt : s.nodeCnt < s'.nodeCnt := by
  have hcnt := h.nodeCnt
  omega

theorem grows : VfsGrows s s' := by
  refine ⟨⟨le_of_lt h.lt_nodeCnt, fun n hn => ?_, fun n hn => ?_, fun n hn => ?_⟩,
    fun n hn => ?_, h.assetCnt, h.assets⟩
  · exact (congrArg VfsNode.name (h.old hn) :)
  · exact (congrArg VfsNode.parent (h.old hn) :)
  · exact ⟨_, (congrArg VfsNode.children (h.old hn)).symm⟩
  · rw [h.old hn]

theorem inserted (hparent : parent < s.nodeCnt) :
    Tree.Inserted IsDot s.tree s'.tree parent s.nodeCnt name := by
  have hchildren : (s'.nodes s.nodeCnt).children = entries := congrArg VfsNode.children h.node
  refine ⟨h.grows.tree, hparent, rfl, congrArg VfsNode.name h.node,
    congrArg VfsNode.children h.above, fun q hq hne => congrArg VfsNode.children (h.kept q hq hne),
    fun d hd => ?_⟩
  exact (h.entry (hchildren ▸ hd : d ∈ entries)).1

theorem ok (hok : VfsOk s)
    (hparent : parent < s.nodeCnt) (hasset : asset < s.assetCnt) : VfsOk s' := by
  have hlt := h.lt_nodeCnt
  refine ⟨lt_trans hok.root hlt, fun n hn c hc => ?_, fun n hn p hp => ?_, fun n hn => ?_,
    fun n hn => ?_⟩
  · rcases h.cases hn with hn | rfl | hn
    · rw [h.old hn] at hc
      rcases mem_append.mp hc with hc | hc
      · exact lt_trans (hok.children n hn c hc) hlt
      · split_ifs at hc
        · rw [mem_singleton.mp hc]
          exact hlt
        · exact absurd hc not_mem_nil
    · rw [h.node] at hc
      exact (h.inside c hc).2
    · obtain ⟨-, d, a, hnode, -⟩ := h.entry hn
      rw [hnode] at hc
      exact absurd hc not_mem_nil
  · rcases h.cases hn with hn | rfl | hn
    · rw [h.old hn] at hp
      exact lt_trans (hok.parents n hn p hp) hlt
    · rw [h.node] at hp
      exact some.inj hp ▸ lt_trans hparent hlt
    · obtain ⟨-, d, a, hnode, -⟩ := h.entry hn
      rw [hnode] at hp
      exact some.inj hp ▸ hlt
  · rcases h.cases hn with hn | rfl | hn
    · rw [h.old hn]
      exact hok.unmounted n hn
    · rw [h.node]
      rfl
    · obtain ⟨-, d, a, hnode, -⟩ := h.entry hn
      rw [hnode]
      rfl
  · have hassets := h.assetCnt
    rcases h.cases hn with hn | rfl | hn
    · rw [h.old hn]
      exact lt_of_lt_of_le (hok.assets n hn) hassets
    · rw [h.node]
      exact lt_of_lt_of_le hasset hassets
    · obtain ⟨-, d, a, hnode, hlt, -⟩ := h.entry hn
      rw [hnode]
      exact hlt

theorem wf (hinv : VfsInv s)
    (hok : VfsOk s') (hclear : s.tree.child parent name = none) : s'.tree.WF := by
  have hwf := hinv.wf
  have hself : (s'.nodes s.nodeCnt).children = entries := congrArg VfsNode.children h.node
  have hold : ∀ p < s.nodeCnt, (s'.nodes p).children =
      (s.nodes p).children ++ if p = parent then [s.nodeCnt] else [] :=
    fun p hp => congrArg VfsNode.children (h.old hp)
  have hentry : ∀ p ∈ entries, (s'.nodes p).children = [] := by
    intro p hp
    obtain ⟨-, d, a, hnode, -⟩ := h.entry hp
    rw [hnode]
    rfl
  refine ⟨hok.children, fun p hp c hc => ?_, fun p hp => ?_⟩
  · change c ∈ (s'.nodes p).children at hc
    change (s'.nodes c).parent = some p
    rcases h.cases hp with hp | rfl | hp
    · rw [hold p hp] at hc
      rcases mem_append.mp hc with hc | hc
      · rw [h.old (hwf.inside p hp c hc)]
        exact hwf.back p hp c hc
      · split_ifs at hc with hpp
        · rw [mem_singleton.mp hc, h.node, hpp]
          rfl
        · exact absurd hc not_mem_nil
    · obtain ⟨-, d, a, hnode, -⟩ := h.entry (hself ▸ hc : c ∈ entries)
      rw [hnode]
      rfl
    · rw [hentry p hp] at hc
      exact absurd hc not_mem_nil
  · change ((s'.nodes p).children.map fun c => (s'.nodes c).name).Nodup
    rcases h.cases hp with hp | rfl | hp
    · have hnames : ((s.nodes p).children.map fun c => (s'.nodes c).name) =
          (s.nodes p).children.map fun c => (s.nodes c).name :=
        map_congr_left fun c hc => h.grows.tree.name c (hwf.inside p hp c hc)
      have hnodup := hwf.distinct p hp
      rw [hold p hp, map_append, hnames]
      split_ifs with hpp
      · subst hpp
        refine nodup_append.mpr ⟨hnodup, nodup_singleton _, ?_⟩
        rintro a ha b hb rfl
        obtain ⟨c, hc, rfl⟩ := mem_map.mp ha
        have hname : (s.nodes c).name = (s'.nodes s.nodeCnt).name := mem_singleton.mp hb
        rw [h.node] at hname
        exact Tree.child_eq_none_iff.mp hclear c hc hname
      · rw [map_nil, append_nil]
        exact hnodup
    · rw [hself]
      exact h.distinct
    · rw [hentry p hp]
      exact nodup_nil

theorem inv (hinv : VfsInv s) (hparent : parent < s.nodeCnt) (hasset : asset < s.assetCnt)
    (hlink : sIslnk (s.assets asset).stMode = false) (hclear : s.tree.child parent name = none) :
    VfsInv s' := by
  have hok := h.ok hinv.toVfsOk hparent hasset
  refine ⟨hok, h.wf hinv hok hclear, ?_, fun n hn => ?_⟩
  · rw [h.old hinv.root]
    exact hinv.orphan
  · rcases h.cases hn with hn | rfl | hn
    · rw [h.grows.mode hinv.toVfsOk hn]
      exact hinv.unlinked n hn
    · have hmode : s'.mode s.nodeCnt = (s'.assets asset).stMode := by
        rw [VfsState.mode, h.node]
        rfl
      rw [hmode, h.assets asset hasset]
      exact hlink
    · obtain ⟨-, d, a, hnode, -, hdir⟩ := h.entry hn
      have hmode : s'.mode n = (s'.assets a).stMode := by
        rw [VfsState.mode, hnode]
        rfl
      rw [hmode, hdir]
      decide

end CreatedNode

theorem VfsGrows.allocAsset (s : VfsState) (a : Asset) : VfsGrows s (s.allocAsset a) := by
  refine ⟨Tree.Grows.refl _, fun _ _ => rfl, Nat.le_succ _, fun b hb => ?_⟩
  exact update_of_ne (ne_of_lt hb) _ _

theorem VfsOk.allocAsset (h : VfsOk s) (a : Asset) : VfsOk (s.allocAsset a) :=
  ⟨h.root, h.children, h.parents, h.unmounted, fun n hn => Nat.lt_succ_of_lt (h.assets n hn)⟩

theorem VfsInv.allocAsset (h : VfsInv s) (a : Asset) : VfsInv (s.allocAsset a) := by
  refine ⟨h.toVfsOk.allocAsset a, h.wf, h.orphan, fun n hn => ?_⟩
  rw [(VfsGrows.allocAsset s a).mode h.toVfsOk hn]
  exact h.unlinked n hn

end NewNode

/-! ## Creation with the directories above -/

section Deep

variable {s s' : VfsState} {parent node asset : ℕ} {filesystem : Option ℕ} {name : Name}
  {comps : List Name}

theorem entry_of_plain (hname : ¬ IsDot name) : s.entry parent name = s.tree.child parent name := by
  rw [VfsState.entry, if_neg fun hdot => hname (.inl hdot),
    if_neg fun hdotdot => hname (.inr hdotdot)]

theorem VfsInv.walkExisting (h : VfsInv s) (hparent : parent < s.nodeCnt)
    (hplain : ∀ k ∈ comps, ¬ IsDot k) :
    ∃ pre rest q, comps = pre ++ rest ∧ s.tree.resolve parent pre = some q ∧
      (∀ k ks, rest = k :: ks → s.tree.child q k = none) ∧
      ∀ follow, walkExisting follow s parent comps = some (q, rest) := by
  induction comps generalizing parent with
  | nil => exact ⟨[], [], parent, rfl, rfl, nofun, fun _ => rfl⟩
  | cons name comps ih =>
    have hname := hplain name mem_cons_self
    have hentry : s.entry parent name = s.tree.child parent name := entry_of_plain hname
    cases hchild : s.tree.child parent name with
    | none =>
      refine ⟨[], name :: comps, parent, rfl, rfl, ?_, fun follow => ?_⟩
      · rintro k ks hks
        obtain ⟨rfl, rfl⟩ := cons.inj hks
        exact hchild
      · rw [Pastoral.walkExisting, h.searchRelative hparent, hentry, hchild]
        rfl
    | some c =>
      have hlt := h.wf.child_lt hparent hchild
      obtain ⟨pre, rest, q, rfl, hpre, hrest, hwalk⟩ :=
        ih hlt fun k hk => hplain k (mem_cons_of_mem name hk)
      refine ⟨name :: pre, rest, q, rfl, ?_, hrest, fun follow => ?_⟩
      · rw [Tree.resolve_cons, hchild]
        exact hpre
      · rw [Pastoral.walkExisting, h.searchRelative hparent, hentry, hchild, bind_some]
        dsimp only
        rw [h.mounted_eq hlt]
        exact hwalk follow

theorem VfsInv.walk_to_last (h : VfsInv s) (follow : ℕ → Name → Option (Option ℕ)) {last : Name}
    (hparent : parent < s.nodeCnt) (hplain : ∀ k ∈ comps ++ [last], ¬ IsDot k)
    (hresolve : s.tree.resolve parent comps = some node)
    (hmissing : s.tree.child node last = none) :
    Pastoral.walkExisting follow s parent (comps ++ [last]) = some (node, [last]) := by
  induction comps generalizing parent with
  | nil =>
    cases hresolve
    rw [nil_append, Pastoral.walkExisting, h.searchRelative hparent,
      entry_of_plain (hplain last (by simp)), hmissing]
    rfl
  | cons name comps ih =>
    obtain ⟨c, hchild, hrest⟩ := bind_eq_some_iff.mp hresolve
    have hlt := h.wf.child_lt hparent hchild
    rw [cons_append, Pastoral.walkExisting, h.searchRelative hparent,
      entry_of_plain (hplain name (by simp)), hchild, bind_some]
    dsimp only
    rw [h.mounted_eq hlt]
    exact ih hlt (fun k hk => hplain k (mem_cons_of_mem name hk)) hrest

theorem VfsInv.makeDir (h : VfsInv s) (hparent : parent < s.nodeCnt)
    (hclear : s.tree.child parent name = none)
    (hs' : s' = vfsCreateNode parent s.assetCnt filesystem name false
      (s.allocAsset (vfsDefaultAsset sIfdir))) :
    VfsInv s' ∧ VfsGrows s s' ∧ Tree.Inserted IsDot s.tree s'.tree parent s.nodeCnt name ∧
      sIsdir (s'.mode s.nodeCnt) ∧ s.nodeCnt < s'.nodeCnt ∧
      ∀ n < s'.nodeCnt, s.nodeCnt ≤ n → (s'.assets (s'.nodes n).asset).ramfs = false := by
  have hdir : (s.allocAsset (vfsDefaultAsset sIfdir)).assets s.assetCnt = vfsDefaultAsset sIfdir :=
    update_self _ _ _
  have hlt : s.assetCnt < (s.allocAsset (vfsDefaultAsset sIfdir)).assetCnt := Nat.lt_succ_self _
  have halloc : parent < (s.allocAsset (vfsDefaultAsset sIfdir)).nodeCnt := hparent
  have hnew := vfsCreateNode_spec s.assetCnt filesystem name halloc
  rw [← hs'] at hnew
  have hself : s'.assets (s'.nodes s.nodeCnt).asset = vfsDefaultAsset sIfdir := by
    have hasset : (s'.nodes s.nodeCnt).asset = s.assetCnt := congrArg VfsNode.asset hnew.node
    rw [hasset, hnew.assets s.assetCnt hlt, hdir]
  refine ⟨hnew.inv (h.allocAsset _) halloc hlt (by rw [hdir]; decide) hclear,
    (VfsGrows.allocAsset s _).trans hnew.grows, hnew.inserted halloc, ?_, hnew.lt_nodeCnt,
    fun n hn hle => ?_⟩
  · rw [VfsState.mode, hself]
    decide
  · rcases hnew.cases hn with hold | rfl | hentry
    · exact absurd hle (Nat.not_le_of_lt hold)
    · exact congrArg Asset.ramfs hself
    · obtain ⟨-, d, a, hnode, -, hasset⟩ := hnew.entry hentry
      rw [hnode]
      exact congrArg Asset.ramfs hasset

structure CreatedPath (s s' : VfsState) (parent asset new : ℕ) (comps : List Name) : Prop where
  inv : VfsInv s'
  grows : VfsGrows s s'
  fresh : s.nodeCnt ≤ new
  inside : new < s'.nodeCnt
  asset : (s'.nodes new).asset = asset
  resolve : s'.tree.resolve parent comps = some new
  dirs : ∀ ls, ls ≠ [] → ls <+: comps → ls ≠ comps →
    ∃ m, s'.tree.resolve parent ls = some m ∧ sIsdir (s'.mode m)
  others : ∀ n < s'.nodeCnt, s.nodeCnt ≤ n → n ≠ new →
    (s'.assets (s'.nodes n).asset).ramfs = false

theorem VfsInv.createRest (h : VfsInv s) (hparent : parent < s.nodeCnt)
    (hasset : asset < s.assetCnt) (hlink : sIslnk (s.assets asset).stMode = false)
    (hplain : ∀ k ∈ name :: comps, ¬ IsDot k) (hclear : s.tree.child parent name = none) :
    ∃ new s', createRest asset filesystem parent (name :: comps) s = (new, s') ∧
      CreatedPath s s' parent asset new (name :: comps) := by
  induction comps generalizing s parent name with
  | nil =>
    have hnew := vfsCreateNode_spec asset filesystem name hparent
    have hchild := ((hnew.inserted hparent).child_iff h.wf hclear hparent).mpr
      (.inr ⟨rfl, rfl, rfl⟩)
    refine ⟨_, _, rfl, hnew.inv h hparent hasset hlink hclear, hnew.grows, le_refl _,
      hnew.lt_nodeCnt, congrArg VfsNode.asset hnew.node, ?_, ?_, ?_⟩
    · exact bind_eq_some_iff.mpr ⟨_, hchild, rfl⟩
    · intro ls hls hpre hproper
      -- A proper prefix of one component is empty.
      have hlen := hpre.length_le
      rcases ls with - | ⟨k, - | ⟨l, ls⟩⟩
      · exact absurd rfl hls
      · exact absurd (hpre.eq_of_length rfl) hproper
      · simp at hlen
    · intro n hn hle hne
      rcases hnew.cases hn with hold | heq | hentry
      · exact absurd hle (Nat.not_le_of_lt hold)
      · exact absurd heq hne
      · obtain ⟨-, d, a, hnode, -, hdir⟩ := hnew.entry hentry
        rw [hnode]
        exact congrArg Asset.ramfs hdir
  | cons next rest ih =>
    obtain ⟨s₁, hs₁⟩ : ∃ s₁, s₁ = vfsCreateNode parent s.assetCnt (s.nodes parent).filesystem name
      false (s.allocAsset (vfsDefaultAsset sIfdir)) := ⟨_, rfl⟩
    obtain ⟨hinv, hgrows, hinserted, hdir, hlt, hdefault⟩ := h.makeDir hparent hclear hs₁
    have hchild := (hinserted.child_iff h.wf hclear hparent).mpr (.inr ⟨rfl, rfl, rfl⟩)
    -- The new directory has its two entries only, so the next component is missing, too.
    have hmissing : s₁.tree.child s.nodeCnt next = none := by
      refine Tree.child_eq_none_iff.mpr fun d hd hname => ?_
      exact hplain next (by simp) (hname ▸ hinserted.below d hd)
    obtain ⟨new, s', hrest, hpath⟩ := ih hinv hlt (lt_of_lt_of_le hasset hgrows.assetCnt)
      (by rw [hgrows.assets asset hasset]; exact hlink)
      (fun k hk => hplain k (mem_cons_of_mem name hk)) hmissing
    have hchild' := hpath.grows.tree.child hinv.wf (lt_of_lt_of_le hparent hgrows.nodeCnt) hchild
    refine ⟨new, s', ?_, hpath.inv, hgrows.trans hpath.grows,
      le_trans hgrows.nodeCnt hpath.fresh, hpath.inside, hpath.asset, ?_, ?_, ?_⟩
    · rw [Pastoral.createRest, ← hs₁, hinv.mounted_eq hlt]
      exact hrest
    · exact bind_eq_some_iff.mpr ⟨_, hchild', hpath.resolve⟩
    · intro ls hls hpre hproper
      rcases ls with - | ⟨k, ls⟩
      · exact absurd rfl hls
      · obtain ⟨rfl, hprefix⟩ := cons_prefix_cons.mp hpre
        by_cases hnil : ls = []
        · subst hnil
          refine ⟨s.nodeCnt, bind_eq_some_iff.mpr ⟨_, hchild', rfl⟩, ?_⟩
          rw [hpath.grows.mode hinv.toVfsOk hlt]
          exact hdir
        · obtain ⟨m, hm, hmdir⟩ := hpath.dirs ls hnil hprefix fun heq => hproper (heq ▸ rfl)
          exact ⟨m, bind_eq_some_iff.mpr ⟨_, hchild', hm⟩, hmdir⟩
    · intro n hn hle hne
      by_cases hn₁ : n < s₁.nodeCnt
      · rw [hpath.grows.asset n hn₁, hpath.grows.assets _ (hinv.assets n hn₁)]
        exact hdefault n hn₁ hle
      · exact hpath.others n hn (Nat.le_of_not_lt hn₁) hne

theorem VfsInv.createDeep (h : VfsInv s) {path : Name} (hpath : path ≠ [])
    (hplain : ∀ k ∈ subpathList path, ¬ IsDot k) (hasset : asset < s.assetCnt)
    (hlink : sIslnk (s.assets asset).stMode = false) :
    ∃ new s', (∀ fuel, vfsCreateNodeDeep fuel vfsRoot asset filesystem path s = some (new, s')) ∧
      ((s' = s ∧ s.tree.resolve vfsRoot (subpathList path) = some new) ∨
        ∃ pre rest q, subpathList path = pre ++ rest ∧ rest ≠ [] ∧
          s.tree.resolve vfsRoot pre = some q ∧ CreatedPath s s' q asset new rest) := by
  obtain ⟨pre, rest, q, hcomps, hpre, hmissing, hwalk⟩ := h.walkExisting h.root hplain
  have hcall : ∀ fuel, vfsCreateNodeDeep fuel vfsRoot asset filesystem path s =
      some (Pastoral.createRest asset filesystem q rest s) := by
    intro fuel
    rw [vfsCreateNodeDeep, if_neg hpath, hwalk]
    rfl
  cases rest with
  | nil =>
    refine ⟨q, s, hcall, .inl ⟨rfl, ?_⟩⟩
    rw [hcomps, append_nil]
    exact hpre
  | cons name rest =>
    obtain ⟨new, s', hrest, hcreated⟩ := h.createRest (h.wf.resolve_lt h.root hpre) hasset hlink
      (fun k hk => hplain k (hcomps ▸ mem_append_right pre hk)) (hmissing name rest rfl)
    refine ⟨new, s', fun fuel => ?_, .inr ⟨pre, name :: rest, q, hcomps, by simp, hpre, hcreated⟩⟩
    rw [hcall fuel, hrest]

/-- The conditions of a creation: the path has components, none of them `"."` or `".."`, the asset
is there and is not one of a link, and every proper prefix of the path that is found is a
directory. -/
def CanCreate (s : VfsState) (asset : ℕ) (path : Name) : Prop :=
  subpathList path ≠ [] ∧ (∀ k ∈ subpathList path, ¬ IsDot k) ∧ asset < s.assetCnt ∧
    sIslnk (s.assets asset).stMode = false ∧
    ∀ i < (subpathList path).length, 0 < i →
      ∀ n ∈ (searchFrom (fun _ _ => none) s true vfsRoot ((subpathList path).take i)).join,
        sIsdir (s.mode n)

instance (path : Name) : Decidable (CanCreate s asset path) :=
  inferInstanceAs (Decidable (_ ∧ _ ∧ _ ∧ _ ∧ _))

theorem ne_nil_of_components {path : Name} (h : subpathList path ≠ []) : path ≠ [] := by
  rintro rfl
  exact h rfl

theorem VfsInv.prefix_dirs (h : VfsInv s) {path : Name} (hcan : CanCreate s asset path)
    {ls : List Name} (hls : ls ≠ []) (hpre : ls <+: subpathList path)
    (hproper : ls ≠ subpathList path) {m : ℕ} (hm : s.tree.resolve vfsRoot ls = some m) :
    sIsdir (s.mode m) := by
  obtain ⟨-, hplain, -, -, hdirs⟩ := hcan
  -- By induction on the length: a lookup of the prefix goes through shorter ones.
  induction hlen : ls.length using Nat.strong_induction_on generalizing ls m with
  | _ len ih =>
    have hlookup : s.lookup vfsRoot ls = some m := by
      refine lookup_of_resolve hls (fun k hk => ?_) hm fun ks hks hks' hne n hn => ?_
      · exact not_or.mp (hplain k (hpre.subset hk))
      · have hshort : ks.length < ls.length := by
          refine lt_of_le_of_ne hks'.length_le fun heq => ?_
          exact hne (hks'.eq_of_length heq)
        refine ih ks.length (hlen ▸ hshort) hks (hks'.trans hpre) (fun heq => ?_) hn rfl
        have hle := hpre.length_le
        rw [← heq] at hle
        omega
    have htake := (prefix_iff_eq_take.mp hpre).symm
    have hshort := lt_of_le_of_ne hpre.length_le fun heq => hproper (hpre.eq_of_length heq)
    refine hdirs ls.length hshort (length_pos_iff.mpr hls) m ?_
    rw [htake, h.searchFrom true h.root, hlookup]
    rfl

theorem VfsInv.created (h : VfsInv s) {path : Name} (filesystem : Option ℕ)
    (hcan : CanCreate s asset path) :
    ∃ new s', (∀ fuel, vfsCreateNodeDeep fuel vfsRoot asset filesystem path s = some (new, s')) ∧
      VfsInv s' ∧ VfsGrows s s' ∧ s'.lookup vfsRoot (subpathList path) = some new := by
  obtain ⟨hne, hplain, hasset, hlink, -⟩ := id hcan
  obtain ⟨new, s', hcall, hcase⟩ := h.createDeep (ne_nil_of_components hne) hplain hasset hlink
  have hplain' : ∀ k ∈ subpathList path, k ≠ dot ∧ k ≠ dotdot := fun k hk => not_or.mp (hplain k hk)
  refine ⟨new, s', hcall, ?_⟩
  rcases hcase with ⟨rfl, hresolve⟩ | ⟨pre, rest, q, hcomps, hrest, hpre, hcreated⟩
  · refine ⟨h, VfsGrows.refl _, lookup_of_resolve hne hplain' hresolve ?_⟩
    exact fun ls hls hle hproper m hm => h.prefix_dirs hcan hls hle hproper hm
  · have hgrows := hcreated.grows
    have hpre' := hgrows.tree.resolve h.wf h.root hpre
    refine ⟨hcreated.inv, hgrows, lookup_of_resolve hne hplain' ?_ ?_⟩
    · rw [hcomps, Tree.resolve_append, hpre']
      exact hcreated.resolve
    · intro ls hls hle hproper m hm
      -- A prefix ends in the part that was there or in the part that is new.
      rcases prefix_or_prefix_of_prefix hle (hcomps ▸ prefix_append pre rest) with
        ⟨ks, rfl⟩ | ⟨ks, rfl⟩
      · rw [Tree.resolve_append] at hpre
        obtain ⟨m', hm', -⟩ := bind_eq_some_iff.mp hpre
        obtain rfl := some.inj ((hgrows.tree.resolve h.wf h.root hm').symm.trans hm)
        rw [hgrows.mode h.toVfsOk (h.wf.resolve_lt h.root hm')]
        exact h.prefix_dirs hcan hls hle hproper hm'
      · rw [Tree.resolve_append, hpre'] at hm
        by_cases hks : ks = []
        · subst hks
          cases hm
          rw [hgrows.mode h.toVfsOk (h.wf.resolve_lt h.root hpre)]
          rw [append_nil] at hls hle hproper
          exact h.prefix_dirs hcan hls hle hproper hpre
        · rw [hcomps] at hle hproper
          obtain ⟨m', hm', hdir⟩ := hcreated.dirs ks hks ((prefix_append_right_inj pre).mp hle)
            fun heq => hproper (heq ▸ rfl)
          obtain rfl := some.inj (hm'.symm.trans hm)
          exact hdir

end Deep

/-! ## Runs of creations -/

inductive VfsOp where
  | newAsset (asset : Asset)
  | create (asset : ℕ) (filesystem : Option ℕ) (path : Name)

def vfsNext (s : VfsState) : VfsOp → Option VfsState
  | .newAsset asset => some (s.allocAsset asset)
  | .create asset filesystem path =>
    if CanCreate s asset path then
      (vfsCreateNodeDeep 0 vfsRoot asset filesystem path s).map Prod.snd
    else none

/-- The steps of a run. -/
def vfsStep (s : VfsState) (op : VfsOp) (s' : VfsState) : Prop := vfsNext s op = some s'

theorem vfsInit_cases {n : ℕ} (hn : n < vfsInit.nodeCnt) : n = 0 ∨ n = 1 ∨ n = 2 := by
  have hlt : n < 3 := hn
  omega

theorem vfsInit_ok : VfsOk vfsInit := by
  refine ⟨by decide, fun n hn => ?_, fun n hn => ?_, fun n hn => ?_, fun n hn => ?_⟩ <;>
  rcases vfsInit_cases hn with rfl | rfl | rfl <;>
  decide

theorem vfsInit_inv : VfsInv vfsInit := by
  refine ⟨vfsInit_ok, ⟨vfsInit_ok.children, fun n hn => ?_, fun n hn => ?_⟩, rfl, fun n hn => ?_⟩ <;>
  rcases vfsInit_cases hn with rfl | rfl | rfl <;>
  decide

theorem vfsStep_create {s s' : VfsState} {asset : ℕ} {filesystem : Option ℕ} {path : Name}
    (hinv : VfsInv s) (h : vfsStep s (.create asset filesystem path) s') :
    ∃ new, (∀ fuel, vfsCreateNodeDeep fuel vfsRoot asset filesystem path s = some (new, s')) ∧
      VfsInv s' ∧ VfsGrows s s' ∧ subpathList path ≠ [] ∧
      s'.lookup vfsRoot (subpathList path) = some new := by
  unfold vfsStep vfsNext at h
  dsimp only at h
  split_ifs at h with hcan
  obtain ⟨new, s'', hcall, hinv', hgrows, hlookup⟩ := hinv.created filesystem hcan
  rw [hcall 0] at h
  cases h
  exact ⟨new, hcall, hinv', hgrows, hcan.1, hlookup⟩

theorem vfsStep_inv {s s' : VfsState} {op : VfsOp} (hinv : VfsInv s) (h : vfsStep s op s') :
    VfsInv s' := by
  cases op with
  | newAsset asset =>
    cases h
    exact hinv.allocAsset asset
  | create asset filesystem path =>
    obtain ⟨new, -, hinv', -⟩ := vfsStep_create hinv h
    exact hinv'

/-- **Create, then look up**: along every run, a creation has a result, the path is found
afterwards, with and without following links, and leads to the node that was returned; paths that
were found keep their nodes, and siblings have different names. -/
theorem create_then_lookup {tr : List (Event VfsState VfsOp)} {s : VfsState}
    (hrun : Run vfsStep vfsInit tr s) :
    (∀ e ∈ tr, ∀ asset filesystem path, e.act = .create asset filesystem path →
      (∃ new, (∀ fuel, vfsCreateNodeDeep fuel vfsRoot asset filesystem path e.pre =
          some (new, e.post)) ∧
        ∀ fuel f, vfsSearchAbsolute e.post (fuel + 1) vfsRoot path f = some (some new)) ∧
      (∀ q fuel f n, vfsSearchAbsolute e.pre fuel vfsRoot q f = some (some n) →
        vfsSearchAbsolute e.post fuel vfsRoot q f = some (some n)) ∧
      ∀ n < e.post.nodeCnt, ((e.post.nodes n).children.map fun c => (e.post.nodes c).name).Nodup) ∧
    ∀ asset filesystem path, CanCreate s asset path →
      ∃ new s', ∀ fuel, vfsCreateNodeDeep fuel vfsRoot asset filesystem path s = some (new, s') := by
  refine ⟨hrun.forall_event (I := VfsInv) vfsInit_inv (fun _ _ _ => vfsStep_inv) ?_, ?_⟩
  · rintro s op s' hinv hstep asset filesystem path rfl
    obtain ⟨new, hcall, hinv', hgrows, hne, hlookup⟩ := vfsStep_create hinv hstep
    refine ⟨⟨new, hcall, fun fuel f => ?_⟩, fun q fuel f n => ?_, hinv'.wf.distinct⟩
    · rw [hinv'.searchAbsolute fuel f (ne_nil_of_components hne) hinv'.root, hlookup]
    · exact hgrows.search hinv hinv' hinv.root
  · intro asset filesystem path hcan
    have hinv : VfsInv s :=
      hrun.invariant (I := fun _ s => VfsInv s) vfsInit_inv fun _ _ _ _ => vfsStep_inv
    obtain ⟨new, s', hcall, -⟩ := hinv.created filesystem hcan
    exact ⟨new, s', hcall⟩

def twoFiles : List VfsOp :=
  [.newAsset ⟨sIfreg ||| 0o644#32, 0#64, 0, false⟩,
    .create 3 none [slash, 0x61#8, slash, slash, 0x62#8],
    .create 3 none [0x61#8, slash, 0x63#8]]

/-- **Two files in a new directory**: `a` is node 3 with its entries 4 and 5, the files are 6
and 7. -/
theorem create_then_lookup_two_files : ∃ tr s, Run vfsStep vfsInit tr s ∧
    tr.map Event.act = twoFiles ∧ s.nodeCnt = 8 ∧ (s.nodes 3).children = [4, 5, 6, 7] ∧
    ∀ e ∈ tr, ∀ asset filesystem path, e.act = .create asset filesystem path →
      ∃ new, vfsSearchAbsolute e.post 1 vfsRoot path true = some (some new) := by
  obtain ⟨tr, s, run, hacts, hcnt, hchildren⟩ := Run.computed (f := vfsNext)
    (P := fun _ s => s.nodeCnt = 8 ∧ (s.nodes 3).children = [4, 5, 6, 7]) vfsInit twoFiles
    (by decide +kernel)
  refine ⟨tr, s, run, hacts, hcnt, hchildren, fun e he asset filesystem path hact => ?_⟩
  obtain ⟨⟨new, -, hfound⟩, -⟩ := (create_then_lookup run).1 e he asset filesystem path hact
  exact ⟨new, hfound 0 true⟩

end Pastoral
