import Pastoral.Fs.OpenAccess
import Pastoral.Fs.RamfsIsolation

/-!
# The files that open creates

With `O_CREAT`, `fd_openat` makes a file for a path that leads nowhere.

## Main results

* `creates_named_iff`: when the new file is the one that the path names
-/

open Function List Option

namespace Pastoral

/-! ## The call -/

structure OpenState where
  ramfs : RamfsState
  owners : ℕ → Owner

def OpenState.lookup (s : OpenState) : LookupState := ⟨s.ramfs.vfs, s.owners⟩

def OpenState.truncated (s : OpenState) (flags : BitVec 32) (asset : ℕ) : Option OpenState :=
  if flags &&& oTrunc ≠ 0#32 then
    (ramfsResize s.ramfs asset 0).map fun r => { s with ramfs := r.2 }
  else some s

def OpenState.opened (s : OpenState) (task : LookupTask) (flags : BitVec 32) :
    OpenedFile → Option OpenState
  | .existing node => s.truncated flags (s.ramfs.vfs.nodes node).asset
  | .created parent name mode =>
    (ramfsCreate parent name mode s.ramfs).bind fun (node, ramfs) =>
      let asset := (ramfs.vfs.nodes node).asset
      OpenState.truncated
        ⟨ramfs, update s.owners asset (createdOwner s.lookup task parent)⟩ flags asset

/-- **The call made the file that its path names**: one node was added, which is a child of the
parent and has the name. -/
structure CreatesNamed (fuel : ℕ) (s s' : OpenState) (task : LookupTask) (dir parent : ℕ)
    (path name : Name) : Prop where
  nodeCnt : s'.ramfs.vfs.nodeCnt = s.ramfs.vfs.nodeCnt + 1
  kept : ∀ n < s.ramfs.vfs.nodeCnt, n ≠ parent → s'.ramfs.vfs.nodes n = s.ramfs.vfs.nodes n
  children : (s'.ramfs.vfs.nodes parent).children =
    (s.ramfs.vfs.nodes parent).children ++ [s.ramfs.vfs.nodeCnt]
  above : (s'.ramfs.vfs.nodes s.ramfs.vfs.nodeCnt).parent = some parent
  named : (s'.ramfs.vfs.nodes s.ramfs.vfs.nodeCnt).name = name
  owner : s'.owners (s'.ramfs.vfs.nodes s.ramfs.vfs.nodeCnt).asset =
    ⟨task.effectiveUid,
      if s.ramfs.vfs.mode parent &&& sIsgid ≠ 0#32 then
        (s.owners (s.ramfs.vfs.nodes parent).asset).stGid
      else task.effectiveGid⟩
  found : vfsSearchAbsolute s'.ramfs.vfs fuel dir path true = some (some s.ramfs.vfs.nodeCnt)

/-- The name begins in the path at twice the place of the first slash. -/
def BehindTwice (path name : Name) : Prop :=
  slash ∉ path ∧ path = name ∨
    ∃ first rest, slash ∉ first ∧ path = first ++ slash :: rest ∧
      path.drop (2 * first.length) = name

theorem findLastChar_not_mem {path : Name} (h : slash ∉ path) : findLastChar path slash = 0 := by
  have hnone : path.findIdx? (· = slash) = none := by
    rw [findIdx?_eq_none_iff]
    intro c hc
    simpa using ne_of_mem_of_not_mem hc h
  rw [findLastChar, hnone]

theorem findLastChar_append {first rest : Name} (h : slash ∉ first) :
    findLastChar (first ++ slash :: rest) slash = 2 * first.length := by
  have hnone : first.findIdx? (· = slash) = none := by
    rw [findIdx?_eq_none_iff]
    intro c hc
    simpa using ne_of_mem_of_not_mem hc h
  have hfirst : (first ++ slash :: rest).findIdx? (· = slash) = some first.length := by
    simp [hnone, findIdx?_cons]
  rw [findLastChar, hfirst, two_mul]

theorem drop_findLastChar_iff {path name : Name} :
    path.drop (findLastChar path slash) = name ↔ BehindTwice path name := by
  constructor
  · intro h
    by_cases hslash : slash ∈ path
    · obtain ⟨first, rest, rfl, hfirst⟩ := eq_append_cons_of_mem hslash
      rw [findLastChar_append hfirst] at h
      exact .inr ⟨first, rest, hfirst, rfl, h⟩
    · rw [findLastChar_not_mem hslash] at h
      exact .inl ⟨hslash, h⟩
  · rintro (⟨hslash, h⟩ | ⟨first, rest, hfirst, rfl, h⟩)
    · rw [findLastChar_not_mem hslash]
      exact h
    · rw [findLastChar_append hfirst]
      exact h

/-! ## Lookups in a tree that grows -/

structure Extends (s s' : VfsState) : Prop where
  node : ∀ n < s.nodeCnt, ∃ more,
    s'.nodes n = { s.nodes n with children := (s.nodes n).children ++ more }
  mode : ∀ n < s.nodeCnt, s'.mode n = s.mode n

section Growth

variable {s s' : VfsState} {follow follow' : ℕ → Name → Option (Option ℕ)} {p parent n : ℕ}
  {name : Name} {comps : List Name} {symfollow : Bool}

def FollowsSame (s : VfsState) (follow follow' : ℕ → Name → Option (Option ℕ)) : Prop :=
  ∀ p path n, p < s.nodeCnt → follow p path = some (some n) → follow' p path = some (some n)

theorem Extends.searchRelative (h : Extends s s') (hok : VfsOk s)
    (hfollow : FollowsSame s follow follow') (hp : p < s.nodeCnt)
    (hsearch : vfsSearchRelative follow s p name symfollow = some (some n)) :
    vfsSearchRelative follow' s' p name symfollow = some (some n) := by
  obtain ⟨more, hmore⟩ := h.node p hp
  unfold vfsSearchRelative at hsearch ⊢
  rw [VfsState.childNamed.eq_def s', hmore]
  split_ifs at hsearch ⊢ with hdot hdotdot
  · exact hsearch
  · exact hsearch
  · cases hfind : s.childNamed p name with
    | none =>
      rw [hfind] at hsearch
      simp at hsearch
    | some c =>
      have hc := hok.children p hp c (mem_of_find?_eq_some hfind)
      obtain ⟨moreC, hmoreC⟩ := h.node c hc
      -- The names of the children are the same, and the new children come behind them.
      have hfind' : ((s.nodes p).children ++ more).find? (fun c => (s'.nodes c).name = name) =
          some c := by
        have hsame : (s.nodes p).children.find? (fun c => (s'.nodes c).name = name) = some c := by
          rw [← hfind]
          refine find?_congr fun d hd => ?_
          obtain ⟨moreD, hmoreD⟩ := h.node d (hok.children p hp d hd)
          rw [hmoreD]
        rw [find?_append, hsame]
        rfl
      rw [hfind] at hsearch
      rw [hfind']
      dsimp only at hsearch ⊢
      rw [h.mode c hc, hmoreC]
      split_ifs at hsearch ⊢ with hlink
      · obtain ⟨sympath, hsympath, htarget⟩ := bind_eq_some_iff.mp hsearch
        rw [hsympath]
        refine hfollow _ _ _ ?_ htarget
        split_ifs
        · exact hok.root
        · exact hp
      · exact hsearch

theorem Extends.mounted (h : Extends s s') (hn : n < s.nodeCnt) : s'.mounted n = s.mounted n := by
  obtain ⟨more, hmore⟩ := h.node n hn
  rw [VfsState.mounted, hmore]
  rfl

theorem Extends.searchFrom (h : Extends s s') (hok : VfsOk s) (hinside : FollowsInside s follow)
    (hfollow : FollowsSame s follow follow') (hp : p < s.nodeCnt)
    (hsearch : searchFrom follow s symfollow p comps = some (some n)) :
    searchFrom follow' s' symfollow p comps = some (some n) := by
  induction comps generalizing p with
  | nil => exact hsearch
  | cons name comps ih =>
    cases comps with
    | nil => exact h.searchRelative hok hfollow hp hsearch
    | cons next rest =>
      rw [Pastoral.searchFrom] at hsearch ⊢
      obtain ⟨found, hfound, hrest⟩ := bind_eq_some_iff.mp hsearch
      cases found with
      | none => exact absurd hrest (by simp)
      | some c =>
        have hc := hok.finite.searchRelative_lt hinside hp hfound
        rw [h.searchRelative hok hfollow hp hfound, bind_some]
        dsimp only at hrest ⊢
        rw [hok.mounted_eq hc] at hrest
        rw [h.mounted hc, hok.mounted_eq hc, h.mode c hc]
        split_ifs at hrest ⊢ with hdir
        · exact ih hc hrest
        · simp at hrest

theorem Extends.followsSame (h : Extends s s') (hok : VfsOk s) (fuel : ℕ) :
    FollowsSame s (s.follow fuel) (s'.follow fuel) := by
  induction fuel with
  | zero => exact fun p path n _ hsearch => absurd hsearch nofun
  | succ fuel ih =>
    intro p path n hp hsearch
    rw [VfsState.follow, vfsSearchAbsolute] at hsearch ⊢
    split_ifs at hsearch ⊢
    exact h.searchFrom hok (hok.finite.searchAbsolute_inside fuel) ih hp hsearch

theorem searchFrom_last (h : searchFrom follow s true p (comps ++ [dot]) = some (some parent)) :
    searchFrom follow s symfollow p (comps ++ [name]) =
      vfsSearchRelative follow s parent name symfollow := by
  induction comps generalizing p with
  | nil =>
    obtain rfl : p = parent := by simpa [searchFrom, vfsSearchRelative] using h
    rfl
  | cons first comps ih =>
    have hstep : ∀ last b, searchFrom follow s b p (first :: comps ++ [last]) =
        (vfsSearchRelative follow s p first true).bind fun found =>
          found.elim (some none) fun node =>
            if sIsdir (s.mode (s.mounted node)) then
              searchFrom follow s b (s.mounted node) (comps ++ [last])
            else some none := by
      intro last b
      cases comps <;> exact congrArg _ (funext fun found => by cases found <;> rfl)
    rw [hstep] at h ⊢
    obtain ⟨found, hfound, h⟩ := bind_eq_some_iff.mp h
    rw [hfound, bind_some]
    cases found with
    | none => exact absurd h (by simp)
    | some c =>
      rw [elim_some] at h ⊢
      split_ifs at h ⊢ with hdir
      · exact ih h
      · simp at h

end Growth

/-! ## The file -/

section Created

variable {calls : AssetCalls} {s s' : OpenState} {task : LookupTask}
  {fuel dir parent asset p handle file : ℕ} {umask dirfd flags mode : BitVec 32} {path name : Name}
  {comps : List Name} {opened : OpenedFile} {n : BitVec 32} {fds fds' : FdState}

theorem truncated_vfs (hsize : (s.ramfs.vfs.assets asset).stSize = 0)
    (h : s.truncated flags asset = some s') :
    s'.ramfs.vfs = s.ramfs.vfs ∧ s'.owners = s.owners := by
  have hset : (s.ramfs.setSize asset 0).vfs = s.ramfs.vfs := by
    have hasset : { s.ramfs.vfs.assets asset with stSize := 0 } = s.ramfs.vfs.assets asset := by
      rw [← hsize]
    rw [RamfsState.setSize, hasset, update_eq_self]
  unfold OpenState.truncated at h
  split_ifs at h
  · obtain ⟨r, hr, rfl⟩ := map_eq_some_iff.mp h
    unfold ramfsResize at hr
    cases hfind : s.ramfs.find asset with
    | none =>
      rw [hfind] at hr
      cases hr
      exact ⟨rfl, rfl⟩
    | some handle =>
      rw [hfind] at hr
      obtain ⟨ramfs, hramfs, rfl⟩ := map_eq_some_iff.mp hr
      obtain ⟨r, -, rfl⟩ := map_eq_some_iff.mp hramfs
      exact ⟨hset, rfl⟩
  · cases h
    exact ⟨rfl, rfl⟩

theorem opened_created (hdir : dir < s.ramfs.vfs.nodeCnt) (hfile : sIsdir mode = false)
    (h : s.opened task flags (.created dir name mode) = some s') :
    CreatedNode (s.ramfs.vfs.allocAsset ⟨mode, s.ramfs.inodeCnt, 0, true⟩) s'.ramfs.vfs dir
        s.ramfs.vfs.assetCnt (s.ramfs.vfs.nodes dir).filesystem name [] ∧
      s'.owners s.ramfs.vfs.assetCnt = createdOwner s.lookup task dir := by
  obtain ⟨r, hr, h⟩ := bind_eq_some_iff.mp h
  obtain ⟨ramfs, -, rfl⟩ := map_eq_some_iff.mp hr
  dsimp only at h
  have hnew : (s.ramfs.vfs.allocAsset ⟨mode, s.ramfs.inodeCnt, 0, true⟩).assets
      s.ramfs.vfs.assetCnt = ⟨mode, s.ramfs.inodeCnt, 0, true⟩ := update_self ..
  have hspec := vfsCreateNode_spec
    (s := s.ramfs.vfs.allocAsset ⟨mode, s.ramfs.inodeCnt, 0, true⟩) s.ramfs.vfs.assetCnt
    (s.ramfs.vfs.nodes dir).filesystem name hdir
  rw [hnew, if_neg (by simp [hfile])] at hspec
  generalize vfsCreateNode dir _ _ _ _ _ = vfs at h hspec
  have hasset : (vfs.nodes s.ramfs.vfs.nodeCnt).asset = s.ramfs.vfs.assetCnt :=
    congrArg VfsNode.asset hspec.node
  rw [hasset] at h
  have hsize : (vfs.assets s.ramfs.vfs.assetCnt).stSize = 0 := by
    rw [hspec.assets _ (Nat.lt_succ_self _), hnew]
  obtain ⟨hvfs, howners⟩ := truncated_vfs hsize h
  rw [hvfs, howners]
  exact ⟨hspec, update_self ..⟩

theorem fileOpenat_created (hdir : userDirLookup task dirfd path = .ok dir)
    (hsearch : vfsSearchAbsolute s.ramfs.vfs fuel dir path true = some none)
    (h : fileOpenat fuel s.lookup task umask dirfd path flags mode = some (.ok opened)) :
    opened = .created dir (path.drop (findLastChar path slash))
      (sIfreg ||| (mode &&& 0o7777#32 &&& ~~~umask)) := by
  unfold fileOpenat at h
  rw [hdir] at h
  dsimp only [OpenState.lookup] at h
  rw [hsearch] at h
  dsimp only [bind_some] at h
  cases haccess : openAccess (openFlags flags) with
  | none =>
    rw [haccess] at h
    split_ifs at h <;> exact absurd h (by simp)
  | some accessMode =>
    rw [haccess] at h
    dsimp only at h
    split_ifs at h
    · simp at h
    · simp at h
    · unfold createOpened at h
      split_ifs at h
      · exact (except_map_eq_ok_iff.mp (some.inj h)).2.symm
      · simp at h
    · simp at h

theorem sIfreg_type (mode m : BitVec 32) :
    (sIfreg ||| (mode &&& 0o7777#32 &&& m)) &&& sIfmt = sIfreg := by
  have hperm : mode &&& 0o7777#32 &&& m &&& sIfmt = 0#32 := by
    have hdisjoint : 0o7777#32 &&& sIfmt = 0#32 := by decide
    rw [BitVec.and_assoc, BitVec.and_comm m, BitVec.and_assoc, ← BitVec.and_assoc 0o7777#32,
      hdisjoint, BitVec.zero_and, BitVec.and_zero]
  rw [BitVec.and_comm, BitVec.and_or_distrib_left, BitVec.and_comm sIfmt (_ &&& m), hperm]
  decide

theorem CreatedNode.extends {s s' : VfsState} {a : Asset} {filesystem : Option ℕ}
    (h : CreatedNode (s.allocAsset a) s' dir s.assetCnt filesystem name []) (hok : VfsOk s) :
    Extends s s' where
  node n hn := by
    by_cases hdir : n = dir
    · obtain rfl := hdir
      exact ⟨[s.nodeCnt], h.above⟩
    · refine ⟨[], (h.kept n hn hdir).trans ?_⟩
      rw [append_nil]
      rfl
  mode n hn := by
    have hold : s'.assets (s.nodes n).asset = s.assets (s.nodes n).asset := by
      rw [h.assets _ (Nat.lt_succ_of_lt (hok.assets n hn))]
      exact update_of_ne (ne_of_lt (hok.assets n hn)) _ _
    have hasset : (s'.nodes n).asset = (s.nodes n).asset := by
      by_cases hdir : n = dir
      · obtain rfl := hdir
        exact (congrArg VfsNode.asset h.above).trans rfl
      · exact congrArg VfsNode.asset (h.kept n hn hdir)
    rw [VfsState.mode, hasset, hold]
    rfl

theorem CreatedNode.searchRelative {s s' : VfsState} {a : Asset} {filesystem : Option ℕ}
    {follow follow' : ℕ → Name → Option (Option ℕ)}
    (h : CreatedNode (s.allocAsset a) s' dir s.assetCnt filesystem name []) (hok : VfsOk s)
    (hdir : dir < s.nodeCnt) (hplain : sIslnk a.stMode = false)
    (hmissing : vfsSearchRelative follow s dir name false = some none) :
    vfsSearchRelative follow' s' dir name true = some (some s.nodeCnt) ↔ name ≠ dotdot := by
  have hnode : s'.nodes s.nodeCnt = VfsNode.new name s.assetCnt filesystem dir := h.node
  have habove : s'.nodes dir =
    { s.nodes dir with children := (s.nodes dir).children ++ [s.nodeCnt] } := h.above
  unfold vfsSearchRelative at hmissing ⊢
  rw [VfsState.childNamed.eq_def s', habove]
  split_ifs at hmissing ⊢ with hdot hdotdot
  · simp at hmissing
  · -- The directory had no parent.
    rw [some.inj hmissing]
    simp [hdotdot]
  · refine iff_of_true ?_ hdotdot
    have hnone : (s.nodes dir).children.find? (fun c => (s'.nodes c).name = name) = none := by
      cases hfind : s.childNamed dir name with
      | some c =>
        rw [hfind] at hmissing
        simp at hmissing
      | none =>
        rw [← hfind]
        refine find?_congr fun d hd => ?_
        obtain ⟨more, hmore⟩ := (h.extends hok).node d (hok.children dir hdir d hd)
        rw [hmore]
    have hmode : s'.mode s.nodeCnt = a.stMode := by
      rw [VfsState.mode, hnode]
      exact congrArg Asset.stMode ((h.assets _ (Nat.lt_succ_self _)).trans (update_self ..))
    rw [find?_append, hnone, find?_singleton, hnode]
    simp [VfsNode.new, hmode, hplain]

theorem createdOwner_eq_iff : createdOwner s.lookup task dir = ⟨task.effectiveUid,
        if s.ramfs.vfs.mode dir &&& sIsgid ≠ 0#32 then
          (s.owners (s.ramfs.vfs.nodes dir).asset).stGid
        else task.effectiveGid⟩ ↔
      s.ramfs.vfs.mode dir &&& sIsgid ≠ 0#32 ∨
        task.effectiveUid = 0#32 ∧ task.effectiveGid = 0#32 := by
  unfold createdOwner OpenState.lookup
  split_ifs with hgid
  · exact iff_of_true rfl (.inl hgid)
  · rw [Owner.mk.injEq]
    constructor
    · rintro ⟨huid, hzero⟩
      exact .inr ⟨huid.symm.trans hzero.symm, hzero.symm⟩
    · rintro (hgid' | ⟨huid, hzero⟩)
      · exact absurd hgid' hgid
      · rw [huid, hzero]
        exact ⟨rfl, rfl⟩

theorem not_link_of_missing {s : VfsState} {follow : ℕ → Name → Option (Option ℕ)}
    (h : vfsSearchRelative follow s parent name false = some none) : ¬ NamesLink s parent name := by
  rintro ⟨hplain, c, hc, -⟩
  obtain ⟨hdot, hdotdot⟩ := not_or.mp hplain
  rw [vfsSearchRelative, if_neg hdot, if_neg hdotdot, mem_def.mp hc] at h
  simp at h

/-- **When `fd_openat` makes the file that its path names**: the name begins at twice the place of
the first slash, the path leads to the directory where the lookup starts, and is not `".."` there,
and this directory has the bit `S_ISGID`, or the task has the ids of root. -/
theorem creates_named_iff (hok : VfsOk s.ramfs.vfs)
    (hdir : userDirLookup task dirfd path = .ok dir) (hlt : dir < s.ramfs.vfs.nodeCnt)
    (hcomps : subpathList path = comps ++ [name])
    (hparent : searchFrom (s.ramfs.vfs.follow fuel) s.ramfs.vfs true dir (comps ++ [dot]) =
      some (some parent))
    (hmissing : vfsSearchRelative (s.ramfs.vfs.follow fuel) s.ramfs.vfs parent name false =
      some none)
    (hopen : fdOpenatPath calls (fuel + 1) s.lookup task umask dirfd path flags mode p handle file
      fds = some (some opened, n, fds'))
    (hafter : s.opened task (openFlags flags) opened = some s') :
    CreatesNamed (fuel + 1) s s' task dir parent path name ↔
      BehindTwice path name ∧ parent = dir ∧ name ≠ dotdot ∧
        (s.ramfs.vfs.mode dir &&& sIsgid ≠ 0#32 ∨
          task.effectiveUid = 0#32 ∧ task.effectiveGid = 0#32) := by
  have hpath : path ≠ [] := ne_nil_of_components (by simp [hcomps])
  have hsearch : vfsSearchAbsolute s.ramfs.vfs (fuel + 1) dir path true = some none := by
    rw [vfsSearchAbsolute, if_neg hpath, hcomps]
    refine (searchFrom_last hparent).trans ?_
    rwa [searchRelative_of_not_link (not_link_of_missing hmissing) true false]
  obtain rfl := fileOpenat_created hdir hsearch (fdOpenatPath_opened hopen).1
  have htype := sIfreg_type mode (~~~umask)
  have hplain : sIslnk (sIfreg ||| (mode &&& 0o7777#32 &&& ~~~umask)) = false := by
    rw [sIslnk, htype]
    decide
  obtain ⟨hnew, howner⟩ := opened_created hlt (by rw [sIsdir, htype]; decide) hafter
  have hasset : (s'.ramfs.vfs.nodes s.ramfs.vfs.nodeCnt).asset = s.ramfs.vfs.assetCnt :=
    congrArg VfsNode.asset hnew.node
  have hfound : vfsSearchAbsolute s'.ramfs.vfs (fuel + 1) dir path true =
      vfsSearchRelative (s'.ramfs.vfs.follow fuel) s'.ramfs.vfs parent name true := by
    rw [vfsSearchAbsolute, if_neg hpath, hcomps]
    exact searchFrom_last ((hnew.extends hok).searchFrom hok (hok.finite.searchAbsolute_inside fuel)
      ((hnew.extends hok).followsSame hok fuel) hlt hparent)
  rw [← drop_findLastChar_iff]
  constructor
  · intro h
    obtain rfl : dir = parent :=
      Option.some.inj ((congrArg VfsNode.parent hnew.node).symm.trans h.above)
    have hname : path.drop (findLastChar path slash) = name :=
      (congrArg VfsNode.name hnew.node).symm.trans h.named
    rw [hname] at hnew
    refine ⟨hname, rfl, ?_, ?_⟩
    · exact (hnew.searchRelative hok hlt hplain hmissing).mp (hfound.symm.trans h.found)
    · exact createdOwner_eq_iff.mp (howner.symm.trans (hasset ▸ h.owner))
  · rintro ⟨hname, rfl, hdotdot, hids⟩
    rw [hname] at hnew
    refine ⟨hnew.nodeCnt, hnew.kept, congrArg VfsNode.children hnew.above,
      congrArg VfsNode.parent hnew.node, congrArg VfsNode.name hnew.node, ?_, ?_⟩
    · rw [hasset, howner]
      exact createdOwner_eq_iff.mpr hids
    · rw [hfound]
      exact (hnew.searchRelative hok hlt hplain hmissing).mpr hdotdot

def openInit : OpenState := ⟨ramfsInit, fun _ => ⟨0#32, 0#32⟩⟩

def taskIn (gid : BitVec 32) : LookupTask := ⟨0#32, gid, 0#32, gid, none, fun _ => none⟩

def noDevices : AssetCalls := ⟨fun _ => .error errnoENOENT, fun _ => .ok ()⟩

theorem creates_named_iff_relative :
    ∃ s', openInit.opened (taskIn 0#32) (openFlags (oCreat ||| oRdwr))
        (.created 0 [0x66#8] (sIfreg ||| 0o644#32)) = some s' ∧
      CreatesNamed 1 openInit s' (taskIn 0#32) 0 0 [0x66#8] [0x66#8] := by
  obtain ⟨s', hafter⟩ : ∃ s', openInit.opened (taskIn 0#32) (openFlags (oCreat ||| oRdwr))
      (.created 0 [0x66#8] (sIfreg ||| 0o644#32)) = some s' := ⟨_, rfl⟩
  have hcall : (fdOpenatPath noDevices 1 openInit.lookup (taskIn 0#32) 0#32 atFdcwd [0x66#8]
      (oCreat ||| oRdwr) 0o644#32 2 10 20 bootFds).map Prod.fst =
        some (some (.created 0 [0x66#8] (sIfreg ||| 0o644#32))) := by
    decide +kernel
  obtain ⟨⟨_, n, fds'⟩, hopen, rfl⟩ := map_eq_some_iff.mp hcall
  have hcomps : subpathList [0x66#8] = [] ++ [[0x66#8]] := rfl
  exact ⟨s', hafter, (creates_named_iff vfsInit_ok rfl (by decide) hcomps rfl (by decide +kernel)
    hopen hafter).mpr ⟨.inl ⟨by decide, rfl⟩, rfl, by decide, .inr ⟨rfl, rfl⟩⟩⟩

/-- **`open("/f", O_CREAT | O_RDWR)`** by a task of root in the group 5: the new file has the name
`/f` and belongs to the user 5, and the path leads nowhere. -/
theorem absolute_path_creates_other_name : let flags := oCreat ||| oRdwr
    let path : Name := [slash, 0x66#8]
    let opened := OpenedFile.created 0 path (sIfreg ||| 0o644#32)
    (fdOpenatPath noDevices 1 openInit.lookup (taskIn 5#32) 0#32 atFdcwd path flags 0o644#32 2 10
        20 bootFds).map (fun r => (r.1, r.2.1)) = some (some opened, 0#32) ∧
      subpathList path = [[0x66#8]] ∧
      (openInit.opened (taskIn 5#32) (openFlags flags) opened).map (fun s' =>
          ((s'.ramfs.vfs.nodes 3).name, s'.owners (s'.ramfs.vfs.nodes 3).asset,
            vfsSearchAbsolute s'.ramfs.vfs 1 0 path true)) =
        some (path, ⟨5#32, 0#32⟩, some none) := by
  decide +kernel

end Created

end Pastoral
