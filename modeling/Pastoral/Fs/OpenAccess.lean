import Pastoral.Fs.AbsolutePath
import Pastoral.Fs.FdTable
import Pastoral.Fs.Lookup

/-!
# The permissions that open checks

`fd_openat` looks its path up with `vfs_search_absolute`, which asks for no permission, and checks
the access to the file that was found only.

## Main definitions

* `fdOpenatPath`: the call, from the path to the descriptor
* `SameFiles`: two trees that differ in the permissions of other files than the one

## Main results

* `open_asks_for_file_only`: what the call asks of a file that exists, and of no other
-/

namespace Pastoral

/-! ## The call -/

abbrev errnoEACCES : BitVec 64 := 1002#64
abbrev errnoEEXIST : BitVec 64 := 1019#64
abbrev errnoEISDIR : BitVec 64 := 1029#64
abbrev errnoENAMETOOLONG : BitVec 64 := 1036#64
abbrev errnoENOENT : BitVec 64 := 1043#64

abbrev oCreat : BitVec 32 := 0x10#32
abbrev oDirectory : BitVec 32 := 0x20#32
abbrev oExcl : BitVec 32 := 0x40#32
abbrev oTrunc : BitVec 32 := 0x200#32

abbrev sIfchr : BitVec 32 := 0x2000#32
abbrev sIsgid : BitVec 32 := 0o2000#32

def sIschr (mode : BitVec 32) : Bool := mode &&& sIfmt == sIfchr

def LookupErrno.code : LookupErrno → BitVec 64
  | EBADF => errnoEBADF
  | EACCES => errnoEACCES
  | ENOENT => errnoENOENT

def findLastChar (str : Name) (c : BitVec 8) : ℕ :=
  match str.findIdx? (· = c) with
  | none => 0
  | some i => i + i

def openFlags (flags : BitVec 32) : BitVec 32 :=
  if flags &&& oAccmode = 0#32 then flags ||| oRdonly else flags

def openAccess (flags : BitVec 32) : Option (BitVec 32) :=
  if flags &&& oAccmode = oRdonly then some rOk
  else if flags &&& oAccmode = oWronly then some wOk
  else if flags &&& oAccmode = oRdwr then some (rOk ||| wOk)
  else none

inductive OpenedFile
  | existing (node : ℕ)
  | created (parent : ℕ) (name : Name) (mode : BitVec 32)
  deriving DecidableEq, Repr

def createdOwner (s : LookupState) (task : LookupTask) (parent : ℕ) : Owner :=
  if s.vfs.mode parent &&& sIsgid ≠ 0#32 then
    ⟨task.effectiveUid, (s.owners (s.vfs.nodes parent).asset).stGid⟩
  else ⟨task.effectiveGid, 0#32⟩

def checkOpened (task : LookupTask) (flags accessMode stMode : BitVec 32) (owner : Owner) :
    Except (BitVec 64) Unit :=
  if flags &&& oDirectory = 0#32 ∧ sIsdir stMode then .error errnoEISDIR
  else if statHasAccess stMode owner task.effectiveUid task.effectiveGid accessMode then .ok ()
  else .error errnoEACCES

def createOpened (s : LookupState) (task : LookupTask) (umask : BitVec 32) (dir : ℕ) (path : Name)
    (flags accessMode mode : BitVec 32) : Option (Except (BitVec 64) OpenedFile) :=
  if s.hasAccess dir task.effectiveUid task.effectiveGid (wOk ||| xOk) then
    if path.length < findLastChar path slash ∨ (s.vfs.nodes dir).filesystem = none then none
    else
      let stMode := sIfreg ||| (mode &&& ~~~umask)
      some ((checkOpened task flags accessMode stMode (createdOwner s task dir)).map fun _ =>
        .created dir (path.drop (findLastChar path slash)) stMode)
  else some (.error errnoEACCES)

def fileOpenat (fuel : ℕ) (s : LookupState) (task : LookupTask) (umask dirfd : BitVec 32)
    (path : Name) (flags mode : BitVec 32) : Option (Except (BitVec 64) OpenedFile) :=
  if maxPathLength < path.length then some (.error errnoENAMETOOLONG)
  else
    let mode := mode &&& 0o7777#32
    let flags := openFlags flags
    match openAccess flags with
    | none => some (.error errnoEINVAL)
    | some accessMode =>
      if flags &&& oTrunc ≠ 0#32 ∧ accessMode &&& wOk = 0#32 then some (.error errnoEINVAL)
      else
        match userDirLookup task dirfd path with
        | .error e => some (.error e.code)
        | .ok dir =>
          (vfsSearchAbsolute s.vfs fuel dir path true).bind fun found =>
            match found with
            | none =>
              if flags &&& oCreat ≠ 0#32 then
                createOpened s task umask dir path flags accessMode mode
              else some (.error errnoENOENT)
            | some node =>
              if flags &&& oCreat ≠ 0#32 ∧ flags &&& oExcl ≠ 0#32 then some (.error errnoEEXIST)
              else
                some ((checkOpened task flags accessMode (s.vfs.mode node)
                  (s.owners (s.vfs.nodes node).asset)).map fun _ => .existing node)

structure AssetCalls where
  cdevOpen : ℕ → Except (BitVec 64) ℕ
  assetOpen : ℕ → Except (BitVec 64) Unit

def openAsset (calls : AssetCalls) (s : VfsState) (flags : BitVec 32) :
    OpenedFile → Option (Except (BitVec 64) ℕ)
  | .existing node =>
    let asset := (s.nodes node).asset
    if flags &&& oTrunc ≠ 0#32 ∧ ¬ (s.assets asset).ramfs then none
    else if sIschr (s.mode node) then some (calls.cdevOpen asset)
    else some ((calls.assetOpen asset).map fun _ => asset)
  | .created .. => some (.ok s.assetCnt)

def fdOpenatPath (calls : AssetCalls) (fuel : ℕ) (s : LookupState) (task : LookupTask)
    (umask dirfd : BitVec 32) (path : Name) (flags mode : BitVec 32) (p handle file : ℕ)
    (fds : FdState) : Option (Option OpenedFile × BitVec 32 × FdState) :=
  (fileOpenat fuel s task umask dirfd path flags mode).bind fun checked =>
    match checked with
    | .error code => some (none, fds.fail code)
    | .ok opened =>
      (openAsset calls s.vfs (openFlags flags) opened).bind fun asset =>
        match asset with
        | .error code => some (none, fds.fail code)
        | .ok asset => (fdOpenat p flags (.ok asset) handle file fds).map fun r => (some opened, r)

/-! ## The files that are opened -/

section Opened

variable {calls : AssetCalls} {fuel p handle file node : ℕ} {s s' : LookupState} {task : LookupTask}
  {umask dirfd flags mode : BitVec 32} {path : Name} {fds : FdState}

theorem except_map_eq_ok_iff {ε α β : Type} {x : Except ε α} {b c : β} :
    x.map (fun _ => b) = .ok c ↔ (∃ a, x = .ok a) ∧ b = c := by
  cases x with
  | error e => simp [Except.map]
  | ok a => simp [Except.map]

theorem createOpened_ne_existing {dir : ℕ} {accessMode : BitVec 32} :
    createOpened s task umask dir path flags accessMode mode ≠ some (.ok (.existing node)) := by
  unfold createOpened
  split_ifs
  · simp
  · intro hcreated
    exact absurd (except_map_eq_ok_iff.mp (Option.some.inj hcreated)).2 (by simp)
  · simp

theorem fdOpenatPath_opened {opened : OpenedFile} {r : BitVec 32 × FdState}
    (h : fdOpenatPath calls fuel s task umask dirfd path flags mode p handle file fds =
      some (some opened, r)) :
    fileOpenat fuel s task umask dirfd path flags mode = some (.ok opened) ∧
      ∃ asset, openAsset calls s.vfs (openFlags flags) opened = some (.ok asset) ∧
        fdOpenat p flags (.ok asset) handle file fds = some r := by
  obtain ⟨checked, hchecked, h⟩ := Option.bind_eq_some_iff.mp h
  cases checked with
  | error code => exact absurd h (by simp)
  | ok opened =>
    obtain ⟨asset, hasset, h⟩ := Option.bind_eq_some_iff.mp h
    cases asset with
    | error code => exact absurd h (by simp)
    | ok asset =>
      obtain ⟨r, hr, h⟩ := Option.map_eq_some_iff.mp h
      obtain ⟨h₁, rfl⟩ := Prod.mk.inj h
      cases h₁
      exact ⟨hchecked, asset, hasset, hr⟩

/-! ## The permissions on the way -/

/-- **The trees differ in the permissions of other files only**: the nodes and the types of the files
are the same, and so are the mode and the owner of the one. -/
structure SameFiles (node : ℕ) (s s' : LookupState) : Prop where
  nodes : s'.vfs.nodes = s.vfs.nodes
  types : ∀ n, s'.vfs.mode n &&& sIfmt = s.vfs.mode n &&& sIfmt
  asset : s'.vfs.assets (s.vfs.nodes node).asset = s.vfs.assets (s.vfs.nodes node).asset
  owner : s'.owners (s.vfs.nodes node).asset = s.owners (s.vfs.nodes node).asset

namespace SameFiles

variable (h : SameFiles node s s')

include h

theorem searchRelative (follow : ℕ → Name → Option (Option ℕ)) (parent : ℕ) (name : Name)
    (symlink : Bool) : vfsSearchRelative follow s'.vfs parent name symlink =
      vfsSearchRelative follow s.vfs parent name symlink := by
  have hlink : ∀ n, sIslnk (s'.vfs.mode n) = sIslnk (s.vfs.mode n) := fun n => by
    rw [sIslnk, h.types, sIslnk]
  unfold vfsSearchRelative VfsState.childNamed
  simp only [h.nodes, hlink]

theorem searchFrom (follow : ℕ → Name → Option (Option ℕ)) (symfollow : Bool) (parent : ℕ)
    (comps : List Name) : searchFrom follow s'.vfs symfollow parent comps =
      searchFrom follow s.vfs symfollow parent comps := by
  have hdir : ∀ n, sIsdir (s'.vfs.mode n) = sIsdir (s.vfs.mode n) := fun n => by
    rw [sIsdir, h.types, sIsdir]
  have hmounted : ∀ n, s'.vfs.mounted n = s.vfs.mounted n := fun n => by
    rw [VfsState.mounted, h.nodes, VfsState.mounted]
  induction comps generalizing parent with
  | nil => rfl
  | cons name comps ih =>
    cases comps with
    | nil => exact h.searchRelative follow parent name symfollow
    | cons next rest =>
      unfold Pastoral.searchFrom
      simp only [h.searchRelative, hmounted, hdir, ih]

theorem searchAbsolute (fuel parent : ℕ) (path : Name) (symfollow : Bool) :
    vfsSearchAbsolute s'.vfs fuel parent path symfollow =
      vfsSearchAbsolute s.vfs fuel parent path symfollow := by
  induction fuel generalizing parent path symfollow with
  | zero => rfl
  | succ fuel ih => simp only [vfsSearchAbsolute, ih, h.searchFrom]

end SameFiles

/-- What the call finds out about a file that exists, and asks of it. -/
theorem fileOpenat_existing
    (h : fileOpenat fuel s task umask dirfd path flags mode = some (.ok (.existing node))) :
    (∃ accessMode, openAccess (openFlags flags) = some accessMode ∧
        s.hasAccess node task.effectiveUid task.effectiveGid accessMode) ∧
      ∀ s', SameFiles node s s' →
        fileOpenat fuel s' task umask dirfd path flags mode = some (.ok (.existing node)) := by
  unfold fileOpenat at h
  by_cases hlong : maxPathLength < path.length
  · rw [if_pos hlong] at h
    simp at h
  rw [if_neg hlong] at h
  dsimp only at h
  cases hmode : openAccess (openFlags flags) with
  | none => simp [hmode] at h
  | some accessMode =>
    rw [hmode] at h
    dsimp only at h
    by_cases htrunc : openFlags flags &&& oTrunc ≠ 0#32 ∧ accessMode &&& wOk = 0#32
    · rw [if_pos htrunc] at h
      simp at h
    rw [if_neg htrunc] at h
    cases hdir : userDirLookup task dirfd path with
    | error e => simp [hdir] at h
    | ok dir =>
      rw [hdir] at h
      obtain ⟨found, hsearch, h⟩ := Option.bind_eq_some_iff.mp h
      cases found with
      | none =>
        dsimp only at h
        split_ifs at h
        · exact absurd h createOpened_ne_existing
        · simp at h
      | some found =>
        dsimp only at h
        by_cases hexcl : openFlags flags &&& oCreat ≠ 0#32 ∧ openFlags flags &&& oExcl ≠ 0#32
        · rw [if_pos hexcl] at h
          simp at h
        rw [if_neg hexcl] at h
        obtain ⟨⟨u, hchecked⟩, hfound⟩ := except_map_eq_ok_iff.mp (Option.some.inj h)
        obtain rfl := OpenedFile.existing.inj hfound
        refine ⟨⟨accessMode, rfl, ?_⟩, fun s' hsame => ?_⟩
        · unfold checkOpened at hchecked
          split_ifs at hchecked with _ haccess
          exact haccess
        · have hstat : s'.vfs.mode found = s.vfs.mode found := by
            rw [VfsState.mode, hsame.nodes, hsame.asset, VfsState.mode]
          rw [fileOpenat, if_neg hlong]
          dsimp only
          rw [hmode]
          dsimp only
          rw [if_neg htrunc, hdir]
          dsimp only
          rw [hsame.searchAbsolute, hsearch, Option.bind_some]
          dsimp only
          rw [if_neg hexcl, hstat, hsame.nodes, hsame.owner]
          exact h

end Opened

def userTask : LookupTask := ⟨1000#32, 1000#32, 1000#32, 1000#32, none, fun _ => none⟩

def plainCalls : AssetCalls := ⟨fun _ => .error errnoENOENT, fun _ => .ok ()⟩

/-- The file `/d/f`, which all may read, in a directory of the user 0 with the mode. -/
def directoryOf (mode : BitVec 32) : LookupState where
  vfs :=
    { nodes := fun n =>
        match n with
        | 0 => ⟨[slash], 0, none, none, none, [1], none⟩
        | 1 => ⟨[0x64#8], 1, none, some 0, none, [2], none⟩
        | _ => ⟨[0x66#8], 2, none, some 1, none, [], none⟩
      nodeCnt := 3
      assets := fun a =>
        match a with
        | 0 => vfsDefaultAsset (sIfdir ||| 0o755#32)
        | 1 => vfsDefaultAsset (sIfdir ||| mode)
        | _ => vfsDefaultAsset (sIfreg ||| 0o644#32)
      assetCnt := 3 }
  owners _ := ⟨0#32, 0#32⟩

def openInDirectory (s : LookupState) : Option (Option OpenedFile × BitVec 32 × FdState) :=
  fdOpenatPath plainCalls 1 s userTask 0#32 atFdcwd [slash, 0x64#8, slash, 0x66#8] oRdonly 0#32
    2 10 20 bootFds

end Pastoral
