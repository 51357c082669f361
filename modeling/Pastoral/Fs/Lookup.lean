import Pastoral.Fs.Vfs

/-!
# The two lookups of a path

`fd.c` has a lookup of its own, `user_lookup_at`, for the calls that name a file by its path.

## Main definitions

* `userLookupAt`

## Main results

* `lookups_agree_iff`: the paths for which it agrees with `vfs_search_absolute`
-/

open List Option

namespace Pastoral

/-! ## Functions -/

structure Owner where
  stUid : BitVec 32
  stGid : BitVec 32
  deriving DecidableEq, Repr

structure LookupState where
  vfs : VfsState
  owners : ℕ → Owner

structure LookupTask where
  effectiveUid : BitVec 32
  effectiveGid : BitVec 32
  realUid : BitVec 32
  realGid : BitVec 32
  cwd : Option ℕ
  fdNode : BitVec 32 → Option (Option ℕ)

inductive LookupErrno
  | EBADF
  | EACCES
  | ENOENT
  deriving DecidableEq, Repr

abbrev rOk : BitVec 32 := 2#32
abbrev wOk : BitVec 32 := 4#32
abbrev xOk : BitVec 32 := 8#32

abbrev atSymlinkNofollow : BitVec 32 := 4#32
abbrev atEaccess : BitVec 32 := 512#32
abbrev atFdcwd : BitVec 32 := 0xffffff9c#32

def accessMask (mode r w x : BitVec 32) : BitVec 32 :=
  (if mode &&& rOk ≠ 0#32 then r else 0#32) ||| (if mode &&& wOk ≠ 0#32 then w else 0#32) |||
    (if mode &&& xOk ≠ 0#32 then x else 0#32)

def statHasAccess (stMode : BitVec 32) (owner : Owner) (uid gid mode : BitVec 32) : Bool :=
  if uid = 0#32 then true
  else if owner.stUid = uid then
    stMode &&& accessMask mode 0o400#32 0o200#32 0o100#32 =
      accessMask mode 0o400#32 0o200#32 0o100#32
  else if owner.stGid = gid then
    stMode &&& accessMask mode 0o40#32 0o20#32 0o10#32 = accessMask mode 0o40#32 0o20#32 0o10#32
  else stMode &&& accessMask mode 0o4#32 0o2#32 0o1#32 = accessMask mode 0o4#32 0o2#32 0o1#32

def LookupState.hasAccess (s : LookupState) (node : ℕ) (uid gid mode : BitVec 32) : Bool :=
  statHasAccess (s.vfs.mode node) (s.owners (s.vfs.nodes node).asset) uid gid mode

def userDirLookup (task : LookupTask) (dirfd : BitVec 32) (path : Name) : Except LookupErrno ℕ :=
  if path.head? ≠ some slash then
    if dirfd = atFdcwd then .ok (task.cwd.getD vfsRoot)
    else
      match task.fdNode dirfd with
      | none => .error .EBADF
      | some node => .ok (node.getD vfsRoot)
  else .ok vfsRoot

def VfsState.follow (s : VfsState) (fuel : ℕ) (parent : ℕ) (sympath : Name) : Option (Option ℕ) :=
  vfsSearchAbsolute s fuel parent sympath true

def lookupResult : Option ℕ → Except LookupErrno ℕ
  | none => .error .ENOENT
  | some node => .ok node

def lookupFrom (follow : ℕ → Name → Option (Option ℕ)) (s : LookupState) (task : LookupTask)
    (symlinkFollow : Bool) : ℕ → List Name → Option (Except LookupErrno ℕ)
  | parent, [] =>
    -- The length of the list is zero, and its predecessor is the largest number.
    if s.hasAccess parent task.effectiveUid task.effectiveGid xOk then none
    else some (.error .EACCES)
  | parent, [name] =>
    if s.hasAccess parent task.effectiveUid task.effectiveGid xOk then
      (vfsSearchRelative follow s.vfs parent name symlinkFollow).map lookupResult
    else some (.error .EACCES)
  | parent, name :: next :: rest =>
    if s.hasAccess parent task.effectiveUid task.effectiveGid xOk then
      (vfsSearchRelative follow s.vfs parent name true).bind fun found =>
        match found with
        | none => some (.error .ENOENT)
        | some node => lookupFrom follow s task symlinkFollow (s.vfs.mounted node) (next :: rest)
    else some (.error .EACCES)

def checkFound (s : LookupState) (task : LookupTask) (lookupFlags mode : BitVec 32) (node : ℕ) :
    Except LookupErrno ℕ :=
  let uid := if lookupFlags &&& atEaccess ≠ 0#32 then task.effectiveUid else task.realUid
  let gid := if lookupFlags &&& atEaccess ≠ 0#32 then task.effectiveGid else task.realGid
  if s.hasAccess node uid gid mode then .ok node else .error .EACCES

def userLookupAt (fuel : ℕ) (s : LookupState) (task : LookupTask) (dirfd : BitVec 32) (path : Name)
    (lookupFlags mode : BitVec 32) : Option (Except LookupErrno ℕ) :=
  if path = [slash] then some (.ok vfsRoot)
  else
    match userDirLookup task dirfd path with
    | .error e => some (.error e)
    | .ok parent =>
      if path = [] then none
      else
        (lookupFrom (s.vfs.follow fuel) s task (lookupFlags &&& atSymlinkNofollow ≠ 0#32) parent
          (subpathList path)).map fun found => found.bind (checkFound s task lookupFlags mode)

/-! ## The nodes that a path passes -/

def passed (follow : ℕ → Name → Option (Option ℕ)) (s : VfsState) :
    ℕ → List Name → Option (List ℕ × ℕ)
  | parent, [] => some ([], parent)
  | parent, name :: rest =>
    (vfsSearchRelative follow s parent name true).join.bind fun node =>
      (passed follow s (s.mounted node) rest).map fun r => (s.mounted node :: r.1, r.2)

def NamesLink (s : VfsState) (parent : ℕ) (name : Name) : Prop :=
  ¬ IsDot name ∧
    ∃ c ∈ s.childNamed parent name, sIslnk (s.mode c)
  deriving Decidable

/-- **The trees**: parents are directories, and links can be resolved. -/
structure LookupTree (s : VfsState) (fuel : ℕ) : Prop where
  rootDir : sIsdir (s.mode vfsRoot)
  parentDir : ∀ n p, (s.nodes n).parent = some p → sIsdir (s.mode p)
  linksEnd : ∀ p, ∀ c ∈ (s.nodes p).children, sIslnk (s.mode c) → ∃ sympath r,
    (s.nodes c).symlink = some sympath ∧
      s.follow fuel (if sympath.head? = some slash then vfsRoot else p) sympath = some r

section Walks

variable {s : VfsState} {follow : ℕ → Name → Option (Option ℕ)} {fuel parent n : ℕ} {name : Name}
  {comps : List Name}

theorem not_link_of_dir {mode : BitVec 32} (h : sIsdir mode) : ¬ sIslnk mode := by
  unfold sIsdir at h
  unfold sIslnk
  rw [beq_iff_eq] at h ⊢
  rw [h]
  decide

theorem LookupTree.searchRelative (h : LookupTree s fuel) (parent : ℕ) (name : Name)
    (symlink : Bool) : ∃ r, vfsSearchRelative (s.follow fuel) s parent name symlink = some r := by
  unfold vfsSearchRelative
  split_ifs with hdot hdotdot
  · exact ⟨_, rfl⟩
  · exact ⟨_, rfl⟩
  · cases hfind : s.childNamed parent name with
    | none => exact ⟨_, rfl⟩
    | some c =>
      dsimp only
      split_ifs with hlink
      · obtain ⟨sympath, r, hsympath, hr⟩ := h.linksEnd parent c (mem_of_find?_eq_some hfind)
          (Bool.and_eq_true_iff.mp hlink).2
        rw [hsympath]
        exact ⟨r, hr⟩
      · exact ⟨_, rfl⟩

theorem searchRelative_of_not_link (h : ¬ NamesLink s parent name) (b b' : Bool) :
    vfsSearchRelative follow s parent name b = vfsSearchRelative follow s parent name b' := by
  unfold vfsSearchRelative
  split_ifs with hdot hdotdot
  · rfl
  · rfl
  · cases hfind : s.childNamed parent name with
    | none => rfl
    | some c =>
      have hplain : sIslnk (s.mode c) = false := by
        by_contra hlink
        exact h ⟨not_or.mpr ⟨hdot, hdotdot⟩, c, hfind, by simpa using hlink⟩
      simp [hplain]

section

variable (hparents : ∀ n p, (s.nodes n).parent = some p → sIsdir (s.mode p))
    (hroot : ¬ sIslnk (s.mode vfsRoot))
    (hfollow : ∀ p path n, ¬ sIslnk (s.mode p) → follow p path = some (some n) →
      ¬ sIslnk (s.mode n))
    (hparent : ¬ sIslnk (s.mode parent))

include hparents hroot hfollow hparent

theorem searchRelative_not_link
    (h : vfsSearchRelative follow s parent name true = some (some n)) : ¬ sIslnk (s.mode n) := by
  unfold vfsSearchRelative at h
  split_ifs at h with hdot hdotdot
  · obtain rfl := some.inj (some.inj h)
    exact hparent
  · exact not_link_of_dir (hparents parent n (some.inj h))
  · cases hfind : s.childNamed parent name with
    | none =>
      rw [hfind] at h
      simp at h
    | some c =>
      rw [hfind] at h
      dsimp only at h
      split_ifs at h with hlink
      · obtain ⟨sympath, -, hr⟩ := bind_eq_some_iff.mp h
        refine hfollow _ sympath n ?_ hr
        split_ifs
        · exact hroot
        · exact hparent
      · obtain rfl := some.inj (some.inj h)
        simpa using hlink

theorem searchFrom_not_link (h : searchFrom follow s true parent comps = some (some n)) :
    ¬ sIslnk (s.mode n) := by
  induction comps generalizing parent with
  | nil =>
    obtain rfl := some.inj (some.inj h)
    exact hroot
  | cons name comps ih =>
    cases comps with
    | nil => exact searchRelative_not_link hparents hroot hfollow hparent h
    | cons next rest =>
      obtain ⟨found, -, h⟩ := bind_eq_some_iff.mp h
      cases found with
      | none => exact absurd h (by simp)
      | some node =>
        dsimp only at h
        split_ifs at h with hdir
        · exact ih (not_link_of_dir hdir) h
        · simp at h

end

theorem search_not_link (h : LookupTree s fuel) {k : ℕ} {path : Name}
    (hparent : ¬ sIslnk (s.mode parent))
    (hsearch : vfsSearchAbsolute s k parent path true = some (some n)) : ¬ sIslnk (s.mode n) := by
  induction k generalizing parent path n with
  | zero => exact absurd hsearch (by simp [vfsSearchAbsolute])
  | succ k ih =>
    rw [vfsSearchAbsolute] at hsearch
    split_ifs at hsearch
    exact searchFrom_not_link h.parentDir (not_link_of_dir h.rootDir)
      (fun p path n hp hn => ih hp hn) hparent hsearch

theorem LookupTree.link_ne (h : LookupTree s fuel) (hparent : ¬ sIslnk (s.mode parent))
    (hlink : NamesLink s parent name) : ∃ c r,
      vfsSearchRelative (s.follow fuel) s parent name false = some (some c) ∧
        vfsSearchRelative (s.follow fuel) s parent name true = some r ∧ r ≠ some c := by
  obtain ⟨r, hr⟩ := h.searchRelative parent name true
  obtain ⟨hplain, c, hfind, hlnk⟩ := hlink
  obtain ⟨hdot, hdotdot⟩ := not_or.mp hplain
  refine ⟨c, r, ?_, hr, ?_⟩
  · rw [vfsSearchRelative, if_neg hdot, if_neg hdotdot, mem_def.mp hfind]
    rfl
  · rintro rfl
    exact searchRelative_not_link h.parentDir (not_link_of_dir h.rootDir)
      (fun p path n hp hn => search_not_link h hp hn) hparent hr hlnk

end Walks

/-! ## The two walks -/

section Agreement

variable {s : LookupState} {task : LookupTask} {fuel parent n : ℕ} {name : Name}
  {comps : List Name} {symfollow : Bool}

theorem searchFrom_eq (h : LookupTree s.vfs fuel) :
    searchFrom (s.vfs.follow fuel) s.vfs symfollow parent (comps ++ [name]) =
      match passed (s.vfs.follow fuel) s.vfs parent comps with
      | none => some none
      | some r =>
        if ∀ m ∈ r.1, sIsdir (s.vfs.mode m) then
          vfsSearchRelative (s.vfs.follow fuel) s.vfs r.2 name symfollow
        else some none := by
  induction comps generalizing parent with
  | nil => simp [searchFrom, passed]
  | cons k comps ih =>
    obtain ⟨found, hfound⟩ := h.searchRelative parent k true
    obtain ⟨next, rest, hrest⟩ := exists_cons_of_ne_nil (concat_ne_nil name comps)
    rw [cons_append, hrest, searchFrom, passed, hfound, ← hrest]
    cases found with
    | none => rfl
    | some node =>
      dsimp only [bind_some, join_some]
      rw [ih]
      cases passed (s.vfs.follow fuel) s.vfs (s.vfs.mounted node) comps with
      | none => simp
      | some r =>
        by_cases hdir : sIsdir (s.vfs.mode (s.vfs.mounted node)) <;> simp [hdir]

theorem lookupFrom_eq (h : LookupTree s.vfs fuel) (huid : task.effectiveUid = 0#32) :
    lookupFrom (s.vfs.follow fuel) s task symfollow parent (comps ++ [name]) =
      match passed (s.vfs.follow fuel) s.vfs parent comps with
      | none => some (.error .ENOENT)
      | some r =>
        (vfsSearchRelative (s.vfs.follow fuel) s.vfs r.2 name symfollow).map lookupResult := by
  have haccess : ∀ node, s.hasAccess node task.effectiveUid task.effectiveGid xOk = true := by
    intro node
    rw [LookupState.hasAccess, statHasAccess, if_pos huid]
  induction comps generalizing parent with
  | nil => simp [lookupFrom, passed, haccess]
  | cons k comps ih =>
    obtain ⟨found, hfound⟩ := h.searchRelative parent k true
    obtain ⟨next, rest, hrest⟩ := exists_cons_of_ne_nil (concat_ne_nil name comps)
    rw [cons_append, hrest, lookupFrom, passed, hfound, if_pos (haccess parent), ← hrest]
    cases found with
    | none => rfl
    | some node =>
      dsimp only [bind_some, join_some]
      rw [ih]
      cases passed (s.vfs.follow fuel) s.vfs (s.vfs.mounted node) comps <;> rfl

/-- **The paths for which the two lookups agree**: the path is `/` or has a component. -/
def SameLookup (s : VfsState) (fuel dir : ℕ) (path : Name) (lookupFlags : BitVec 32) : Prop :=
  (subpathList path = [] → path = [slash]) ∧
    ∀ comps name, subpathList path = comps ++ [name] →
      ∀ r, passed (s.follow fuel) s dir comps = some r →
        ((∀ m ∈ r.1, sIsdir (s.mode m)) → ¬ NamesLink s r.2 name) ∧
          ((¬ ∀ m ∈ r.1, sIsdir (s.mode m)) → vfsSearchRelative (s.follow fuel) s r.2 name
            (lookupFlags &&& atSymlinkNofollow ≠ 0#32) = some none)

variable {dir : ℕ} {path : Name} {dirfd lookupFlags mode : BitVec 32}

theorem checkFound_root (heffective : task.effectiveUid = 0#32) (hreal : task.realUid = 0#32) :
    checkFound s task lookupFlags mode n = .ok n := by
  have huid : (if lookupFlags &&& atEaccess ≠ 0#32 then task.effectiveUid else task.realUid) =
      0#32 := by
    split_ifs
    · exact heffective
    · exact hreal
  rw [checkFound, huid, LookupState.hasAccess, statHasAccess]
  rfl

theorem userLookupAt_iff (h : LookupTree s.vfs fuel) (heffective : task.effectiveUid = 0#32)
    (hreal : task.realUid = 0#32) (hdir : userDirLookup task dirfd path = .ok dir)
    (hcomps : subpathList path = comps ++ [name]) :
    userLookupAt fuel s task dirfd path lookupFlags mode = some (.ok n) ↔
      ∃ r, passed (s.vfs.follow fuel) s.vfs dir comps = some r ∧
        vfsSearchRelative (s.vfs.follow fuel) s.vfs r.2 name
          (lookupFlags &&& atSymlinkNofollow ≠ 0#32) = some (some n) := by
  have hslash : path ≠ [slash] := by
    rintro rfl
    exact absurd hcomps (by simp [subpathList, scanPath])
  have hpath : path ≠ [] := by
    rintro rfl
    exact absurd hcomps (by simp [subpathList, scanPath])
  rw [userLookupAt, if_neg hslash, hdir]
  dsimp only
  rw [if_neg hpath, hcomps, lookupFrom_eq h heffective]
  generalize decide (lookupFlags &&& atSymlinkNofollow ≠ 0#32) = b
  cases passed (s.vfs.follow fuel) s.vfs dir comps with
  | none => simp [Except.bind]
  | some r =>
    obtain ⟨found, hfound⟩ := h.searchRelative r.2 name b
    dsimp only
    cases found with
    | none => simp [lookupResult, Except.bind, hfound]
    | some node =>
      simp [lookupResult, Except.bind, checkFound_root heffective hreal, hfound]

theorem vfsSearchAbsolute_iff (h : LookupTree s.vfs fuel)
    (hcomps : subpathList path = comps ++ [name]) :
    vfsSearchAbsolute s.vfs (fuel + 1) dir path symfollow = some (some n) ↔
      ∃ r, passed (s.vfs.follow fuel) s.vfs dir comps = some r ∧
        (∀ m ∈ r.1, sIsdir (s.vfs.mode m)) ∧
        vfsSearchRelative (s.vfs.follow fuel) s.vfs r.2 name symfollow = some (some n) := by
  have hpath : path ≠ [] := by
    rintro rfl
    exact absurd hcomps (by simp [subpathList, scanPath])
  have hsearch : vfsSearchAbsolute s.vfs (fuel + 1) dir path symfollow =
      searchFrom (s.vfs.follow fuel) s.vfs symfollow dir (subpathList path) := by
    rw [vfsSearchAbsolute, if_neg hpath]
    rfl
  rw [hsearch, hcomps, searchFrom_eq h]
  cases passed (s.vfs.follow fuel) s.vfs dir comps with
  | none => simp
  | some r =>
    dsimp only
    split_ifs with hdirs
    · simp only [some.injEq, exists_eq_left']
      exact (and_iff_right fun m hm => hdirs m hm).symm
    · simp only [some.injEq, exists_eq_left', reduceCtorEq, hdirs, false_and]

theorem passed_end {s : VfsState} {follow : ℕ → Name → Option (Option ℕ)} {r : List ℕ × ℕ}
    (h : passed follow s parent comps = some r) : r.2 = parent ∨ r.2 ∈ r.1 := by
  induction comps generalizing parent r with
  | nil =>
    cases h
    exact .inl rfl
  | cons name comps ih =>
    obtain ⟨node, -, h⟩ := bind_eq_some_iff.mp h
    obtain ⟨r', hr', rfl⟩ := map_eq_some_iff.mp h
    rcases ih hr' with heq | hmem
    · exact .inr (heq ▸ mem_cons_self)
    · exact .inr (mem_cons_of_mem _ hmem)

theorem last_agree_iff (h : LookupTree s.vfs fuel) (hparent : ¬ sIslnk (s.vfs.mode parent))
    (b : Bool) :
    (∀ n, vfsSearchRelative (s.vfs.follow fuel) s.vfs parent name b = some (some n) ↔
        vfsSearchRelative (s.vfs.follow fuel) s.vfs parent name (!b) = some (some n)) ↔
      ¬ NamesLink s.vfs parent name := by
  constructor
  · intro hagree hlink
    obtain ⟨c, r, hkept, hfollowed, hne⟩ := h.link_ne hparent hlink
    have hc := hagree c
    cases b with
    | false =>
      rw [Bool.not_false, hkept, hfollowed] at hc
      exact hne (some.inj (hc.mp rfl))
    | true =>
      rw [Bool.not_true, hkept, hfollowed] at hc
      exact hne (some.inj (hc.mpr rfl))
  · intro hplain n
    rw [searchRelative_of_not_link hplain b (!b)]

theorem components_agree_iff (h : LookupTree s.vfs fuel) (hisdir : sIsdir (s.vfs.mode dir))
    (b : Bool) :
    (∀ n, (∃ r, passed (s.vfs.follow fuel) s.vfs dir comps = some r ∧
          vfsSearchRelative (s.vfs.follow fuel) s.vfs r.2 name b = some (some n)) ↔
        ∃ r, passed (s.vfs.follow fuel) s.vfs dir comps = some r ∧
          (∀ m ∈ r.1, sIsdir (s.vfs.mode m)) ∧
          vfsSearchRelative (s.vfs.follow fuel) s.vfs r.2 name (!b) = some (some n)) ↔
      ∀ r, passed (s.vfs.follow fuel) s.vfs dir comps = some r →
        ((∀ m ∈ r.1, sIsdir (s.vfs.mode m)) → ¬ NamesLink s.vfs r.2 name) ∧
          ((¬ ∀ m ∈ r.1, sIsdir (s.vfs.mode m)) →
            vfsSearchRelative (s.vfs.follow fuel) s.vfs r.2 name b = some none) := by
  cases hpassed : passed (s.vfs.follow fuel) s.vfs dir comps with
  | none => simp
  | some r =>
    simp only [some.injEq, exists_eq_left', forall_eq']
    by_cases hdirs : ∀ m ∈ r.1, sIsdir (s.vfs.mode m)
    · have hend : ¬ sIslnk (s.vfs.mode r.2) := by
        rcases passed_end hpassed with heq | hmem
        · exact not_link_of_dir (heq ▸ hisdir)
        · exact not_link_of_dir (hdirs _ hmem)
      have hlast : (∀ n, vfsSearchRelative (s.vfs.follow fuel) s.vfs r.2 name b = some (some n) ↔
          vfsSearchRelative (s.vfs.follow fuel) s.vfs r.2 name (!b) = some (some n)) ↔
          ¬ NamesLink s.vfs r.2 name := last_agree_iff h hend b
      constructor
      · intro hagree
        exact ⟨fun _ => hlast.mp fun n => (hagree n).trans (and_iff_right hdirs),
          fun hnot => absurd hdirs hnot⟩
      · intro hsame n
        exact (hlast.mpr (hsame.1 hdirs) n).trans (and_iff_right hdirs).symm
    · -- `vfs_search_absolute` stops at the node that is no directory and finds nothing.
      obtain ⟨found, hfound⟩ := h.searchRelative r.2 name b
      constructor
      · refine fun hagree => ⟨fun hall => absurd hall hdirs, fun _ => ?_⟩
        cases found with
        | none => exact hfound
        | some node => exact absurd ((hagree node).mp hfound).1 hdirs
      · intro hsame n
        rw [hsame.2 hdirs]
        exact ⟨fun hnone => absurd hnone (by simp), fun hall => absurd hall.1 hdirs⟩

theorem no_components_agree_iff (heffective : task.effectiveUid = 0#32) (hpath : path ≠ [])
    (hdir : userDirLookup task dirfd path = .ok dir) (hnil : subpathList path = []) :
    (∀ n, userLookupAt fuel s task dirfd path lookupFlags mode = some (.ok n) ↔
        vfsSearchAbsolute s.vfs (fuel + 1) dir path symfollow = some (some n)) ↔
      path = [slash] := by
  have hsearch : vfsSearchAbsolute s.vfs (fuel + 1) dir path symfollow = some (some vfsRoot) := by
    rw [vfsSearchAbsolute, if_neg hpath, hnil]
    rfl
  rw [hsearch]
  constructor
  · intro hagree
    by_contra hslash
    have hfound := (hagree vfsRoot).mpr rfl
    rw [userLookupAt, if_neg hslash, hdir] at hfound
    dsimp only at hfound
    rw [hnil, lookupFrom, LookupState.hasAccess, statHasAccess, if_pos heffective]
      at hfound
    simp at hfound
  · rintro rfl n
    rw [userLookupAt]
    simp

/-- **When the two lookups agree**, for a task with the user id 0. -/
theorem lookups_agree_iff (h : LookupTree s.vfs fuel) (heffective : task.effectiveUid = 0#32)
    (hreal : task.realUid = 0#32) (hpath : path ≠ [])
    (hdir : userDirLookup task dirfd path = .ok dir) (hisdir : sIsdir (s.vfs.mode dir)) :
    (∀ n, userLookupAt fuel s task dirfd path lookupFlags mode = some (.ok n) ↔
        vfsSearchAbsolute s.vfs (fuel + 1) dir path (lookupFlags &&& atSymlinkNofollow = 0#32) =
          some (some n)) ↔
      SameLookup s.vfs fuel dir path lookupFlags := by
  rcases eq_nil_or_concat (subpathList path) with hnil | ⟨comps, name, hcomps⟩
  · rw [no_components_agree_iff heffective hpath hdir hnil]
    refine ⟨fun hslash => ⟨fun _ => hslash, fun comps name hcomps => ?_⟩, fun hsame => hsame.1 hnil⟩
    rw [hnil] at hcomps
    simp at hcomps
  · rw [concat_eq_append] at hcomps
    have hflip : (decide (lookupFlags &&& atSymlinkNofollow = 0#32)) =
        !decide (lookupFlags &&& atSymlinkNofollow ≠ 0#32) := by
      simp
    simp only [userLookupAt_iff h heffective hreal hdir hcomps, vfsSearchAbsolute_iff h hcomps,
      hflip]
    unfold SameLookup
    generalize decide (lookupFlags &&& atSymlinkNofollow ≠ 0#32) = b
    rw [components_agree_iff h hisdir b]
    constructor
    · refine fun hagree => ⟨fun hnil => ?_, fun comps' name' hcomps' => ?_⟩
      · rw [hnil] at hcomps
        simp at hcomps
      · obtain ⟨rfl, hname⟩ := append_inj' (hcomps'.symm.trans hcomps) rfl
        obtain rfl := singleton_inj.mp hname
        exact hagree
    · exact fun hsame => hsame.2 comps name hcomps

/-- `/l` links to `/etc`, and a file system with the file `x` is mounted on `/etc/m`. -/
def linkedTree : LookupState where
  vfs :=
    { nodes := fun n =>
        match n with
        | 0 => ⟨[slash], 0, none, none, none, [1, 2, 3, 4], none⟩
        | 1 => ⟨dot, 0, none, some 0, none, [], none⟩
        | 2 => ⟨dotdot, 0, none, some 0, none, [], none⟩
        | 3 => ⟨[0x65#8, 0x74#8, 0x63#8], 0, none, some 0, none, [5], none⟩
        | 4 => ⟨[0x6c#8], 1, none, some 0, none, [], some [slash, 0x65#8, 0x74#8, 0x63#8]⟩
        | 5 => ⟨[0x6d#8], 0, none, some 3, some 6, [], none⟩
        | 6 => ⟨[slash], 0, none, none, none, [7], none⟩
        | _ => ⟨[0x78#8], 2, none, some 6, none, [], none⟩
      nodeCnt := 8
      assets := fun a => vfsDefaultAsset (if a = 0 then sIfdir else if a = 1 then sIflnk else sIfreg)
      assetCnt := 3 }
  owners _ := ⟨0#32, 0#32⟩

def rootTask : LookupTask := ⟨0#32, 0#32, 0#32, 0#32, none, fun _ => none⟩

theorem linkedTree_lookup : LookupTree linkedTree.vfs 1 where
  rootDir := by decide
  parentDir n p hp := by
    have hmem : p ∈ [0, 3, 6] := by
      match n with
      | 0 | 6 => cases hp
      | 1 | 2 | 3 | 4 | 5 | _ + 7 => simp [← some.inj hp]
    exact (by decide : ∀ p ∈ [0, 3, 6], sIsdir (linkedTree.vfs.mode p)) p hmem
  linksEnd p c hc hlink := by
    have hmem : c ∈ [1, 2, 3, 4, 5, 7] := by
      match p with
      | 0 | 3 | 6 => exact (by decide : _ ⊆ [1, 2, 3, 4, 5, 7]) hc
      | 1 | 2 | 4 | 5 | _ + 7 => cases hc
    obtain rfl : c = 4 :=
      (by decide : ∀ c ∈ [1, 2, 3, 4, 5, 7], sIslnk (linkedTree.vfs.mode c) → c = 4) c hmem hlink
    refine ⟨[slash, 0x65#8, 0x74#8, 0x63#8], some 3, rfl, ?_⟩
    rw [if_pos (show [slash, 0x65#8, 0x74#8, 0x63#8].head? = some slash from rfl)]
    decide +kernel

def mountedPath : Name := [slash, 0x6c#8, slash, 0x6d#8, slash, 0x78#8]

/-- **A link and a mounted file system** are passed on the way to `/l/m/x`. -/
theorem lookups_agree_iff_link_mount :
    userLookupAt 1 linkedTree rootTask atFdcwd mountedPath 0#32 rOk = some (.ok 7) ∧
      ∀ n, userLookupAt 1 linkedTree rootTask atFdcwd mountedPath 0#32 rOk = some (.ok n) ↔
        vfsSearchAbsolute linkedTree.vfs 2 vfsRoot mountedPath (0#32 &&& atSymlinkNofollow = 0#32) =
          some (some n) := by
  refine ⟨by decide +kernel, (lookups_agree_iff linkedTree_lookup rfl rfl (by decide) (by decide)
    (by decide)).mpr ⟨fun hnil => absurd hnil (by decide), fun comps name hcomps r hr => ?_⟩⟩
  obtain ⟨rfl, hname⟩ := append_inj' (hcomps.symm.trans
    (show _ = [[0x6c#8], [0x6d#8]] ++ [[0x78#8]] by decide +kernel)) rfl
  obtain rfl := singleton_inj.mp hname
  have hpassed : passed (linkedTree.vfs.follow 1) linkedTree.vfs vfsRoot [[0x6c#8], [0x6d#8]] =
      some ([3, 6], 6) := by decide +kernel
  cases hpassed.symm.trans hr
  exact ⟨fun _ => by decide +kernel, fun hnot => absurd (by decide) hnot⟩

/-- **A link at the end of the path**: `user_lookup_at` without flags finds the link, where
`vfs_search_absolute` follows it, and with `AT_SYMLINK_NOFOLLOW` it is the other way round. -/
theorem link_looked_up_differently : LookupTree linkedTree.vfs 1 ∧
    userLookupAt 1 linkedTree rootTask atFdcwd [slash, 0x6c#8] 0#32 rOk = some (.ok 4) ∧
    vfsSearchAbsolute linkedTree.vfs 2 vfsRoot [slash, 0x6c#8]
      (0#32 &&& atSymlinkNofollow = 0#32) = some (some 3) ∧
    userLookupAt 1 linkedTree rootTask atFdcwd [slash, 0x6c#8] atSymlinkNofollow rOk =
      some (.ok 3) ∧
    vfsSearchAbsolute linkedTree.vfs 2 vfsRoot [slash, 0x6c#8]
      (atSymlinkNofollow &&& atSymlinkNofollow = 0#32) = some (some 4) :=
  ⟨linkedTree_lookup, by decide +kernel, by decide +kernel, by decide +kernel, by decide +kernel⟩

end Agreement

end Pastoral
