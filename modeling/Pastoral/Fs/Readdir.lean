import Pastoral.Fs.Vfs

/-!
# Reading a directory

`syscall_readdir` keeps a list of entries and a cursor in the file handle.

## Main results

* `enumerates_once_iff`: when each child is returned once
-/

open List

namespace Pastoral

structure Dirent where
  dIno : BitVec 64
  dOff : ℤ
  dReclen : ℕ
  dType : ℕ
  dName : Name
  deriving DecidableEq, Repr

/-- A child whose name `strcpy` copies into `char d_name[1024]`, with its end. -/
structure DirChild where
  name : Name
  asset : Asset
  short : name.length < 1024
  deriving DecidableEq, Repr

def direntType (mode : BitVec 32) : ℕ :=
  match mode &&& sIfmt with
  | 0x2000#32 => 2
  | 0x6000#32 => 6
  | 0x4000#32 => 4
  | 0xa000#32 => 10
  | 0x1000#32 => 1
  | 0x8000#32 => 8
  | 0xc000#32 => 12
  | _ => 0

def fdGenerateDirent (node : DirChild) : Dirent :=
  ⟨node.asset.stIno, 0, 1048, direntType node.asset.stMode, node.name⟩

structure DirHandle where
  children : List DirChild
  direntList : List Dirent
  currentDirent : ℕ

def DirHandle.dropList (s : DirHandle) : DirHandle :=
  if s.currentDirent ≤ s.children.length ∧ s.children.length ≠ s.direntList.length then
    { s with direntList := [], currentDirent := 0 }
  else s

def DirHandle.makeList (s : DirHandle) : DirHandle :=
  if s.direntList = [] then { s with direntList := s.children.map fdGenerateDirent } else s

def syscallReaddir (s : DirHandle) : Option (ℕ × Dirent) × DirHandle :=
  let s := s.dropList.makeList
  match s.direntList[s.currentDirent]? with
  | none => (none, s)
  | some d => (some (s.currentDirent, d), { s with currentDirent := s.currentDirent + 1 })

inductive DirOp
  | readdir
  | create (node : DirChild)
  deriving DecidableEq

def readdirs : DirHandle → List DirOp → List (Option (ℕ × Dirent))
  | _, [] => []
  | s, .readdir :: ops => (syscallReaddir s).1 :: readdirs (syscallReaddir s).2 ops
  | s, .create node :: ops => readdirs { s with children := s.children ++ [node] } ops

def dirEntries (children : List DirChild) : List (ℕ × Dirent) :=
  (List.finRange children.length).map fun i => (i.val, fdGenerateDirent (children.get i))

/-- Each of the children is returned exactly once. -/
def EachOnce (children : List DirChild) (l : List (ℕ × Dirent)) : Prop :=
  ∀ e ∈ dirEntries children, l.count e = 1

section Readdir

variable {children : List DirChild} {s : DirHandle} {ops : List DirOp}
  {e : ℕ × Dirent} {l : List (ℕ × Dirent)} {k : ℕ}

theorem length_dirEntries : (dirEntries children).length = children.length := by
  simp [dirEntries]

theorem head_dirEntries_append (h : 0 < children.length) {node : DirChild} :
    (dirEntries (children ++ [node]))[0]? = (dirEntries children)[0]? := by
  simp [dirEntries, h]

theorem makeList_settled (k : ℕ) :
    DirHandle.makeList ⟨children, children.map fdGenerateDirent, k⟩ =
      ⟨children, children.map fdGenerateDirent, k⟩ := by
  unfold DirHandle.makeList
  split_ifs with hnil
  · rfl
  · rfl

theorem syscallReaddir_settled (children : List DirChild) (k : ℕ) :
    syscallReaddir ⟨children, children.map fdGenerateDirent, k⟩ = ((dirEntries children)[k]?,
      ⟨children, children.map fdGenerateDirent, if k < children.length then k + 1 else k⟩) := by
  rw [syscallReaddir, DirHandle.dropList, if_neg (by simp), makeList_settled]
  by_cases hlt : k < children.length
  · simp [dirEntries, hlt]
  · simp [dirEntries, hlt]

theorem syscallReaddir_stale (hk : s.currentDirent ≤ s.direntList.length)
    (hlt : s.direntList.length < s.children.length) :
    syscallReaddir s = syscallReaddir ⟨s.children, s.children.map fdGenerateDirent, 0⟩ := by
  have hdrop : s.dropList = ⟨s.children, [], 0⟩ := if_pos ⟨by omega, by omega⟩
  have hmake : DirHandle.makeList ⟨s.children, [], 0⟩ =
      ⟨s.children, s.children.map fdGenerateDirent, 0⟩ := if_pos rfl
  rw [syscallReaddir, syscallReaddir, hdrop, hmake, DirHandle.dropList, if_neg (by simp),
    makeList_settled]

theorem readdirs_opened (h : ops.head? = some .readdir) :
    readdirs ⟨children, [], 0⟩ ops =
      readdirs ⟨children, children.map fdGenerateDirent, 0⟩ ops := by
  cases children with
  | nil => rfl
  | cons c cs =>
    cases ops with
    | nil => rfl
    | cons op ops =>
      obtain rfl : op = .readdir := by simpa using h
      rw [readdirs, readdirs, @syscallReaddir_stale ⟨c :: cs, [], 0⟩ le_rfl (by simp)]

theorem readdirs_ne_nil (h : .readdir ∈ ops) : readdirs s ops ≠ [] := by
  induction ops generalizing s with
  | nil => simp at h
  | cons op ops ih =>
    cases op with
    | readdir => simp [readdirs]
    | create node => exact ih (by simpa using h)

theorem readdirs_settled (hops : ∀ op ∈ ops, op = .readdir)
    (h : readdirs ⟨children, children.map fdGenerateDirent, k⟩ ops = l.map some ++ [none]) :
    l = (dirEntries children).drop k := by
  induction ops generalizing k l with
  | nil => simp [readdirs] at h
  | cons op ops ih =>
    obtain rfl := hops op mem_cons_self
    rw [readdirs, syscallReaddir_settled] at h
    by_cases hlt : k < children.length
    · have hlt' : k < (dirEntries children).length := by rwa [length_dirEntries]
      rw [getElem?_eq_getElem hlt', if_pos hlt] at h
      cases l with
      | nil => simp at h
      | cons e l =>
        obtain ⟨he, hrest⟩ := cons.inj h
        cases he
        rw [ih (fun op hop => hops op (mem_cons_of_mem _ hop)) hrest,
          ← drop_eq_getElem_cons hlt']
    · have hnone : (dirEntries children).length ≤ k := by
        rw [length_dirEntries]
        omega
      rw [getElem?_eq_none hnone] at h
      cases l with
      | nil => rw [drop_eq_nil_of_le hnone]
      | cons e l => simp at h

theorem readdirs_stale (hk : s.currentDirent ≤ s.direntList.length)
    (hlt : s.direntList.length < s.children.length) (hhead : (dirEntries s.children)[0]? = some e)
    (hmem : .readdir ∈ ops) : ∃ rest, readdirs s ops = some e :: rest := by
  induction ops generalizing s with
  | nil => simp at hmem
  | cons op ops ih =>
    cases op with
    | readdir =>
      rw [readdirs, syscallReaddir_stale hk hlt, syscallReaddir_settled, hhead]
      exact ⟨_, rfl⟩
    | create node =>
      refine ih hk ?_ (hhead ▸ head_dirEntries_append (by omega)) (by simpa using hmem)
      simpa using Nat.lt_succ_of_lt hlt

theorem first_again (hk : k ≤ children.length) (hhead : (dirEntries children)[0]? = some e)
    {node : DirChild} (hcreate : .create node ∈ ops) (hlast : ops.getLast? = some .readdir)
    (h : readdirs ⟨children, children.map fdGenerateDirent, k⟩ ops = l.map some ++ [none]) :
    e ∈ l := by
  induction ops generalizing k l with
  | nil => simp at hcreate
  | cons op ops ih =>
    have hne : ops ≠ [] := by
      rintro rfl
      simp_all
    have hlast' : ops.getLast? = some .readdir := by
      rwa [getLast?_cons_of_ne_nil hne] at hlast
    have hmem := mem_of_getLast? hlast'
    have hpos : 0 < children.length := by
      rw [← length_dirEntries]
      exact (List.getElem?_eq_some_iff.mp hhead).1
    cases op with
    | create node =>
      obtain ⟨rest, hrest⟩ := @readdirs_stale
        ⟨children ++ [node], children.map fdGenerateDirent, k⟩ ops e (by simpa using hk) (by simp)
        (hhead ▸ head_dirEntries_append hpos) hmem
      rw [readdirs, hrest] at h
      cases l with
      | nil => simp at h
      | cons e l => simp_all
    | readdir =>
      rw [readdirs, syscallReaddir_settled] at h
      cases l with
      | nil =>
        -- The end would have been reported while calls are still to come.
        exact absurd (cons.inj h).2 (readdirs_ne_nil hmem)
      | cons e l =>
        refine mem_cons_of_mem _ (ih ?_ (by simpa using hcreate) hlast' (cons.inj h).2)
        split_ifs with hlt
        · exact hlt
        · exact hk

/-- **When a directory is read exactly once**: a handle is opened, the first call is made, and the
last one reports the end. -/
theorem enumerates_once_iff (hfirst : ops.head? = some .readdir)
    (hlast : ops.getLast? = some .readdir)
    (hend : readdirs ⟨children, [], 0⟩ ops = l.map some ++ [none]) :
    EachOnce children l ↔ children = [] ∨ ∀ op ∈ ops, op = .readdir := by
  rw [readdirs_opened hfirst] at hend
  constructor
  · intro honce
    by_contra hnot
    rw [not_or] at hnot
    have hpos : 0 < (dirEntries children).length := by
      rw [length_dirEntries]
      exact length_pos_of_ne_nil hnot.1
    cases ops with
    | nil => simp at hfirst
    | cons op ops =>
      obtain rfl : op = .readdir := by simpa using hfirst
      obtain ⟨node, hcreate⟩ : ∃ node, .create node ∈ ops := by
        by_contra hnone
        refine hnot.2 fun op hop => ?_
        cases op with
        | readdir => rfl
        | create node => exact absurd ⟨node, by simpa using hop⟩ hnone
      rw [readdirs, syscallReaddir_settled, getElem?_eq_getElem hpos] at hend
      cases l with
      | nil => simp at hend
      | cons e l =>
        obtain ⟨he, hrest⟩ := List.cons.inj hend
        cases he
        rw [getLast?_cons_of_ne_nil (ne_nil_of_mem hcreate)] at hlast
        have hagain := first_again (by split_ifs <;> omega) (getElem?_eq_getElem hpos)
          hcreate hlast hrest
        have hcount := honce _ (getElem_mem hpos)
        rw [count_cons_self] at hcount
        have hmore := count_pos_iff.mpr hagain
        omega
  · rintro (rfl | hops) e he
    · simp [dirEntries] at he
    · have hnodup : (dirEntries children).Nodup :=
        (nodup_finRange _).map fun i j hij => Fin.ext (Prod.mk.inj hij).1
      rw [readdirs_settled hops hend]
      exact count_eq_one_of_mem hnodup he

def dirChild (name : BitVec 8) : DirChild := ⟨[name], ⟨sIfreg, 0, 0, true⟩, by simp⟩

theorem enumerates_once_iff_two : EachOnce [dirChild 0x61, dirChild 0x62]
    (dirEntries [dirChild 0x61, dirChild 0x62]) :=
  (@enumerates_once_iff _ [.readdir, .readdir, .readdir] _ rfl rfl (by decide)).mpr
    (Or.inr (by simp))

/-- **A child is returned twice**: after the first entry was read, a child is created. -/
theorem created_child_restarts :
    readdirs ⟨[dirChild 0x61, dirChild 0x62], [], 0⟩
        [.readdir, .create (dirChild 0x63), .readdir, .readdir, .readdir, .readdir] =
      ((0, fdGenerateDirent (dirChild 0x61)) ::
        dirEntries [dirChild 0x61, dirChild 0x62, dirChild 0x63]).map some ++ [none] ∧
    ¬ EachOnce [dirChild 0x61, dirChild 0x62] ((0, fdGenerateDirent (dirChild 0x61)) ::
      dirEntries [dirChild 0x61, dirChild 0x62, dirChild 0x63]) := by
  refine ⟨by decide, fun h => ?_⟩
  exact absurd (h (0, fdGenerateDirent (dirChild 0x61)) (by decide)) (by decide)

end Readdir

end Pastoral
