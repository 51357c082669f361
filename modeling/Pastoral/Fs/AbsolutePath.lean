import Pastoral.Fs.PathSplit
import Pastoral.Lib.Strings

/-!
# Absolute paths

`vfs_absolute_path` of `vfs.c` collects the nodes from a node up to the root, and prints their names
from the root down, with a slash behind each directory.

## Main definitions

* `vfsAbsolutePath`: the function, with the vector of the nodes and the object for the text
* `PathTree`, `VfsState.Chain`: trees without links and mounts, and the nodes down to one of them
* `RoundTrips`: the path of a node is resolved to the node

## Main results

* `absolute_path_round_trip_iff`: this is so for the nodes with at most 1023 others above them
-/

open ByteMemory List NameTree Option

namespace Pastoral

/-! ## The function -/

abbrev maxPathLength : ℕ := 4096

def formatFile : Name := [percent, 0x73#8]

def formatDirectory : Name := [percent, 0x73#8, slash]

def nodeList (s : VfsState) : ℕ → List ℕ → Option ℕ → Option (List ℕ)
  | 0, _, _ => none
  | _ + 1, nodes, none => some nodes
  | fuel + 1, nodes, some node =>
    (vectorPush 8 nodes node).bind fun nodes => nodeList s fuel nodes (s.nodes node).parent

def printNode (s : VfsState) (size : ℕ) (m : ℕ → BitVec 8) (node : ℕ) : Option (ℕ → BitVec 8) :=
  let ret := strlen (load m 0 size)
  (sprint ret (if sIsdir (s.mode node) then formatDirectory else formatFile)
    [.string (s.nodes node).name] m).bind fun r =>
      if ret + (r.1 + 1) ≤ size then some r.2 else none

def vfsAbsolutePath (s : VfsState) (fuel : ℕ) : Option ℕ → Option Name
  | none => some (s.nodes vfsRoot).name
  | some node =>
    (nodeList s fuel [] (some node)).bind fun nodes =>
      (allocSize maxPathLength).bind fun size =>
        (nodes.reverse.foldlM (printNode s size) fun _ => 0#8).map fun m =>
          (load m 1 (size - 1)).take (strlen (load m 1 (size - 1)))

/-- `vfs_search_absolute`, with the object for the copy of the path and the vector of its
components. -/
def searchCopy (s : VfsState) (fuel parent : ℕ) (path : Name) (symfollow : Bool) :
    Option (Option ℕ) :=
  if (allocSize path.length).isSome ∧ (vectorOf 8 (subpathList path).length).isSome then
    vfsSearchAbsolute s fuel parent path symfollow
  else none

/-! ## Trees and paths -/

def GoodName (name : Name) : Prop := (name ≠ [] ∧ slash ∉ name ∧ 0#8 ∉ name) ∧ ¬ IsDot name
  deriving Decidable

/-- **The trees of files**, without links and mounts: siblings have different names, which are
components of a path but for the two entries of a directory, and only directories have children. -/
structure PathTree (s : VfsState) : Prop extends VfsInv s where
  rootName : (s.nodes vfsRoot).name = [slash]
  rootDir : sIsdir (s.mode vfsRoot)
  inner : ∀ n < s.nodeCnt, (s.nodes n).children ≠ [] → sIsdir (s.mode n)
  names : ∀ n < s.nodeCnt, ∀ c ∈ (s.nodes n).children,
    IsDot (s.nodes c).name ∨ GoodName (s.nodes c).name

/-- **The nodes from the root to a node** that is in the tree, and is no entry `.` or `..`. -/
inductive VfsState.Chain (s : VfsState) : ℕ → List ℕ → Prop
  | root : s.Chain vfsRoot [vfsRoot]
  | child {p c : ℕ} {l : List ℕ} (h : s.Chain p l) (hc : c ∈ (s.nodes p).children)
      (hname : ¬ IsDot (s.nodes c).name) : s.Chain c (l ++ [c])

def VfsState.printed (s : VfsState) (node : ℕ) : Name :=
  (s.nodes node).name ++ if sIsdir (s.mode node) then [slash] else []

def absolutePath (s : VfsState) (l : List ℕ) : Name := (l.flatMap s.printed).tail

section Paths

variable {s : VfsState} {n : ℕ} {l : List ℕ} {name rest : Name}

theorem VfsState.Chain.lt (hl : s.Chain n l) (h : VfsInv s) : n < s.nodeCnt := by
  induction hl with
  | root => exact h.root
  | child _ hc _ ih => exact h.children _ ih _ hc

theorem VfsState.Chain.nodeList (hl : s.Chain n l) (h : VfsInv s) {fuel : ℕ}
    (hfuel : l.length < fuel) (nodes : List ℕ) : nodeList s fuel nodes (some n) =
      if nodes.length + l.length ≤ max 1024 nodes.length then some (nodes ++ l.reverse)
      else none := by
  induction hl generalizing fuel nodes with
  | root =>
    obtain ⟨fuel, rfl⟩ := Nat.exists_eq_add_of_lt hfuel
    rw [show [vfsRoot].length + fuel + 1 = fuel + 1 + 1 by rw [length_singleton]; omega,
      Pastoral.nodeList, vectorPush_pointer, h.orphan, length_singleton]
    split_ifs <;> first | rfl | omega
  | @child p c l hl hc hname ih =>
    rw [length_append, length_singleton] at hfuel
    obtain ⟨fuel, rfl⟩ := Nat.exists_eq_add_one_of_ne_zero (ne_zero_of_lt hfuel)
    have hparent : (s.nodes c).parent = some p := h.wf.back p (hl.lt h) c hc
    rw [Pastoral.nodeList, vectorPush_pointer, hparent, length_append, length_singleton]
    by_cases hroom : nodes.length < 1024
    · rw [if_pos hroom, bind_some, ih (by omega), length_append, length_singleton, reverse_append,
        append_assoc]
      exact if_congr (by omega) rfl rfl
    · rw [if_neg hroom, if_neg (by omega)]
      rfl

theorem VfsState.Chain.good (hl : s.Chain n l) (h : PathTree s) :
    ∀ c ∈ l.tail, GoodName (s.nodes c).name := by
  induction hl with
  | root => exact fun c hc => absurd hc not_mem_nil
  | @child p c l hl hc hname ih =>
    intro d hd
    rw [tail_append_of_ne_nil (by cases hl <;> simp)] at hd
    rcases mem_append.mp hd with hd | hd
    · exact ih d hd
    · obtain rfl := mem_singleton.mp hd
      exact (h.names p (hl.lt h.toVfsInv) d hc).resolve_left hname

theorem VfsState.Chain.exists_tail (hl : s.Chain n l) : ∃ r, l = vfsRoot :: r := by
  induction hl with
  | root => exact ⟨[], rfl⟩
  | child _ _ _ ih =>
    obtain ⟨r, rfl⟩ := ih
    exact ⟨_, cons_append⟩

theorem VfsState.Chain.exists_init (hl : s.Chain n l) : ∃ r, l = r ++ [n] := by
  cases hl with
  | root => exact ⟨[], rfl⟩
  | child _ _ _ => exact ⟨_, rfl⟩

theorem PathTree.printed_root (h : PathTree s) : s.printed vfsRoot = [slash, slash] := by
  rw [VfsState.printed, h.rootName, if_pos h.rootDir]
  rfl

theorem VfsState.Chain.absolutePath_eq (hl : s.Chain n l) (h : PathTree s) :
    absolutePath s l = slash :: l.tail.flatMap s.printed := by
  obtain ⟨r, rfl⟩ := hl.exists_tail
  rw [absolutePath, flatMap_cons, h.printed_root]
  rfl

theorem VfsState.Chain.flatMap_printed (hl : s.Chain n l) (h : PathTree s) :
    l.flatMap s.printed = slash :: absolutePath s l := by
  obtain ⟨r, rfl⟩ := hl.exists_tail
  rw [absolutePath, flatMap_cons, h.printed_root]
  rfl

/-! ## What is printed -/

theorem sprintLoop_file (h : 0#8 ∉ name) : sprintLoop formatFile [.string name] = some name := by
  have htake : name.take (strlen name) = name := by rw [strlen_eq h, take_length]
  rw [formatFile, sprintLoop]
  simp [sprintConvert, sprintLoop, htake]

theorem sprintLoop_directory (h : 0#8 ∉ name) :
    sprintLoop formatDirectory [.string name] = some (name ++ [slash]) := by
  have htake : name.take (strlen name) = name := by rw [strlen_eq h, take_length]
  have hslash : slash ≠ percent := by decide
  rw [formatDirectory, sprintLoop]
  simp [sprintConvert, sprintLoop, htake, hslash]

theorem printNode_eq {size : ℕ} {text : Name} (htext : 0#8 ∉ text)
    (hname : 0#8 ∉ (s.nodes n).name) (hfits : (text ++ s.printed n).length < size) :
    printNode s size (store (fun _ => 0#8) 0 text) n =
      some (store (fun _ => 0#8) 0 (text ++ s.printed n)) := by
  rw [length_append] at hfits
  have hlen : strlen (load (store (fun _ => 0#8) 0 text) 0 size) = text.length := by
    rw [load_store_const 0#8 (Nat.zero_le _) (by omega), drop_zero,
      show 0 + size - text.length = size - text.length - 1 + 1 by omega, replicate_succ,
      strlen_append_zero htext]
  have hloop : sprintLoop (if sIsdir (s.mode n) then formatDirectory else formatFile)
      [.string (s.nodes n).name] = some (s.printed n) := by
    unfold VfsState.printed
    split_ifs
    · exact sprintLoop_directory hname
    · rw [append_nil]
      exact sprintLoop_file hname
  -- The zero at the end is there already.
  have hzero : store (store (fun _ => 0#8) 0 text) (0 + text.length) (s.printed n ++ [0#8]) =
      store (fun _ => 0#8) 0 (text ++ s.printed n) := by
    rw [store_append, ← append_assoc, ← store_append]
    exact store_self (store_outside (.inr (le_refl _)))
  rw [zero_add] at hzero
  rw [printNode, hlen, sprint, hloop]
  dsimp only [map_some, bind_some]
  rw [if_pos (by omega), hzero]

theorem zero_notMem_printed (h : 0#8 ∉ (s.nodes n).name) : 0#8 ∉ s.printed n := by
  have hslash : 0#8 ≠ slash := by decide
  unfold VfsState.printed
  split_ifs <;> simp [h, hslash]

theorem printNodes_eq {size : ℕ} {text : Name} (htext : 0#8 ∉ text)
    (hnames : ∀ c ∈ l, 0#8 ∉ (s.nodes c).name)
    (hfits : (text ++ l.flatMap s.printed).length < size) :
    l.foldlM (printNode s size) (store (fun _ => 0#8) 0 text) =
      some (store (fun _ => 0#8) 0 (text ++ l.flatMap s.printed)) := by
  induction l generalizing text with
  | nil =>
    rw [flatMap_nil, append_nil]
    rfl
  | cons c l ih =>
    have hc := hnames c mem_cons_self
    rw [flatMap_cons, ← append_assoc] at hfits ⊢
    have hprinted : 0#8 ∉ text ++ s.printed c := fun hmem =>
      (mem_append.mp hmem).elim htext (zero_notMem_printed hc)
    have hroom : (text ++ s.printed c).length < size := by
      rw [length_append] at hfits
      omega
    rw [foldlM_cons, printNode_eq htext hc hroom]
    exact ih hprinted (fun d hd => hnames d (mem_cons_of_mem c hd)) hfits

theorem vfsAbsolutePath_eq (h : PathTree s) (hl : s.Chain n l)
    (hfits : (absolutePath s l).length ≤ maxPathLength) {fuel : ℕ} (hfuel : l.length < fuel) :
    vfsAbsolutePath s fuel (some n) =
      if l.length ≤ 1024 then some (absolutePath s l) else none := by
  have hmax : (absolutePath s l).length ≤ 4096 := hfits
  have htext := hl.flatMap_printed h
  have hnames : ∀ c ∈ l, 0#8 ∉ (s.nodes c).name := by
    obtain ⟨r, rfl⟩ := hl.exists_tail
    intro c hc
    rcases mem_cons.mp hc with rfl | hc
    · rw [h.rootName]
      decide
    · exact (hl.good h c hc).1.2.2
  have hzero : 0#8 ∉ absolutePath s l := fun hmem => by
    obtain ⟨c, hc, hmem⟩ := mem_flatMap.mp (mem_of_mem_tail hmem)
    exact zero_notMem_printed (hnames c hc) hmem
  have hsize : allocSize maxPathLength = some 8192 := by decide
  have hroom : ([] ++ l.flatMap s.printed).length < 8192 := by
    rw [nil_append, htext, length_cons]
    omega
  have hprint := printNodes_eq not_mem_nil hnames hroom
  rw [store_empty, nil_append, htext] at hprint
  have hload : load (store (fun _ => 0#8) 0 (slash :: absolutePath s l)) 1 (8192 - 1) =
      absolutePath s l ++ 0#8 :: replicate (8192 - (absolutePath s l).length - 2) 0#8 := by
    rw [load_store_const 0#8 (by simp) (by rw [length_cons]; omega), length_cons,
      ← replicate_succ]
    congr 2
    omega
  rw [vfsAbsolutePath, hl.nodeList h.toVfsInv hfuel, hsize, length_nil, Nat.zero_add,
    Nat.max_eq_left (Nat.zero_le _)]
  split_ifs
  · dsimp only [bind_some]
    rw [nil_append, reverse_reverse, hprint, map_some, hload, strlen_append_zero hzero, take_left]
  · rfl

/-! ## The components of the path -/

theorem scanPath_append {cur : Name} (h : slash ∉ name) :
    scanPath cur (name ++ rest) = scanPath (cur ++ name) rest := by
  induction name generalizing cur with
  | nil => rw [nil_append, append_nil]
  | cons c name ih =>
    rw [mem_cons, not_or] at h
    rw [cons_append, scanPath, if_neg (Ne.symm h.1), ih h.2, append_assoc]
    rfl

theorem scanPath_slash (h : name ≠ []) :
    scanPath name (slash :: rest) = name :: scanPath [] rest := by
  rw [scanPath, if_pos rfl, if_neg h]

theorem scanPath_printed (hnames : ∀ c ∈ l, GoodName (s.nodes c).name)
    (hdirs : ∀ c ∈ l.dropLast, sIsdir (s.mode c)) :
    scanPath [] (l.flatMap s.printed) = l.map fun c => (s.nodes c).name := by
  induction l with
  | nil => rfl
  | cons c l ih =>
    obtain ⟨⟨hne, hslash, -⟩, -⟩ := hnames c mem_cons_self
    have hrest := ih (fun d hd => hnames d (mem_cons_of_mem c hd)) fun d hd => by
      cases l with
      | nil => exact absurd hd not_mem_nil
      | cons e l => exact hdirs d (mem_cons_of_mem c hd)
    rw [flatMap_cons, VfsState.printed, append_assoc, scanPath_append hslash,
      nil_append, map_cons]
    split_ifs with hdir
    · rw [singleton_append, scanPath_slash hne, hrest]
    · -- What is no directory is the last one.
      cases l with
      | nil =>
        rw [flatMap_nil, append_nil, scanPath, if_neg hne]
        rfl
      | cons e l => exact absurd (hdirs c mem_cons_self) hdir

theorem VfsState.Chain.dirs (hl : s.Chain n l) (h : PathTree s) :
    ∀ c ∈ l.dropLast, sIsdir (s.mode c) := by
  induction hl with
  | root => exact fun c hc => absurd hc not_mem_nil
  | @child p c l hl hc hname ih =>
    intro d hd
    rw [dropLast_concat] at hd
    obtain ⟨r, rfl⟩ := hl.exists_init
    rcases mem_append.mp hd with hd | hd
    · exact ih d (by rw [dropLast_concat]; exact hd)
    · obtain rfl := mem_singleton.mp hd
      exact h.inner d (hl.lt h.toVfsInv) (ne_nil_of_mem hc)

theorem VfsState.Chain.resolve (hl : s.Chain n l) (h : VfsInv s) :
    s.tree.resolve vfsRoot (l.tail.map fun c => (s.nodes c).name) = some n := by
  induction hl with
  | root => rfl
  | @child p c l hl hc hname ih =>
    obtain ⟨r, rfl⟩ := hl.exists_tail
    rw [cons_append, tail_cons, map_append]
    rw [tail_cons] at ih
    refine Tree.resolve_snoc.trans ?_
    rw [ih]
    exact h.wf.child_of_mem (hl.lt h) hc rfl

theorem subpathList_absolutePath (h : PathTree s) (hl : s.Chain n l) :
    subpathList (absolutePath s l) = l.tail.map fun c => (s.nodes c).name := by
  have hgood := hl.good h
  have hdirs := hl.dirs h
  rw [subpathList, hl.absolutePath_eq h, scanPath, if_pos rfl]
  obtain ⟨r, rfl⟩ := hl.exists_tail
  refine scanPath_printed hgood fun c hc => ?_
  cases r with
  | nil => exact absurd hc not_mem_nil
  | cons d r => exact hdirs c (mem_cons_of_mem _ hc)

theorem PathTree.prefix_dirs (h : PathTree s) {ks ls : List Name} (hls : ls <+: ks) (hne : ls ≠ ks)
    (hks : s.tree.resolve vfsRoot ks = some n) {m : ℕ} (hm : s.tree.resolve vfsRoot ls = some m) :
    sIsdir (s.mode m) := by
  obtain ⟨rest, rfl⟩ := hls
  rw [Tree.resolve_append, hm, bind_some] at hks
  cases rest with
  | nil => exact absurd (append_nil ls).symm hne
  | cons k rest =>
    obtain ⟨c, hchild, -⟩ := bind_eq_some_iff.mp hks
    exact h.inner m (h.wf.resolve_lt h.root hm) (ne_nil_of_mem (Tree.mem_of_child hchild).1)

theorem PathTree.search (h : PathTree s) (hl : s.Chain n l) {fuel : ℕ} (hfuel : 0 < fuel) :
    vfsSearchAbsolute s fuel vfsRoot (absolutePath s l) true = some (some n) := by
  obtain ⟨fuel, rfl⟩ := Nat.exists_eq_add_one_of_ne_zero (ne_of_gt hfuel)
  have hresolve := hl.resolve h.toVfsInv
  have hpath : absolutePath s l ≠ [] := by
    rw [hl.absolutePath_eq h]
    exact cons_ne_nil _ _
  rw [h.toVfsInv.searchAbsolute fuel true hpath h.root, subpathList_absolutePath h hl]
  refine congrArg some ?_
  by_cases hnil : (l.tail.map fun c => (s.nodes c).name) = []
  · rw [hnil] at hresolve ⊢
    exact hresolve
  · refine lookup_of_resolve hnil (fun k hk => ?_) hresolve fun ls _ hls hne m hm =>
      h.prefix_dirs hls hne hresolve hm
    obtain ⟨c, hc, rfl⟩ := mem_map.mp hk
    exact not_or.mp (hl.good h c hc).2

/-- **The path leads back**: the path that `vfs_absolute_path` returns for a node is resolved to this
node. -/
def RoundTrips (s : VfsState) (n : ℕ) (l : List ℕ) : Prop :=
  ∃ path, (∀ fuel > l.length, vfsAbsolutePath s fuel (some n) = some path) ∧
    ∀ fuel > 0, searchCopy s fuel vfsRoot path true = some (some n)

theorem RoundTrips.short (h : PathTree s) (hl : s.Chain n l)
    (hfits : (absolutePath s l).length ≤ maxPathLength) (htrip : RoundTrips s n l) :
    l.length ≤ 1024 := by
  obtain ⟨path, heq, -⟩ := htrip
  by_contra hlong
  have hnone := vfsAbsolutePath_eq h hl hfits (Nat.lt_succ_self _)
  rw [heq _ (Nat.lt_succ_self _), if_neg hlong] at hnone
  exact absurd hnone (by simp)

/-- **Absolute paths lead back** if and only if at most 1024 nodes lie on the way from the root. -/
theorem absolute_path_round_trip_iff (h : PathTree s) (hl : s.Chain n l)
    (hfits : (absolutePath s l).length ≤ maxPathLength) : RoundTrips s n l ↔ l.length ≤ 1024 := by
  refine ⟨RoundTrips.short h hl hfits, fun hshort => ⟨absolutePath s l, fun fuel hfuel => ?_,
    fun fuel hfuel => ?_⟩⟩
  · rw [vfsAbsolutePath_eq h hl hfits hfuel, if_pos hshort]
  · have hmax : (absolutePath s l).length ≤ 4096 := hfits
    have hne : (absolutePath s l).length ≠ 0 := by
      rw [hl.absolutePath_eq h]
      exact Nat.succ_ne_zero _
    have hcopy := (allocSize_isSome_iff hne (by omega)).mpr (by omega)
    have hvector : (vectorOf 8 (subpathList (absolutePath s l)).length).isSome := by
      rw [subpathList_absolutePath h hl, length_map, length_tail]
      exact (vectorOf_isSome_iff (k := 10) (by decide) (by decide) _).mpr (by omega)
    rw [searchCopy, if_pos ⟨hcopy, hvector⟩]
    exact h.search hl hfuel

def smallTree : VfsState where
  nodes n :=
    match n with
    | 0 => ⟨[slash], 0, some ramfsFilesystem, none, none, [1, 2, 3], none⟩
    | 1 => ⟨dot, 0, none, some 0, none, [], none⟩
    | 2 => ⟨dotdot, 0, none, some 0, none, [], none⟩
    | 3 => ⟨[0x65#8, 0x74#8, 0x63#8], 0, none, some 0, none, [4, 5, 6], none⟩
    | 4 => ⟨dot, 0, none, some 3, none, [], none⟩
    | 5 => ⟨dotdot, 0, none, some 3, none, [], none⟩
    | _ => ⟨[0x72#8, 0x63#8], 1, none, some 3, none, [], none⟩
  nodeCnt := 7
  assets a := vfsDefaultAsset (if a = 0 then sIfdir ||| 0o755#32 else sIfreg ||| 0o644#32)
  assetCnt := 2

theorem smallTree_cases (hn : n < smallTree.nodeCnt) :
    n = 0 ∨ n = 1 ∨ n = 2 ∨ n = 3 ∨ n = 4 ∨ n = 5 ∨ n = 6 := by
  have hlt : n < 7 := hn
  omega

theorem smallTree_ok : VfsOk smallTree := by
  refine ⟨by decide, fun n hn => ?_, fun n hn => ?_, fun n hn => ?_, fun n hn => ?_⟩ <;>
  rcases smallTree_cases hn with rfl | rfl | rfl | rfl | rfl | rfl | rfl <;>
  decide

theorem smallTree_pathTree : PathTree smallTree := by
  have hinv : VfsInv smallTree := by
    refine ⟨smallTree_ok, ⟨smallTree_ok.children, fun n hn => ?_, fun n hn => ?_⟩, rfl,
      fun n hn => ?_⟩ <;>
    rcases smallTree_cases hn with rfl | rfl | rfl | rfl | rfl | rfl | rfl <;>
    decide
  refine ⟨hinv, rfl, by decide, fun n hn => ?_, fun n hn => ?_⟩ <;>
  rcases smallTree_cases hn with rfl | rfl | rfl | rfl | rfl | rfl | rfl <;>
  decide

theorem absolute_path_round_trip_iff_file : smallTree.Chain 6 [0, 3, 6] ∧
    RoundTrips smallTree 6 [0, 3, 6] := by
  have hdir : smallTree.Chain 3 [0, 3] := .child .root (by decide) (by decide)
  have hfile : smallTree.Chain 6 [0, 3, 6] := .child hdir (by decide) (by decide)
  exact ⟨hfile, (absolute_path_round_trip_iff smallTree_pathTree hfile (by decide)).mpr (by decide)⟩

/-- The root and directories `a`, each in the one before. -/
def deepTree (depth : ℕ) : VfsState where
  nodes n :=
    ⟨if n = 0 then [slash] else [0x61#8], 0, none, if n = 0 then none else some (n - 1), none,
      if n < depth then [n + 1] else [], none⟩
  nodeCnt := depth + 1
  assets _ := vfsDefaultAsset sIfdir
  assetCnt := 1

theorem mem_deepTree {depth c : ℕ} (h : c ∈ ((deepTree depth).nodes n).children) :
    c = n + 1 ∧ n < depth := by
  unfold deepTree at h
  dsimp only at h
  split_ifs at h <;> simp_all

theorem deepTree_name (depth n : ℕ) : ((deepTree depth).nodes (n + 1)).name = [0x61#8] := rfl

theorem deepTree_pathTree (depth : ℕ) : PathTree (deepTree depth) := by
  have hinside : ∀ n < depth + 1, ∀ c ∈ ((deepTree depth).nodes n).children, c < depth + 1 := by
    intro n hn c hc
    have := mem_deepTree hc
    omega
  have hok : VfsOk (deepTree depth) := by
    refine ⟨Nat.succ_pos _, hinside, fun n hn p hp => ?_, fun n hn => rfl, fun n hn => Nat.one_pos⟩
    have hlt : n < depth + 1 := hn
    obtain ⟨-, hp⟩ := ite_none_left_eq_some.mp hp
    have hp := some.inj hp
    show p < depth + 1
    omega
  have hwf : (deepTree depth).tree.WF := by
    refine ⟨hinside, fun n hn c hc => ?_, fun n hn => ?_⟩
    · obtain ⟨rfl, -⟩ := mem_deepTree hc
      rfl
    · show (((deepTree depth).nodes n).children.map _).Nodup
      unfold deepTree
      dsimp only
      split_ifs
      · exact nodup_singleton _
      · exact nodup_nil
  have hdir : sIsdir sIfdir = true := by decide
  have hlink : sIslnk sIfdir = false := by decide
  refine ⟨⟨hok, hwf, rfl, fun _ _ => hlink⟩, rfl, hdir, fun _ _ _ => hdir, fun n hn c hc => .inr ?_⟩
  obtain ⟨rfl, -⟩ := mem_deepTree hc
  rw [deepTree_name]
  decide

theorem deepTree_chain {depth k : ℕ} (hk : k ≤ depth) :
    (deepTree depth).Chain k (range (k + 1)) := by
  induction k with
  | zero => exact .root
  | succ k ih =>
    rw [range_succ]
    refine .child (ih (by omega)) ?_ (by rw [deepTree_name]; decide)
    simp [deepTree, Nat.lt_of_succ_le hk]

theorem length_deepPath {depth k : ℕ} :
    (absolutePath (deepTree depth) (range (k + 1))).length = 2 * k + 1 := by
  have hprinted : ∀ n, ((deepTree depth).printed n).length = 2 := by
    intro n
    have hdir : sIsdir ((deepTree depth).mode n) = true := by
      rw [show (deepTree depth).mode n = sIfdir from rfl]
      decide
    rw [VfsState.printed, if_pos hdir]
    cases n <;> rfl
  rw [absolutePath, length_tail, length_flatMap]
  simp [hprinted]
  omega

/-- **A directory 1024 levels deep** is not found: the vector of the nodes is full. -/
theorem deep_path_lost : PathTree (deepTree 1024) ∧ (deepTree 1024).Chain 1024 (range 1025) ∧
    (absolutePath (deepTree 1024) (range 1025)).length = 2049 ∧
    ¬ RoundTrips (deepTree 1024) 1024 (range 1025) := by
  have hchain : (deepTree 1024).Chain 1024 (range 1025) := deepTree_chain (le_refl _)
  have hlen : (absolutePath (deepTree 1024) (range 1025)).length = 2049 := length_deepPath
  refine ⟨deepTree_pathTree _, hchain, hlen, fun htrip => ?_⟩
  have hshort := htrip.short (deepTree_pathTree _) hchain (by rw [hlen]; decide)
  rw [length_range] at hshort
  omega

end Paths

end Pastoral
