import Mathlib.Data.List.Infix

/-!
# Radix trees in a flat memory

A radix tree of bounded depth lives in a memory of tables: an entry of a table may lead to another
table, and a path of indices is walked from a root.

## Main definitions

* `ensure`: a walk that links tables from a list of free ones, each cleared first
* `Tree`: different paths reach different tables, and none of them is free
* `Grows`: the tree has grown along one path only

## Main results

* `ensure_spec`: `ensure` keeps the invariant and grows the tree along the path
* `leaf_store`: a write to a table of the last level changes one entry
-/

open List Option

namespace Radix

variable {T I E : Type*}

structure Store (T I E : Type*) where
  mem : T → I → E
  free : List T

section Walk

variable (next : E → Option T) (mem : T → I → E)

/-- The table reached from `t` along the indices. -/
def walk : T → List I → Option T
  | t, [] => some t
  | t, i :: π => (next (mem t i)).bind fun u => walk u π

@[simp]
theorem walk_nil (t : T) : walk next mem t [] = some t := rfl

theorem walk_cons (t : T) (i : I) (π : List I) :
    walk next mem t (i :: π) = (next (mem t i)).bind fun u => walk next mem u π := rfl

theorem walk_append (t : T) (π ρ : List I) :
    walk next mem t (π ++ ρ) = (walk next mem t π).bind fun u => walk next mem u ρ := by
  induction π generalizing t with
  | nil => rfl
  | cons i π ih =>
    rw [cons_append, walk_cons, walk_cons, bind_assoc]
    exact bind_congr fun u _ => ih u

theorem walk_snoc (t : T) (π : List I) (i : I) :
    walk next mem t (π ++ [i]) = (walk next mem t π).bind fun u => next (mem u i) := by
  rw [walk_append]
  refine bind_congr fun u _ => ?_
  exact bind_fun_some _

variable {next mem}

theorem exists_walk_of_prefix {t u : T} {π ρ : List I} (h : walk next mem t π = some u)
    (hρ : ρ <+: π) : ∃ v, walk next mem t ρ = some v := by
  obtain ⟨σ, rfl⟩ := hρ
  rw [walk_append] at h
  obtain ⟨v, hv, -⟩ := bind_eq_some_iff.mp h
  exact ⟨v, hv⟩

end Walk

/-! ## Trees -/

section Trees

variable (next : E → Option T) (z : E) (mk : T → E)

/-- **The tree invariant** to a depth: different paths lead to different tables, none of them
free. -/
structure Tree (s : Store T I E) (root : T) (depth : ℕ) : Prop where
  separated : ∀ {π ρ : List I} {t : T}, π.length ≤ depth → ρ.length ≤ depth →
    walk next s.mem root π = some t → walk next s.mem root ρ = some t → π = ρ
  notFree : ∀ {π : List I} {t : T}, π.length ≤ depth → walk next s.mem root π = some t →
    t ∉ s.free
  nodup : s.free.Nodup

/-- **The tree has grown along one path only**: the tables there were are still reached, and their
entries are the same but for links on the path; the new tables lie on the path and are empty but
for such links. -/
structure Grows (s s' : Store T I E) (root : T) (depth : ℕ) (path : List I) : Prop where
  keeps : ∀ {ρ : List I} {u : T}, ρ.length ≤ depth → walk next s.mem root ρ = some u →
    walk next s'.mem root ρ = some u
  fresh : ∀ {ρ : List I} {u : T}, ρ.length ≤ depth → walk next s.mem root ρ = none →
    walk next s'.mem root ρ = some u → ρ <+: path
  entry : ∀ {ρ : List I} {u : T} (j : I), ρ.length ≤ depth → walk next s'.mem root ρ = some u →
    walk next s.mem root ρ = some u ∧ s'.mem u j = s.mem u j ∨
      walk next s.mem root ρ = none ∧ s'.mem u j = z ∨
      ρ ++ [j] <+: path ∧ walk next s.mem root (ρ ++ [j]) = none ∧ ∃ t ∈ s.free, s'.mem u j = mk t
  free : s'.free <:+ s.free

def leaf (s : Store T I E) (root : T) (π : List I) (i : I) : Option E :=
  (walk next s.mem root π).map fun t => s.mem t i

/-- Every entry that is followed on the path satisfies `P`. -/
def Along (P : E → Prop) (s : Store T I E) (root : T) (π : List I) : Prop :=
  ∀ ρ i u, ρ ++ [i] <+: π → walk next s.mem root ρ = some u → next (s.mem u i) ≠ none →
    P (s.mem u i)

/-- Every entry above the last level satisfies `P`. -/
def Inner (P : E → Prop) (s : Store T I E) (root : T) (depth : ℕ) : Prop :=
  ∀ ρ u i, ρ.length < depth → walk next s.mem root ρ = some u → P (s.mem u i)

variable {next z mk}
variable {s s' s'' : Store T I E} {root : T} {ρ path : List I} {depth : ℕ}

theorem Grows.refl (s : Store T I E) (root : T) (depth : ℕ) (path : List I) :
    Grows next z mk s s root depth path where
  keeps _ h := h
  fresh _ h h' := by rw [h] at h'; cases h'
  entry _ _ h := Or.inl ⟨h, rfl⟩
  free := suffix_rfl

theorem Grows.absent (h : Grows next z mk s s' root depth path) (hρ : ρ.length ≤ depth)
    (hnone : walk next s'.mem root ρ = none) : walk next s.mem root ρ = none := by
  cases hw : walk next s.mem root ρ with
  | none => rfl
  | some u =>
    rw [h.keeps hρ hw] at hnone
    cases hnone

theorem Grows.trans (hpath : path.length ≤ depth) (h : Grows next z mk s s' root depth path)
    (h' : Grows next z mk s' s'' root depth path) : Grows next z mk s s'' root depth path where
  keeps hρ hw := h'.keeps hρ (h.keeps hρ hw)
  fresh {ρ u} hρ hnone hw := by
    cases hmid : walk next s'.mem root ρ with
    | none => exact h'.fresh hρ hmid hw
    | some v => exact h.fresh hρ hnone hmid
  entry {ρ u} j hρ hw := by
    rcases h'.entry j hρ hw with ⟨hmid, hsame⟩ | ⟨hmid, hempty⟩ | ⟨hpre, hmid, t, ht, hlink⟩
    · rw [hsame]
      exact h.entry j hρ hmid
    · exact .inr (.inl ⟨h.absent hρ hmid, hempty⟩)
    · have hlen := hpre.length_le.trans hpath
      exact .inr (.inr ⟨hpre, h.absent hlen hmid, t, h.free.subset ht, hlink⟩)
  free := h'.free.trans h.free

variable {P : E → Prop}

theorem Inner.along {π : List I}
    (h : Inner next (fun e => next e ≠ none → P e) s root depth) (hπ : π.length ≤ depth) :
    Along next P s root π := by
  intro ρ i u hpre hwalk hnext
  refine h ρ u i ?_ hwalk hnext
  have hlen := hpre.length_le
  rw [length_append, length_singleton] at hlen
  omega

/-- **Growing at the last level**: nothing changes but that an empty table may appear at the end
of the path. -/
theorem Grows.leaf (h : Grows next z mk s s' root depth path) (hpath : path.length ≤ depth)
    (hρ : ρ.length = depth) (j : I) :
    leaf next s' root ρ j = leaf next s root ρ j ∨
      ρ = path ∧ leaf next s root ρ j = none ∧ leaf next s' root ρ j = some z := by
  unfold Radix.leaf
  cases hw : walk next s'.mem root ρ with
  | none =>
    rw [h.absent hρ.le hw]
    exact .inl rfl
  | some u =>
    rcases h.entry j hρ.le hw with ⟨hold, hsame⟩ | ⟨hold, hempty⟩ | ⟨hpre, -⟩
    · rw [hold]
      exact .inl (congrArg some hsame)
    · rw [hold]
      have hpre := h.fresh hρ.le hold hw
      exact .inr ⟨hpre.eq_of_length_le (by omega), rfl, congrArg some hempty⟩
    · -- a link on the path would have to lie above the last level
      have := hpre.length_le
      rw [length_append, length_singleton] at this
      omega

theorem Grows.along_iff {π : List I} (h : Grows next z mk s s' root depth path)
    (hz : next z = none) (hπ : π.length ≤ depth)
    (hP : (∀ t ∈ s.free, P (mk t)) ∨ walk next s.mem root π ≠ none) :
    Along next P s' root π ↔ Along next P s root π := by
  have hlen : ∀ {ρ : List I} {i : I}, ρ ++ [i] <+: π → ρ.length ≤ depth := by
    intro ρ i hpre
    have := hpre.length_le
    rw [length_append] at this
    omega
  constructor
  · intro hall ρ i u hpre hw hnext
    have hstep : walk next s.mem root (ρ ++ [i]) = next (s.mem u i) := by
      rw [walk_snoc, hw]
      rfl
    rcases h.entry i (hlen hpre) (h.keeps (hlen hpre) hw) with
      ⟨-, hsame⟩ | ⟨hold, -⟩ | ⟨-, hold, -⟩
    · rw [← hsame] at hnext ⊢
      exact hall ρ i u hpre (h.keeps (hlen hpre) hw) hnext
    · rw [hw] at hold
      cases hold
    · exact absurd (hstep.symm.trans hold) hnext
  · intro hall ρ i u hpre hw hnext
    rcases h.entry i (hlen hpre) hw with ⟨hold, hsame⟩ | ⟨-, hempty⟩ | ⟨-, hold, t, ht, hlink⟩
    · rw [hsame] at hnext ⊢
      exact hall ρ i u hpre hold hnext
    · rw [hempty] at hnext
      exact absurd hz hnext
    · rcases hP with hP | hP
      · rw [hlink]
        exact hP t ht
      · obtain ⟨v, hv⟩ := ne_none_iff_exists'.mp hP
        obtain ⟨v', hv'⟩ := exists_walk_of_prefix hv hpre
        rw [hold] at hv'
        cases hv'

theorem Grows.inner (h : Grows next z mk s s' root depth path)
    (hinner : Inner next P s root depth) (hz : P z) (hmk : ∀ t ∈ s.free, P (mk t)) :
    Inner next P s' root depth := by
  intro ρ u i hρ hw
  rcases h.entry i hρ.le hw with ⟨hold, hsame⟩ | ⟨-, hempty⟩ | ⟨-, -, t, ht, hlink⟩
  · rw [hsame]
    exact hinner ρ u i hρ hold
  · rw [hempty]
    exact hz
  · rw [hlink]
    exact hmk t ht

end Trees

/-! ## Writing and linking -/

variable [DecidableEq T]

def wipe (mem : T → I → E) (t : T) (e : E) : T → I → E :=
  fun u j => if u = t then e else mem u j

theorem wipe_same (mem : T → I → E) (t : T) (e : E) (j : I) : wipe mem t e t j = e := if_pos rfl

theorem wipe_of_ne {mem : T → I → E} {t u : T} {e : E} {j : I} (h : u ≠ t) :
    wipe mem t e u j = mem u j := if_neg h

variable [DecidableEq I]

def put (mem : T → I → E) (t : T) (i : I) (e : E) : T → I → E :=
  fun u j => if u = t ∧ j = i then e else mem u j

@[simp]
theorem put_same (mem : T → I → E) (t : T) (i : I) (e : E) : put mem t i e t i = e :=
  if_pos ⟨rfl, rfl⟩

theorem put_of_ne {mem : T → I → E} {t u : T} {i j : I} {e : E} (h : ¬ (u = t ∧ j = i)) :
    put mem t i e u j = mem u j := if_neg h

def Store.store (s : Store T I E) (t : T) (i : I) (e : E) : Store T I E := ⟨put s.mem t i e, s.free⟩

variable (next : E → Option T) (z : E) (mk : T → E)

/-- Walk the indices from `t` on and link a cleared free table wherever one is missing. -/
def ensure : List I → T → Store T I E → Option (T × Store T I E)
  | [], t, s => some (t, s)
  | i :: π, t, s =>
    match next (s.mem t i) with
    | some u => ensure π u s
    | none =>
      match s.free with
      | [] => none
      | u :: free => ensure π u ⟨put (wipe s.mem u z) t i (mk u), free⟩

variable {next z mk}

theorem ensure_append (π ρ : List I) (t : T) (s : Store T I E) : ensure next z mk (π ++ ρ) t s =
      (ensure next z mk π t s).bind fun r => ensure next z mk ρ r.1 r.2 := by
  induction π generalizing t s with
  | nil => rfl
  | cons i π ih =>
    rw [cons_append, ensure, ensure]
    split
    · exact ih ..
    · split
      · rfl
      · exact ih ..

theorem ensure_free {π : List I} {t u : T} {s s' : Store T I E}
    (h : ensure next z mk π t s = some (u, s')) : s'.free <:+ s.free := by
  induction π generalizing t s with
  | nil =>
    obtain ⟨-, rfl⟩ : t = u ∧ s = s' := by simpa [ensure] using h
    exact suffix_rfl
  | cons i π ih =>
    rw [ensure] at h
    split at h
    · exact ih h
    · split at h
      · cases h
      · next hfree =>
        rw [hfree]
        exact (ih h).trans (suffix_cons ..)

/-! ## Local writes -/

section Writes

variable {mem : T → I → E} {free : List T} {root t u : T} {π : List I} {i : I} {e : E} {depth : ℕ}

section

variable (htree : Tree next ⟨mem, u :: free⟩ root depth)
    (hπ : walk next mem root π = some t) (hdepth : π.length < depth)
    (habsent : next (mem t i) = none) (hz : next z = none) (he : next e = some u)

include htree hπ hdepth habsent hz he

/-- **A new link adds one path.** The table behind it is cleared, so nothing continues it. -/
theorem walk_link (ρ : List I) (hρ : ρ.length ≤ depth) :
    walk next (put (wipe mem u z) t i e) root ρ =
      if ρ = π ++ [i] then some u else walk next mem root ρ := by
  have htu : t ≠ u := fun h => htree.notFree hdepth.le hπ (h ▸ mem_cons_self ..)
  induction ρ using reverseRecOn with
  | nil => simp
  | append_singleton σ j ih =>
    have hσ : σ.length < depth := by
      rw [length_append, length_singleton] at hρ
      omega
    rw [walk_snoc, ih hσ.le, walk_snoc next mem]
    by_cases hnew : σ = π ++ [i]
    · -- behind the new link: the old walk stops at the absent entry, the new one at a cleared one
      have hold : walk next mem root σ = none := by
        rw [hnew, walk_snoc, hπ]
        exact habsent
      have hne : σ ++ [j] ≠ π ++ [i] := by
        intro h
        have := congrArg length h
        simp [hnew] at this
      rw [if_pos hnew, if_neg hne, hold, bind_some, bind_none,
        put_of_ne fun h => htu h.1.symm, wipe_same, hz]
    · rw [if_neg hnew]
      cases hw : walk next mem root σ with
      | none =>
        have hne : σ ++ [j] ≠ π ++ [i] := by
          intro h
          rw [(append_inj' h rfl).1, hπ] at hw
          cases hw
        rw [if_neg hne]
        rfl
      | some v =>
        have hvu : v ≠ u := fun h => htree.notFree hσ.le hw (h ▸ mem_cons_self ..)
        by_cases hlink : v = t ∧ j = i
        · obtain ⟨rfl, rfl⟩ := hlink
          rw [htree.separated hσ.le hdepth.le hw hπ, if_pos rfl, bind_some, put_same, he]
        · have hne : σ ++ [j] ≠ π ++ [i] := by
            intro h
            obtain ⟨hσπ, hji⟩ := append_inj' h rfl
            rw [hσπ, hπ] at hw
            exact hlink ⟨(some.inj hw).symm, by simpa using hji⟩
          rw [if_neg hne, bind_some, bind_some, put_of_ne hlink, wipe_of_ne hvu]

theorem Tree.link : Tree next ⟨put (wipe mem u z) t i e, free⟩ root depth := by
  have hwalk := walk_link htree hπ hdepth habsent hz he
  have hfresh : ∀ ρ : List I, ρ.length ≤ depth → walk next mem root ρ ≠ some u :=
    fun ρ hρ h => htree.notFree hρ h (mem_cons_self ..)
  have hnodup := nodup_cons.mp htree.nodup
  refine ⟨fun {ρ σ v} hρ hσ hv hv' => ?_, fun {ρ v} hρ hv => ?_, hnodup.2⟩
  · simp only [hwalk ρ hρ] at hv
    simp only [hwalk σ hσ] at hv'
    split_ifs at hv hv' with h₁ h₂ h₂
    · rw [h₁, h₂]
    · exact absurd (hv'.trans hv.symm) (hfresh σ hσ)
    · exact absurd (hv.trans hv'.symm) (hfresh ρ hρ)
    · exact htree.separated hρ hσ hv hv'
  · simp only [hwalk ρ hρ] at hv
    split_ifs at hv with h
    · rw [← some.inj hv]
      exact hnodup.1
    · exact fun hmem => htree.notFree hρ hv (mem_cons_of_mem _ hmem)

end

theorem walk_store {s : Store T I E} (htree : Tree next s root depth)
    (hπ : walk next s.mem root π = some t) (hdepth : π.length = depth) (ρ : List I)
    (hρ : ρ.length ≤ depth) :
    walk next (s.store t i e).mem root ρ = walk next s.mem root ρ := by
  induction ρ using reverseRecOn with
  | nil => rfl
  | append_singleton σ j ih =>
    have hσ : σ.length < depth := by
      rw [length_append, length_singleton] at hρ
      omega
    rw [walk_snoc, walk_snoc, ih hσ.le]
    refine bind_congr fun v hv => ?_
    have hvt : v ≠ t := by
      rintro rfl
      rw [htree.separated hσ.le hdepth.le hv hπ] at hσ
      omega
    exact congrArg next (put_of_ne fun h => hvt h.1)

/-- **A write to the last level keeps the tree invariant.** -/
theorem Tree.store {s : Store T I E} (htree : Tree next s root depth)
    (hπ : walk next s.mem root π = some t) (hdepth : π.length = depth) :
    Tree next (s.store t i e) root depth := by
  have hwalk := walk_store (i := i) (e := e) htree hπ hdepth
  refine ⟨fun {ρ σ v} hρ hσ hv hv' => ?_, fun {ρ v} hρ hv => ?_, htree.nodup⟩
  · rw [hwalk ρ hρ] at hv
    rw [hwalk σ hσ] at hv'
    exact htree.separated hρ hσ hv hv'
  · rw [hwalk ρ hρ] at hv
    exact htree.notFree hρ hv

section LastLevel

variable {s : Store T I E} (htree : Tree next s root depth)
  (hπ : walk next s.mem root π = some t) (hdepth : π.length = depth)
include htree hπ hdepth

variable {ρ : List I}

theorem store_above {v : T} (hρ : ρ.length < depth)
    (hv : walk next s.mem root ρ = some v) (j : I) : (s.store t i e).mem v j = s.mem v j := by
  refine put_of_ne fun h => ?_
  rw [htree.separated hρ.le hdepth.le (h.1 ▸ hv) hπ] at hρ
  omega

/-- **A write to the last level** changes one entry of it. -/
theorem leaf_store (hρ : ρ.length = depth) (j : I) :
    leaf next (s.store t i e) root ρ j =
      if ρ = π ∧ j = i then some e else leaf next s root ρ j := by
  unfold leaf
  simp only [walk_store htree hπ hdepth ρ hρ.le]
  by_cases h : ρ = π ∧ j = i
  · obtain ⟨rfl, rfl⟩ := h
    rw [if_pos ⟨rfl, rfl⟩, hπ]
    exact congrArg some (put_same ..)
  · rw [if_neg h]
    refine map_congr fun v hv => put_of_ne fun h' => h ⟨?_, h'.2⟩
    exact htree.separated hρ.le hdepth.le (h'.1 ▸ hv) hπ

theorem inner_store {P : E → Prop} (hinner : Inner next P s root depth) :
    Inner next P (s.store t i e) root depth := by
  intro ρ v j hρ hv
  rw [walk_store htree hπ hdepth ρ hρ.le] at hv
  rw [store_above htree hπ hdepth hρ hv]
  exact hinner ρ v j hρ hv

theorem along_store {P : E → Prop} (hρ : ρ.length ≤ depth) :
    Along next P (s.store t i e) root ρ ↔ Along next P s root ρ := by
  refine forall_congr' fun σ => forall_congr' fun j => forall_congr' fun v => forall_congr' ?_
  intro hpre
  have hσ : σ.length < depth := by
    have := hpre.length_le
    rw [length_append, length_singleton] at this
    omega
  simp only [walk_store htree hπ hdepth σ hσ.le]
  refine forall_congr' fun hv => ?_
  simp only [store_above htree hπ hdepth hσ hv]

end LastLevel

end Writes

/-! ## Growing along a path -/

section Growing

variable {s s' : Store T I E} {root t u : T} {π path : List I} {i : I} {depth : ℕ}

theorem Grows.link {mem : T → I → E} {free : List T}
    (htree : Tree next ⟨mem, u :: free⟩ root depth) (hπ : walk next mem root π = some t)
    (hdepth : π.length < depth) (habsent : next (mem t i) = none) (hz : next z = none)
    (hmk : next (mk u) = some u) (hpath : π ++ [i] <+: path) :
    Grows next z mk ⟨mem, u :: free⟩ ⟨put (wipe mem u z) t i (mk u), free⟩ root depth path := by
  have hwalk := walk_link htree hπ hdepth habsent hz hmk
  have hnone : walk next mem root (π ++ [i]) = none := by
    rw [walk_snoc, hπ]
    exact habsent
  refine ⟨fun {ρ v} hρ hv => ?_, fun {ρ v} hρ hv hv' => ?_, fun {ρ v} j hρ hv => ?_,
    suffix_cons ..⟩
  · simp only [hwalk ρ hρ]
    rw [if_neg fun h => ?_]
    · exact hv
    · rw [h, hnone] at hv
      cases hv
  · simp only [hwalk ρ hρ] at hv'
    split_ifs at hv' with h
    · exact h ▸ hpath
    · rw [hv] at hv'
      cases hv'
  · simp only [hwalk ρ hρ] at hv
    split_ifs at hv with h
    · -- the new table is empty
      cases hv
      have htu : u ≠ t := fun h => htree.notFree hdepth.le hπ (h ▸ mem_cons_self ..)
      refine .inr (.inl ⟨h ▸ hnone, ?_⟩)
      simp only [put_of_ne fun h => htu h.1, wipe_same]
    · have hvu : v ≠ u := fun h => htree.notFree hρ hv (h ▸ mem_cons_self ..)
      by_cases hlink : v = t ∧ j = i
      · obtain ⟨rfl, rfl⟩ := hlink
        obtain rfl := htree.separated hρ hdepth.le hv hπ
        exact .inr (.inr ⟨hpath, hnone, u, mem_cons_self .., put_same ..⟩)
      · refine .inl ⟨hv, ?_⟩
        simp only [put_of_ne hlink, wipe_of_ne hvu]

/-- **What `ensure` does**: it leads to the table at the end of the path, keeps the tree invariant
and grows the tree along the path. -/
theorem ensure_spec (hz : next z = none) {σ : List I} (htree : Tree next s root depth)
    (hmk : ∀ u ∈ s.free, next (mk u) = some u) (hσ : walk next s.mem root σ = some t)
    (hdepth : (σ ++ π).length ≤ depth) (h : ensure next z mk π t s = some (u, s')) :
    Tree next s' root depth ∧ walk next s'.mem root (σ ++ π) = some u ∧
      Grows next z mk s s' root depth (σ ++ π) := by
  induction π generalizing σ t s with
  | nil =>
    obtain ⟨rfl, rfl⟩ : t = u ∧ s = s' := by simpa [ensure] using h
    rw [append_nil]
    exact ⟨htree, hσ, Grows.refl ..⟩
  | cons i π ih =>
    have hpath : σ ++ i :: π = (σ ++ [i]) ++ π := by simp
    have hlt : σ.length < depth := by
      rw [length_append, length_cons] at hdepth
      omega
    rw [hpath] at hdepth ⊢
    rw [ensure] at h
    cases hnext : next (s.mem t i) with
    | some v =>
      -- the table is there
      rw [hnext] at h
      exact ih htree hmk (by rw [walk_snoc, hσ]; exact hnext) hdepth h
    | none =>
      rw [hnext] at h
      obtain ⟨mem, free⟩ := s
      cases free with
      | nil => cases h
      | cons v free =>
        have hv := hmk v (mem_cons_self ..)
        have hgrows : Grows next z mk ⟨mem, v :: free⟩ ⟨put (wipe mem v z) t i (mk v), free⟩ root
            depth ((σ ++ [i]) ++ π) :=
          Grows.link htree hσ hlt hnext hz hv (prefix_append ..)
        have hwalk : walk next (put (wipe mem v z) t i (mk v)) root (σ ++ [i]) = some v := by
          rw [walk_link htree hσ hlt hnext hz hv _ (by
            rw [length_append]
            exact hlt), if_pos rfl]
        obtain ⟨htree', hu, hgrows'⟩ := ih (htree.link hσ hlt hnext hz hv)
          (fun w hw => hmk w (mem_cons_of_mem _ hw)) hwalk hdepth h
        exact ⟨htree', hu, hgrows.trans hdepth hgrows'⟩

end Growing

end Radix
