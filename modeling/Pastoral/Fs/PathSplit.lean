import Pastoral.Fs.Vfs
import Pastoral.Lib.Vector
import Pastoral.Theory.ByteMemory

/-!
# The components of a path

`vfs_search_absolute`, `vfs_create_node_deep`, `vfs_parent_dir` and `user_lookup_at` split the copy
of a path in place: each slash is overwritten with a zero, behind the start of a component that has
been recorded.

## Main definitions

* `splitCopy`: the copy and the loops; none is an access through NULL
* `SplitsPath`: the loops leave the starts of the components, and write in the copy only

## Main results

* `path_split_iff`: this is so for paths below 16384 bytes with at most 1024 components
-/

open ByteMemory Function List Option

namespace Pastoral

/-! ## The loops -/

def skipSlashes : ℕ → (ℕ → BitVec 8) → ℕ → Option ((ℕ → BitVec 8) × ℕ)
  | 0, _, _ => none
  | fuel + 1, m, str =>
    if m str = slash then skipSlashes fuel (update m str 0#8) (str + 1) else some (m, str)

def skipName : ℕ → (ℕ → BitVec 8) → ℕ → Option ℕ
  | 0, _, _ => none
  | fuel + 1, m, str =>
    if m str ≠ 0#8 ∧ m str ≠ slash then skipName fuel m (str + 1) else some str

def splitNames : ℕ → (ℕ → BitVec 8) → ℕ → List ℕ → Option ((ℕ → BitVec 8) × List ℕ)
  | 0, _, _, _ => none
  | fuel + 1, m, str, subpaths =>
    if m str ≠ 0#8 then
      (skipName fuel m str).bind fun stop =>
        (skipSlashes fuel m stop).bind fun r =>
          (vectorPush 8 subpaths str).bind (splitNames fuel r.1 r.2)
    else some (m, subpaths)

def splitPath (fuel : ℕ) (m : ℕ → BitVec 8) (str : ℕ) : Option ((ℕ → BitVec 8) × List ℕ) :=
  (skipSlashes fuel m str).bind fun r => splitNames fuel r.1 r.2 []

/-- The object for the copy, at `str`, is one byte larger than asked for: the zero fits. -/
def splitCopy (fuel : ℕ) (m : ℕ → BitVec 8) (str : ℕ) (path : Name) :
    Option ((ℕ → BitVec 8) × List ℕ) :=
  (allocSize path.length).bind fun size =>
    if path.length < size then splitPath fuel (store m str (path ++ [0#8])) str else none

/-- The string at an address. -/
def CString (m : ℕ → BitVec 8) : ℕ → Name → Prop
  | p, [] => m p = 0#8
  | p, c :: l => (m p = c ∧ c ≠ 0#8) ∧ CString m (p + 1) l

def pathParts (path : Name) : List Name := (path.splitOn slash).filter (· ≠ [])

/-- **The path is split**: the loops end, they write inside the copy only, and the pointers that they
record are strings, the components of the path in order. -/
def SplitsPath (m : ℕ → BitVec 8) (str : ℕ) (path : Name) : Prop :=
  ∃ m' starts, (∀ fuel > path.length + 1, splitCopy fuel m str path = some (m', starts)) ∧
    (∀ a, m' a ≠ store m str (path ++ [0#8]) a → str ≤ a ∧ a < str + path.length) ∧
    Forall₂ (CString m') starts (pathParts path)

/-! ## Parts -/

section Parts

variable {name l : Name}

theorem pathParts_name (h : slash ∉ name) : pathParts name = [name].filter (· ≠ []) := by
  rw [pathParts, splitOn_eq_singleton h]

theorem pathParts_append (h : slash ∉ name) :
    pathParts (name ++ slash :: l) = [name].filter (· ≠ []) ++ pathParts l := by
  rw [pathParts, splitOn_append_cons_self_of_not_mem h, ← singleton_append,
    filter_append, pathParts]

theorem pathParts_slashes (k : ℕ) : pathParts (replicate k slash ++ l) = pathParts l := by
  induction k with
  | zero => rfl
  | succ k ih => exact (pathParts_append not_mem_nil).trans ih

theorem pathParts_cons {k : ℕ} (h : slash ∉ name) (hne : name ≠ []) (hk : k = 0 → l = []) :
    pathParts (name ++ (replicate k slash ++ l)) = name :: pathParts l := by
  have hfilter : [name].filter (· ≠ []) = [name] := by simp [hne]
  cases k with
  | zero =>
    rw [hk rfl, replicate_zero, append_nil, append_nil, pathParts_name h, hfilter]
    rfl
  | succ k =>
    rw [replicate_succ, cons_append, pathParts_append h, pathParts_slashes, hfilter]
    rfl

theorem scanPath_eq (h : slash ∉ name) : scanPath name l = pathParts (name ++ l) := by
  induction l generalizing name with
  | nil =>
    rw [scanPath, append_nil, pathParts_name h]
    split_ifs with hnil <;> simp [hnil]
  | cons c l ih =>
    rw [scanPath]
    split_ifs with hc hnil
    · rw [hc, hnil, ih not_mem_nil]
      rfl
    · rw [hc, pathParts_append h, ih not_mem_nil]
      simp [hnil]
    · rw [ih, append_assoc, singleton_append]
      simp [h, Ne.symm hc]

theorem exists_slashes (l : Name) :
    ∃ k rest, l = replicate k slash ++ rest ∧ rest.head? ≠ some slash := by
  induction l with
  | nil => exact ⟨0, [], rfl, by simp⟩
  | cons c l ih =>
    obtain ⟨k, rest, rfl, hrest⟩ := ih
    by_cases hc : c = slash
    · exact ⟨k + 1, rest, by rw [hc]; rfl, hrest⟩
    · exact ⟨0, _, rfl, by simpa using hc⟩

theorem exists_name (l : Name) :
    ∃ name rest, l = name ++ rest ∧ slash ∉ name ∧ ∀ c ∈ rest.head?, c = slash := by
  induction l with
  | nil => exact ⟨[], [], rfl, not_mem_nil, by simp⟩
  | cons c l ih =>
    by_cases hc : c = slash
    · exact ⟨[], c :: l, rfl, not_mem_nil, by simpa using hc⟩
    · obtain ⟨name, rest, rfl, hname, hrest⟩ := ih
      exact ⟨c :: name, rest, rfl, by simp [hname, Ne.symm hc], hrest⟩

end Parts

/-! ## Strings and loops -/

section Loops

variable {m m' : ℕ → BitVec 8} {p fuel : ℕ} {name rest path : Name}

theorem CString.drop (h : CString m p (name ++ rest)) : CString m (p + name.length) rest := by
  induction name generalizing p with
  | nil => exact h
  | cons c name ih =>
    rw [length_cons, Nat.add_comm name.length, ← Nat.add_assoc]
    exact ih h.2

theorem CString.cut (h : CString m p (name ++ rest))
    (hsame : ∀ a, p ≤ a → a < p + name.length → m' a = m a) (hend : m' (p + name.length) = 0#8) :
    CString m' p name := by
  induction name generalizing p with
  | nil => exact hend
  | cons c name ih =>
    rw [length_cons] at hsame hend
    refine ⟨⟨(hsame p (le_refl p) (by omega)).trans h.1.1, h.1.2⟩, ih h.2 (fun a hle hlt => ?_) ?_⟩
    · exact hsame a (by omega) (by omega)
    · rw [← hend]
      congr 1
      omega

theorem CString.congr (h : CString m p name)
    (hsame : ∀ a, p ≤ a → a ≤ p + name.length → m' a = m a) : CString m' p name := by
  rw [← append_nil name] at h
  refine h.cut (fun a hle hlt => hsame a hle hlt.le) ?_
  rw [hsame _ (Nat.le_add_right p _) (le_refl _)]
  exact h.drop

theorem CString.ne_slash (h : CString m p rest) (hhead : rest.head? ≠ some slash) : m p ≠ slash := by
  cases rest with
  | nil =>
    have hzero := h
    rw [hzero]
    decide
  | cons c rest =>
    rw [h.1.1]
    exact fun heq => hhead (congrArg some heq)

theorem skipSlashes_eq {k : ℕ} (h : CString m p (replicate k slash ++ rest))
    (hhead : rest.head? ≠ some slash) (hfuel : k < fuel) :
    skipSlashes fuel m p = some (store m p (replicate k 0#8), p + k) := by
  induction k generalizing m p fuel with
  | zero =>
    obtain ⟨fuel, rfl⟩ : ∃ f, fuel = f + 1 := ⟨fuel - 1, by omega⟩
    rw [skipSlashes, if_neg (h.ne_slash hhead), replicate_zero, store_empty, Nat.add_zero]
  | succ k ih =>
    obtain ⟨fuel, rfl⟩ : ∃ f, fuel = f + 1 := ⟨fuel - 1, by omega⟩
    have hnext : CString (update m p 0#8) (p + 1) (replicate k slash ++ rest) :=
      CString.congr h.2 fun a hle _ => update_of_ne (by omega) _ _
    rw [skipSlashes, if_pos h.1.1, ih hnext (by omega), replicate_succ, store_cons,
      Nat.add_assoc, Nat.add_comm 1 k]

theorem skipName_eq (h : CString m p (name ++ rest)) (hname : slash ∉ name)
    (hhead : ∀ c ∈ rest.head?, c = slash) (hfuel : name.length < fuel) :
    skipName fuel m p = some (p + name.length) := by
  induction name generalizing p fuel with
  | nil =>
    obtain ⟨fuel, rfl⟩ : ∃ f, fuel = f + 1 := ⟨fuel - 1, by omega⟩
    rw [skipName, if_neg, length_nil, Nat.add_zero]
    rintro ⟨hzero, hslash⟩
    cases rest with
    | nil => exact hzero h
    | cons c rest => exact hslash (h.1.1.trans (hhead c rfl))
  | cons c name ih =>
    obtain ⟨fuel, rfl⟩ : ∃ f, fuel = f + 1 := ⟨fuel - 1, by omega⟩
    rw [mem_cons, not_or] at hname
    rw [length_cons] at hfuel
    have hstep : m p ≠ 0#8 ∧ m p ≠ slash := by
      rw [h.1.1]
      exact ⟨h.1.2, Ne.symm hname.1⟩
    rw [skipName, if_pos hstep, ih h.2 hname.2 (by omega), length_cons, Nat.add_assoc,
      Nat.add_comm 1]

theorem inside_of_later {start k n a : ℕ}
    (hlater : ∀ a, m' a ≠ store m start (replicate k 0#8) a →
      start + k ≤ a ∧ a < start + k + n) (hne : m' a ≠ m a) : start ≤ a ∧ a < start + (k + n) := by
  by_contra hout
  have hstore : store m start (replicate k 0#8) a = m a :=
    store_outside (by rw [length_replicate]; omega)
  have hin := hlater a (by rwa [hstore])
  omega

theorem CString.part {k : ℕ} (h : CString m p (name ++ (replicate k slash ++ rest)))
    (hk : k = 0 → rest = [])
    (hlater : ∀ a, m' a ≠ store m (p + name.length) (replicate k 0#8) a →
      p + name.length + k ≤ a ∧ a < p + name.length + k + rest.length) : CString m' p name := by
  refine h.cut (fun a _ hlt => ?_) ?_
  · by_contra hne
    have hin := inside_of_later hlater hne
    omega
  · have hsame : m' (p + name.length) =
        store m (p + name.length) (replicate k 0#8) (p + name.length) := by
      by_contra hne
      have hin := hlater _ hne
      rw [hk (by omega), length_nil] at hin
      omega
    rw [hsame]
    cases k with
    | zero =>
      rw [hk rfl] at h
      rw [replicate_zero, store_empty]
      exact h.drop
    | succ k => simp [store]

theorem vectorPush_pointer (subpaths : List ℕ) (str : ℕ) : vectorPush 8 subpaths str =
    if subpaths.length < 1024 then some (subpaths ++ [str]) else none :=
  vectorPush_eq (k := 10) (by decide) (by decide) ..

theorem splitNames_spec (l : Name) (subpaths : List ℕ) (h : CString m p l)
    (hhead : l.head? ≠ some slash) : ∃ m' starts, (∀ fuel > l.length + 1,
      splitNames fuel m p subpaths = if subpaths.length + (pathParts l).length ≤
        max 1024 subpaths.length then some (m', subpaths ++ starts) else none) ∧
      (∀ a, m' a ≠ m a → p ≤ a ∧ a < p + l.length) ∧
      Forall₂ (CString m') starts (pathParts l) := by
  induction hn : l.length using Nat.strong_induction_on generalizing m p l subpaths with
  | _ n ih =>
    subst hn
    obtain ⟨name, tail, rfl, hname, htail⟩ := exists_name l
    obtain ⟨k, rest, rfl, hrest⟩ := exists_slashes tail
    have hk : k = 0 → rest = [] := by
      rintro rfl
      cases rest with
      | nil => rfl
      | cons c rest => exact absurd (congrArg some (htail c rfl)) hrest
    have hlen : (name ++ (replicate k slash ++ rest)).length =
        name.length + (k + rest.length) := by
      rw [length_append, length_append, length_replicate]
    rw [hlen]
    by_cases hne : name = []
    · subst hne
      obtain rfl : k = 0 := by
        cases k with
        | zero => rfl
        | succ k => exact absurd rfl hhead
      obtain rfl := hk rfl
      have hzero : m p = 0#8 := h
      refine ⟨m, [], fun fuel hfuel => ?_, fun a ha => absurd rfl ha, Forall₂.nil⟩
      obtain ⟨fuel, rfl⟩ := Nat.exists_eq_add_one_of_ne_zero (ne_of_gt (Nat.zero_lt_of_lt hfuel))
      have hroom : subpaths.length + (pathParts []).length ≤ max 1024 subpaths.length :=
        Nat.le_max_right 1024 _
      rw [splitNames, if_neg (not_not.mpr hzero), append_nil subpaths]
      exact (if_pos hroom).symm
    · have hpos := length_pos_iff.mpr hne
      have hstart : m p ≠ 0#8 := by
        obtain ⟨c, name, rfl⟩ := exists_cons_of_ne_nil hne
        exact h.1.1 ▸ h.1.2
      have hnext : CString (store m (p + name.length) (replicate k 0#8)) (p + name.length + k)
          rest := by
        have hstring := h.drop.drop
        rw [length_replicate] at hstring
        exact hstring.congr fun a hle _ => store_outside (.inr (by rwa [length_replicate]))
      obtain ⟨m', starts, hsplit, hlater, hparts⟩ :=
        ih rest.length (by omega) rest (subpaths ++ [p]) hnext hrest rfl
      rw [pathParts_cons hname hne hk]
      refine ⟨m', p :: starts, fun fuel hfuel => ?_, fun a hne => ?_,
        Forall₂.cons (h.part hk hlater) hparts⟩
      · obtain ⟨fuel, rfl⟩ := Nat.exists_eq_add_one_of_ne_zero (ne_of_gt (Nat.zero_lt_of_lt hfuel))
        rw [splitNames, if_pos hstart, skipName_eq h hname htail (by omega), bind_some,
          skipSlashes_eq h.drop hrest (by omega), bind_some, vectorPush_pointer, length_cons]
        by_cases hroom : subpaths.length < 1024
        · rw [if_pos hroom, bind_some, hsplit fuel (by omega), append_assoc, singleton_append,
            length_append, length_singleton]
          exact if_congr (by omega) rfl rfl
        · rw [if_neg hroom, if_neg (by omega)]
          rfl
      · have hin := inside_of_later hlater hne
        omega

theorem cString_store (h : 0#8 ∉ path) (m : ℕ → BitVec 8) (p : ℕ) :
    CString (store m p (path ++ [0#8])) p path := by
  induction path generalizing m p with
  | nil => simp [CString, store]
  | cons c path ih =>
    rw [mem_cons, not_or] at h
    rw [cons_append, store_cons]
    refine ⟨⟨?_, Ne.symm h.1⟩, ih h.2 _ _⟩
    rw [store_outside (.inl (Nat.lt_succ_self p)), update_self]

theorem splitPath_spec (h : CString m p path) : ∃ m' starts, (∀ fuel > path.length + 1,
      splitPath fuel m p = if (pathParts path).length ≤ 1024 then some (m', starts) else none) ∧
      (∀ a, m' a ≠ m a → p ≤ a ∧ a < p + path.length) ∧
      Forall₂ (CString m') starts (pathParts path) := by
  obtain ⟨k, rest, rfl, hrest⟩ := exists_slashes path
  rw [length_append, length_replicate, pathParts_slashes]
  have hnext : CString (store m p (replicate k 0#8)) (p + k) rest := by
    have hstring := h.drop
    rw [length_replicate] at hstring
    exact hstring.congr fun a hle _ => store_outside (.inr (by rwa [length_replicate]))
  obtain ⟨m', starts, hsplit, hlater, hparts⟩ := splitNames_spec rest [] hnext hrest
  refine ⟨m', starts, fun fuel hfuel => ?_, fun a hne => inside_of_later hlater hne, hparts⟩
  rw [splitPath, skipSlashes_eq h hrest (by omega), bind_some, hsplit fuel (by omega)]
  simp

theorem allocSize_isSome_iff {size : ℕ} (hpos : size ≠ 0) (hlt : size < 2 ^ 63) :
    (allocSize size).isSome ↔ size < 16384 := by
  constructor
  · intro h
    by_contra hge
    rw [allocSize_large (by omega) (by omega), if_pos (.inl hlt)] at h
    exact absurd h (by simp)
  · intro hsmall
    obtain ⟨c, hc, -⟩ := allocSize_spec (pos_of_ne_zero hpos) hsmall
    exact isSome_of_eq_some hc

theorem splitCopy_eq (hne : path ≠ []) (hlen : path.length < 2 ^ 63) (m : ℕ → BitVec 8) :
    splitCopy fuel m p path =
      if path.length < 16384 then splitPath fuel (store m p (path ++ [0#8])) p else none := by
  have hsome := allocSize_isSome_iff (by simpa using hne) hlen
  unfold splitCopy
  split_ifs with hsmall
  · obtain ⟨c, hc, hlt⟩ := allocSize_spec (length_pos_iff.mpr hne) hsmall
    rw [hc, bind_some, if_pos hlt]
  · rw [← hsome, not_isSome_iff_eq_none] at hsmall
    rw [hsmall]
    rfl

theorem SplitsPath.few (hne : path ≠ []) (hzero : 0#8 ∉ path) (hlen : path.length < 2 ^ 63)
    (h : SplitsPath m p path) : path.length < 16384 ∧ (pathParts path).length ≤ 1024 := by
  obtain ⟨m', starts, hsplit, -⟩ := splitPath_spec (cString_store hzero m p)
  obtain ⟨m'', starts', hcopy, -⟩ := h
  have hcopy := hcopy _ (Nat.lt_succ_self _)
  rw [splitCopy_eq hne hlen, hsplit _ (Nat.lt_succ_self _)] at hcopy
  split_ifs at hcopy with hsmall hfew
  exact ⟨hsmall, hfew⟩

end Loops

/-- **Paths are split** into their components if and only if they are shorter than 16384 bytes and
have at most 1024 of them. The scan of the other modules finds the same components. -/
theorem path_split_iff (m : ℕ → BitVec 8) (str : ℕ) (path : Name) (hne : path ≠ [])
    (hzero : 0#8 ∉ path) (hlen : path.length < 2 ^ 63) :
    (SplitsPath m str path ↔ path.length < 16384 ∧ (pathParts path).length ≤ 1024) ∧
      subpathList path = pathParts path := by
  refine ⟨⟨SplitsPath.few hne hzero hlen, ?_⟩, scanPath_eq not_mem_nil⟩
  rintro ⟨hsmall, hfew⟩
  obtain ⟨m', starts, hsplit, hinside, hparts⟩ := splitPath_spec (cString_store hzero m str)
  refine ⟨m', starts, fun fuel hfuel => ?_, hinside, hparts⟩
  rw [splitCopy_eq hne hlen, if_pos hsmall, hsplit fuel hfuel, if_pos hfew]

/-- **A path** of two components. -/
theorem path_split_iff_two : SplitsPath (fun _ => 0#8) 0 [slash, 0x61#8, slash, slash, 0x62#8] :=
  (path_split_iff _ _ _ (by decide) (by decide) (by decide)).1.mpr ⟨by decide, by decide⟩

/-- `n` times `a/`. -/
def repeatedPath (n : ℕ) : Name := (replicate n [0x61#8, slash]).flatten

theorem pathParts_repeatedPath (n : ℕ) : pathParts (repeatedPath n) = replicate n [0x61#8] := by
  induction n with
  | zero => rfl
  | succ n ih =>
    rw [replicate_succ, ← ih]
    exact @pathParts_append [0x61#8] _ (by decide)

theorem length_repeatedPath (n : ℕ) : (repeatedPath n).length = 2 * n := by
  simp [repeatedPath, Nat.mul_comm]

theorem zero_notMem_repeatedPath (n : ℕ) : 0#8 ∉ repeatedPath n := by
  simp [repeatedPath, slash]

/-- **A path of 1025 components** is not split: the vector of the components is full. -/
theorem path_not_split : (repeatedPath 1025).length = 2050 ∧
    ∀ m str, ¬ SplitsPath m str (repeatedPath 1025) := by
  have hlen := length_repeatedPath 1025
  refine ⟨hlen, fun m str h => ?_⟩
  have hne : repeatedPath 1025 ≠ [] := ne_nil_of_length_pos (by omega)
  have hfew := (h.few hne (zero_notMem_repeatedPath _) (by omega)).2
  rw [pathParts_repeatedPath, length_replicate] at hfew
  omega

end Pastoral
