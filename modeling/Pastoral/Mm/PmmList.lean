import Pastoral.Mm.Pmm

/-!
# The physical page allocator: the list of modules

`pmm_alloc` asks the modules in list order and returns the first success.

## Main results

* `pmmFree_exact_iff`: when a free reaches its owner
-/

open List Option Transition

namespace Pastoral

def pmmAlloc (cnt align : ℕ) : List PmmModule → ℕ × List PmmModule
  | [] => (allocFailed, [])
  | m :: next =>
    let (alloc, m') := pmmModuleAlloc m cnt align
    if alloc = allocFailed then
      let (alloc', next') := pmmAlloc cnt align next
      (alloc', m' :: next')
    else (alloc, m' :: next)

def PmmModule.rangeTest (m : PmmModule) (base cnt : ℕ) : Bool :=
  m.mmapEntry.base ≤ base ∧
    wrap (m.mmapEntry.base + wrap (cnt * pageSize)) ≤
      wrap (m.mmapEntry.base + wrap (m.bitmapEntryCnt * pageSize))

def pmmFree (base cnt : ℕ) : List PmmModule → Option (List PmmModule)
  | [] => some []
  | m :: next =>
    if m.rangeTest base cnt then
      (pmmModuleFree m (base - m.mmapEntry.base) cnt).map (· :: next)
    else (pmmFree base cnt next).map (m :: ·)

/-! ## The two searches -/

section Searches

variable {cnt align : ℕ}

def PmmModule.serves (cnt align : ℕ) (m : PmmModule) : Bool :=
  (pmmModuleAlloc m cnt align).1 ≠ allocFailed

theorem pmmAlloc_cases {ms : List PmmModule} (hfail : ∀ m ∈ ms, m.serves cnt align = false →
      pmmModuleAlloc m cnt align = (allocFailed, m)) :
    pmmAlloc cnt align ms = (allocFailed, ms) ∨
      ∃ m r m', ms[ms.findIdx (PmmModule.serves cnt align)]? = some m ∧
        pmmModuleAlloc m cnt align = (r, m') ∧ r ≠ allocFailed ∧
        pmmAlloc cnt align ms = (r, ms.set (ms.findIdx (PmmModule.serves cnt align)) m') := by
  induction ms with
  | nil => exact .inl rfl
  | cons m next ih =>
    rw [findIdx_cons]
    cases hm : m.serves cnt align with
    | true =>
      have hr : (pmmModuleAlloc m cnt align).1 ≠ allocFailed := by
        simpa [PmmModule.serves] using hm
      refine .inr ⟨m, _, _, rfl, rfl, hr, ?_⟩
      rw [pmmAlloc]
      simp only [if_neg hr]
      rfl
    | false =>
      have hm' := hfail m (mem_cons_self ..) hm
      rcases ih fun n hn => hfail n (mem_cons_of_mem _ hn) with hnext | hnext
      · exact .inl (by simp [pmmAlloc, hm', hnext])
      · obtain ⟨n, r, n', hn, hserve, hr, hnext⟩ := hnext
        exact Or.inr ⟨n, r, n', by simpa using hn, hserve, hr, by simp [pmmAlloc, hm', hnext]⟩

theorem pmmFree_first {ms : List PmmModule} {base k : ℕ} {m : PmmModule} (hk : ms[k]? = some m)
    (htest : m.rangeTest base cnt = true)
    (hbefore : ∀ j < k, ∀ n, ms[j]? = some n → n.rangeTest base cnt = false) :
    pmmFree base cnt ms =
      (pmmModuleFree m (base - m.mmapEntry.base) cnt).map fun m' => ms.set k m' := by
  induction ms generalizing k with
  | nil => simp at hk
  | cons n next ih =>
    rw [pmmFree]
    cases k with
    | zero =>
      obtain rfl : n = m := by simpa using hk
      rw [if_pos htest]
      rfl
    | succ k =>
      have hn := hbefore 0 k.succ_pos n rfl
      rw [if_neg (by simp [hn]), ih (by simpa using hk) fun j hj n' hn' =>
        hbefore (j + 1) (Nat.succ_lt_succ hj) n' (by simpa using hn')]
      cases pmmModuleFree m (base - m.mmapEntry.base) cnt <;> rfl

theorem rangeTest_iff {m : PmmModule} {base : ℕ} (htop : m.page m.bitmapEntryCnt < 2 ^ 64)
    (hend : base + cnt * pageSize < 2 ^ 64) :
    m.rangeTest base cnt = true ↔ m.mmapEntry.base ≤ base ∧ cnt ≤ m.bitmapEntryCnt := by
  unfold PmmModule.page at htop
  have hpages : cnt * pageSize ≤ m.bitmapEntryCnt * pageSize ↔ cnt ≤ m.bitmapEntryCnt :=
    Nat.mul_le_mul_right_iff (by decide)
  rw [PmmModule.rangeTest, decide_eq_true_eq]
  refine and_congr_right fun hbase => ?_
  have hstart := lt_of_le_of_lt (Nat.add_le_add_right hbase _) hend
  rw [wrap_of_lt (lt_of_le_of_lt (Nat.le_add_left _ _) hstart), wrap_of_lt hstart,
    wrap_of_lt (lt_of_le_of_lt (Nat.le_add_left _ _) htop), wrap_of_lt htop,
    add_le_add_iff_left, hpages]

end Searches

/-! ## Runs of the allocator -/

structure Owned where
  owner : ℕ
  block : Allocation
  deriving DecidableEq, Repr

structure PmmState where
  modules : List PmmModule
  live : List Owned
  deriving DecidableEq, Repr

inductive PmmOp
  | alloc (cnt align : ℕ)
  | free (o : Owned)

def liveOf (k : ℕ) (live : List Owned) : List Allocation :=
  live.filterMap fun o => if o.owner = k then some o.block else none

def PmmState.alloc (s : PmmState) (cnt align : ℕ) : PmmState :=
  let (r, modules) := pmmAlloc cnt align s.modules
  ⟨modules,
    if r = allocFailed then s.live
    else ⟨s.modules.findIdx (PmmModule.serves cnt align), ⟨r, cnt⟩⟩ :: s.live⟩

def PmmState.free (s : PmmState) (o : Owned) : Option PmmState :=
  (pmmFree o.block.base o.block.cnt s.modules).map fun modules => ⟨modules, s.live.erase o⟩

/-- One call: `pmm_alloc` with any 64-bit arguments whose alignment in bytes is not zero, which
would be a division by zero, or `pmm_free` of a live allocation. -/
def pmmStep : Option PmmState → PmmOp → Option PmmState → Prop
  | none, _, _ => False
  | some s, .alloc cnt align, s' =>
    cnt < 2 ^ 64 ∧ align < 2 ^ 64 ∧ wrap (align * pageSize) ≠ 0 ∧ s' = some (s.alloc cnt align)
  | some s, .free o, s' => o ∈ s.live ∧ s' = s.free o

def freshPmm (es : List LimineMemmapEntry) : PmmState := ⟨es.map pmmInitModule, []⟩

/-- What a free has to do: clear exactly the bits of its pages in the module that returned them,
write outside no bitmap, and leave the bitmaps of the other modules as they are. -/
def FreeExact (ev : Event (Option PmmState) PmmOp) : Prop :=
  ∀ s o, ev.pre = some s → ev.act = .free o →
    ∃ s', ev.post = some s' ∧ s'.modules.length = s.modules.length ∧
      ∀ (k : ℕ) m, s.modules[k]? = some m → ∃ m', s'.modules[k]? = some m' ∧
        (k = o.owner → ∀ j, BitArray.test m'.bitmap j = true ↔
          BitArray.test m.bitmap j = true ∧ ¬ o.block.Covers (m.page j)) ∧
        (k ≠ o.owner → m'.bitmap = m.bitmap)

/-- When a free does it: every module before the owner starts above the address or has fewer than
`cnt` pages. -/
def FreeFindsOwner (ev : Event (Option PmmState) PmmOp) : Prop :=
  ∀ s o, ev.pre = some s → ev.act = .free o →
    ∀ k < o.owner, ∀ m, s.modules[k]? = some m →
      o.block.base < m.mmapEntry.base ∨ m.bitmapEntryCnt < o.block.cnt

structure PmmInv (s : PmmState) : Prop where
  owned : ∀ o ∈ s.live, o.owner < s.modules.length
  each : ∀ (k : ℕ) m, s.modules[k]? = some m → ModuleInv m (liveOf k s.live)
  top : ∀ m ∈ s.modules, m.page m.bitmapEntryCnt < 2 ^ 64

section Runs

variable {s : PmmState} {o : Owned} {cnt align : ℕ}

theorem mem_liveOf (ho : o ∈ s.live) : o.block ∈ liveOf o.owner s.live :=
  mem_filterMap.mpr ⟨o, ho, if_pos rfl⟩

theorem liveOf_cons (o : Owned) (live : List Owned) (k : ℕ) :
    liveOf k (o :: live) = if o.owner = k then o.block :: liveOf k live else liveOf k live := by
  unfold liveOf
  split_ifs with h <;> simp [h]

theorem liveOf_erase (o : Owned) (live : List Owned) (k : ℕ) : liveOf k (live.erase o) =
      if o.owner = k then (liveOf k live).erase o.block else liveOf k live := by
  induction live with
  | nil => simp [liveOf]
  | cons x live ih =>
    rw [erase_cons]
    by_cases hx : x = o
    · subst hx
      rw [if_pos (by simp), liveOf_cons]
      split_ifs <;> simp
    · have hblock : o.owner = k → x.owner = k → x.block ≠ o.block := by
        rintro ho hk hb
        exact hx (by cases x; cases o; simp_all)
      rw [if_neg (by simpa using hx), liveOf_cons, liveOf_cons, ih]
      by_cases ho : o.owner = k <;> by_cases hk : x.owner = k
      · rw [if_pos ho, if_pos hk, if_pos hk, if_pos ho, erase_cons_tail]
        simpa using hblock ho hk
      all_goals simp [ho, hk]

theorem PmmInv.set (hinv : PmmInv s) {k : ℕ} {m m' : PmmModule} {live : List Owned}
    (hk : s.modules[k]? = some m) (hentry : m'.mmapEntry = m.mmapEntry)
    (hcount : m'.bitmapEntryCnt = m.bitmapEntryCnt)
    (howned : ∀ o ∈ live, o.owner < s.modules.length)
    (hother : ∀ j, j ≠ k → liveOf j live = liveOf j s.live) (hm' : ModuleInv m' (liveOf k live)) :
    PmmInv ⟨s.modules.set k m', live⟩ := by
  refine ⟨by simpa using howned, fun j n hj => ?_, fun n hn => ?_⟩
  · simp only [getElem?_set] at hj
    split_ifs at hj with hjk
    · obtain rfl : m' = n := by simpa using hj
      exact hjk ▸ hm'
    · rw [hother j (Ne.symm hjk)]
      exact hinv.each j n hj
  · rcases mem_or_eq_of_mem_set hn with hn | rfl
    · exact hinv.top n hn
    · have htop := hinv.top m (mem_of_getElem? hk)
      rwa [PmmModule.page, hentry, hcount]

theorem pmmInv_alloc (hinv : PmmInv s) (hcnt : cnt < 2 ^ 64) : PmmInv (s.alloc cnt align) := by
  have hserved := fun k m (hk : s.modules[k]? = some m) =>
    pmmModuleAlloc_inv align (hinv.each k m hk) hcnt
  have hfail : ∀ m ∈ s.modules, m.serves cnt align = false →
      pmmModuleAlloc m cnt align = (allocFailed, m) := by
    intro m hm hserve
    obtain ⟨k, hk⟩ := mem_iff_getElem?.mp hm
    rcases hserved k m hk with hf | ⟨i, m', hok, hr, -⟩
    · exact hf
    · simp [PmmModule.serves, hok, hr] at hserve
  rcases pmmAlloc_cases hfail with halloc | ⟨m, r, m', hk, hm, hr, halloc⟩
  · simpa [PmmState.alloc, halloc] using hinv
  · rcases hserved _ m hk with hf | ⟨i, n, hok, -, -, -, hentry, hcount, -, hinv'⟩
    · exact absurd (congrArg Prod.fst (hm.symm.trans hf)) hr
    · obtain ⟨rfl, rfl⟩ := Prod.mk.inj (hm.symm.trans hok)
      have hlt := (List.getElem?_eq_some_iff.mp hk).1
      simp only [PmmState.alloc, halloc, if_neg hr]
      refine hinv.set hk hentry hcount ?_ (fun j hj => ?_) ?_
      · exact forall_mem_cons.mpr ⟨hlt, hinv.owned⟩
      · rw [liveOf_cons, if_neg (Ne.symm hj)]
      · rw [liveOf_cons, if_pos rfl]
        exact hinv'

theorem PmmInv.owner (hinv : PmmInv s) (ho : o ∈ s.live) :
    ∃ m i, s.modules[o.owner]? = some m ∧ o.block.base = m.page i ∧ 0 < o.block.cnt ∧
      i + o.block.cnt ≤ m.bitmapEntryCnt ∧ o.block.base + o.block.cnt * pageSize < 2 ^ 64 := by
  have hlt := hinv.owned o ho
  have hm := getElem?_eq_getElem hlt
  obtain ⟨i, hbase, hpos, hfit⟩ := (hinv.each _ _ hm).inside _ (mem_liveOf ho)
  refine ⟨_, i, hm, hbase, hpos, hfit, ?_⟩
  have htop := hinv.top _ (getElem_mem hlt)
  rw [hbase]
  simp only [PmmModule.page, pageSize] at htop ⊢
  omega

theorem free_of_findsOwner (hinv : PmmInv s) (ho : o ∈ s.live)
    (hbefore : ∀ k < o.owner, ∀ m, s.modules[k]? = some m →
      o.block.base < m.mmapEntry.base ∨ m.bitmapEntryCnt < o.block.cnt) :
    ∃ s', s.free o = some s' ∧ PmmInv s' ∧ FreeExact ⟨some s, .free o, some s'⟩ := by
  obtain ⟨m, i, hm, hbase, -, hfit, hend⟩ := hinv.owner ho
  have htest : m.rangeTest o.block.base o.block.cnt = true := by
    refine (rangeTest_iff (hinv.top m (mem_of_getElem? hm)) hend).mpr ⟨?_, by omega⟩
    rw [hbase]
    exact Nat.le_add_right _ _
  have hskip : ∀ j < o.owner, ∀ n, s.modules[j]? = some n →
      n.rangeTest o.block.base o.block.cnt = false := by
    intro j hj n hn
    rw [Bool.eq_false_iff, Ne, rangeTest_iff (hinv.top n (mem_of_getElem? hn)) hend]
    have := hbefore j hj n hn
    omega
  obtain ⟨m', hfree, hentry, hcount, hbits, hinv'⟩ :=
    pmmModuleFree_inv (hinv.each _ m hm) (mem_liveOf ho)
  refine ⟨⟨s.modules.set o.owner m', s.live.erase o⟩, ?_, ?_, ?_⟩
  · rw [PmmState.free, pmmFree_first hm htest hskip, hfree]
    rfl
  · refine hinv.set hm hentry hcount (fun x hx => hinv.owned x (mem_of_mem_erase hx))
      (fun j hj => ?_) ?_
    · rw [liveOf_erase, if_neg (Ne.symm hj)]
    · rw [liveOf_erase, if_pos rfl]
      exact hinv'
  · rintro s₁ o₁ ⟨⟩ ⟨⟩
    refine ⟨_, rfl, by simp, fun k n hn => ?_⟩
    by_cases hk : k = o.owner
    · subst hk
      obtain rfl : m = n := some.inj (hm.symm.trans hn)
      refine ⟨m', ?_, fun _ => hbits, fun h => absurd rfl h⟩
      simp [(List.getElem?_eq_some_iff.mp hm).1]
    · refine ⟨n, ?_, fun h => absurd h hk, fun _ => rfl⟩
      rw [← hn]
      exact getElem?_set_ne (Ne.symm hk)

theorem findsOwner_of_exact (hinv : PmmInv s) (ho : o ∈ s.live)
    (hexact : FreeExact ⟨some s, .free o, s.free o⟩) :
    ∀ k < o.owner, ∀ m, s.modules[k]? = some m →
      o.block.base < m.mmapEntry.base ∨ m.bitmapEntryCnt < o.block.cnt := by
  obtain ⟨m, i, hm, hbase, hpos, hfit, hend⟩ := hinv.owner ho
  by_contra hmiss
  -- the first module before the owner that passes the test gets the free
  have hfirst : ∃ k, k < o.owner ∧ ∃ n, s.modules[k]? = some n ∧
      n.rangeTest o.block.base o.block.cnt = true := by
    push Not at hmiss
    obtain ⟨k, hk, n, hn, hle, hcnt⟩ := hmiss
    exact ⟨k, hk, n, hn,
      (rangeTest_iff (hinv.top n (mem_of_getElem? hn)) hend).mpr ⟨hle, hcnt⟩⟩
  obtain ⟨hk, n, hn, htest⟩ := Nat.find_spec hfirst
  have hbefore : ∀ j < Nat.find hfirst, ∀ n', s.modules[j]? = some n' →
      n'.rangeTest o.block.base o.block.cnt = false := by
    intro j hj n' hn'
    have hmin := Nat.find_min hfirst hj
    rw [Bool.eq_false_iff]
    exact fun h => hmin ⟨by omega, n', hn', h⟩
  obtain ⟨s', hpost, -, hall⟩ := hexact s o rfl rfl
  rw [PmmState.free, pmmFree_first hn htest hbefore] at hpost
  obtain ⟨ms, hms, rfl⟩ := map_eq_some_iff.mp hpost
  obtain ⟨n', -, rfl⟩ := map_eq_some_iff.mp hms
  obtain ⟨m', hm', hbits, -⟩ := hall o.owner m hm
  -- so the owner is unchanged, and its bit of the first page is still set
  obtain rfl : m = m' := by
    rw [getElem?_set_ne (by omega)] at hm'
    exact some.inj (hm.symm.trans hm')
  have hcov : o.block.Covers (m.page i) := by
    rw [Allocation.Covers, hbase]
    exact ⟨le_rfl, Nat.lt_add_of_pos_right (mul_pos hpos (by decide))⟩
  have hset := ((hinv.each _ m hm).bits i).mpr ⟨o.block, mem_liveOf ho, hcov⟩
  exact ((hbits rfl i).mp hset).2 hcov

theorem pmmInv_fresh {es : List LimineMemmapEntry} (haligned : ∀ e ∈ es, pageSize ∣ e.base)
    (htop : ∀ e ∈ es, (pmmInitModule e).page (pmmInitModule e).bitmapEntryCnt < 2 ^ 64) :
    PmmInv (freshPmm es) := by
  refine ⟨by simp [freshPmm], fun k m hm => ?_, by simpa [freshPmm] using htop⟩
  obtain ⟨e, he, rfl⟩ := mem_map.mp (mem_of_getElem? hm)
  exact moduleInv_fresh (haligned e he) (htop e he).le

/-- **Frees of the allocator**: in every run of allocations and frees of live allocations from fresh
modules with page-aligned bases below `2 ^ 64`, all frees are exact if and only if at every free
each module in front of the owner starts above the address or has fewer pages than are freed. -/
theorem pmmFree_exact_iff {es : List LimineMemmapEntry} (haligned : ∀ e ∈ es, pageSize ∣ e.base)
    (htop : ∀ e ∈ es, (pmmInitModule e).page (pmmInitModule e).bitmapEntryCnt < 2 ^ 64)
    {tr : List (Event (Option PmmState) PmmOp)} {last : Option PmmState}
    (run : Run pmmStep (some (freshPmm es)) tr last) :
    (∀ ev ∈ tr, FreeExact ev) ↔ ∀ ev ∈ tr, FreeFindsOwner ev := by
  refine run.every_iff (I := fun s => ∀ t, s = some t → PmmInv t) ?_ ?_ ?_
  · rintro _ ⟨⟩
    exact pmmInv_fresh haligned htop
  · rintro (_ | s) op last hI hstep hfinds t rfl
    · exact hstep.elim
    · cases op with
      | alloc cnt align =>
        obtain ⟨hcnt, -, -, hs⟩ := hstep
        cases hs
        exact pmmInv_alloc (hI s rfl) hcnt
      | free o =>
        obtain ⟨ho, hs⟩ := hstep
        obtain ⟨s', hs', hinv', -⟩ := free_of_findsOwner (hI s rfl) ho (hfinds s o rfl rfl)
        obtain rfl := Option.some.inj (hs.trans hs')
        exact hinv'
  · rintro (_ | s) op last hI hstep
    · exact hstep.elim
    · cases op with
      | alloc cnt align => exact ⟨by rintro - _ _ - ⟨⟩, by rintro - _ _ - ⟨⟩⟩
      | free o =>
        obtain ⟨ho, rfl⟩ := hstep
        constructor
        · rintro hexact _ _ ⟨⟩ ⟨⟩
          exact findsOwner_of_exact (hI s rfl) ho hexact
        · intro hfinds
          obtain ⟨s', hs', -, hexact⟩ := free_of_findsOwner (hI s rfl) ho (hfinds s o rfl rfl)
          rwa [hs']

theorem pmmStep_alloc (s : PmmState) {cnt : ℕ} (hcnt : cnt < 2 ^ 64) :
    pmmStep (some s) (.alloc cnt 1) (some (s.alloc cnt 1)) := ⟨hcnt, by decide, by decide, rfl⟩

def twoEntries : List LimineMemmapEntry := [⟨0x100000, 0x2000, 0⟩, ⟨0x200000, 0x4000, 0⟩]

theorem pmmFree_exact_iff_three_pages : ∃ tr, Run pmmStep (some (freshPmm twoEntries)) tr
        (some ⟨[⟨⟨0x100000, 0x2000, 0⟩, 1, 2, 0, [0#8]⟩, ⟨⟨0x200000, 0x4000, 0⟩, 1, 4, 3, [0#8]⟩],
          []⟩) ∧
      ∀ ev ∈ tr, FreeExact ev := by
  have hfree : pmmStep (some ((freshPmm twoEntries).alloc 3 1)) (.free ⟨1, ⟨0x200000, 3⟩⟩)
      (some ⟨[⟨⟨0x100000, 0x2000, 0⟩, 1, 2, 0, [0#8]⟩, ⟨⟨0x200000, 0x4000, 0⟩, 1, 4, 3, [0#8]⟩],
        []⟩) := ⟨by decide +kernel, by decide +kernel⟩
  have hrun := (Run.nil.snoc (pmmStep_alloc _ (by decide))).snoc hfree
  refine ⟨_, hrun, (pmmFree_exact_iff (by decide) (by decide) hrun).mpr ?_⟩
  simp only [nil_append, cons_append, mem_cons, not_mem_nil, or_false,
    forall_eq_or_imp, forall_eq]
  constructor
  · rintro _ _ - ⟨⟩
  · rintro _ _ ⟨⟩ ⟨⟩ k hk m hm
    obtain rfl : k = 0 := by simpa using hk
    cases hm
    exact .inr (by decide +kernel)

theorem pmmFree_writes_outside_bitmap : (∀ e ∈ twoEntries, pageSize ∣ e.base) ∧
      twoEntries.Pairwise (fun e e' => (pmmInitModule e).page (pmmInitModule e).bitmapEntryCnt ≤
        (pmmInitModule e').page 0) ∧
      ∃ tr, Run pmmStep (some (freshPmm twoEntries)) tr none ∧ ¬ ∀ ev ∈ tr, FreeExact ev := by
  have hfree : pmmStep (some (((freshPmm twoEntries).alloc 2 1).alloc 1 1))
      (.free ⟨1, ⟨0x200000, 1⟩⟩) none := ⟨by decide +kernel, by decide +kernel⟩
  have hrun := ((Run.nil.snoc (pmmStep_alloc _ (by decide))).snoc
    (pmmStep_alloc _ (by decide))).snoc hfree
  refine ⟨by decide, by decide, _, hrun, fun hall => ?_⟩
  obtain ⟨s', hpost, -⟩ := hall _ (mem_append_right _ (mem_singleton.mpr rfl)) _ _ rfl rfl
  cases hpost

end Runs

end Pastoral
