import Pastoral.Mm.PmmList

/-!
# The physical page allocator: what the search finds

`pmm_module_alloc` starts at `last_free`, rounded up to the alignment, and looks at every aligned
position from there on.

## Main results

* `pmmAlloc_complete_iff`: when a failure means that there is no free run
-/

open Transition

namespace Pastoral

/-! ## The loop of a module -/

section Loop

variable {m : PmmModule} {cnt align : ℕ}

def PmmModule.ClearRun (m : PmmModule) (cnt i : ℕ) : Prop :=
  i + cnt ≤ m.bitmapEntryCnt ∧ ∀ j, i ≤ j → j < i + cnt → BitArray.test m.bitmap j = false

instance (m : PmmModule) (cnt i : ℕ) : Decidable (m.ClearRun cnt i) :=
  decidable_of_iff (i + cnt ≤ m.bitmapEntryCnt ∧ ∀ k < cnt, BitArray.test m.bitmap (i + k) = false)
    (and_congr_right fun _ =>
      ⟨fun h j hj hj' => Nat.add_sub_cancel' hj ▸ h (j - i) (by omega),
        fun h k hk => h (i + k) (Nat.le_add_right _ _) (by omega)⟩)

theorem scanPages_busy {bitmap : List (BitVec 8)} {n j count : ℕ}
    (h : scanPages bitmap cnt n j count = .busy) :
    ∃ z, j ≤ z ∧ z < j + n ∧ BitArray.test bitmap z = true := by
  induction n generalizing j count with
  | zero => simp [scanPages] at h
  | succ n ih =>
    rw [scanPages] at h
    split_ifs at h with hbit hcnt
    · exact ⟨j, le_rfl, by omega, hbit⟩
    · obtain ⟨z, hjz, hz, htest⟩ := ih h
      exact ⟨z, by omega, by omega, htest⟩

theorem allocLoop_eq_none_iff (hcnt : 0 < cnt) (hservable : cnt + m.bitmapEntryCnt < 2 ^ 64)
    (halign : 0 < align) (hstep : align + m.bitmapEntryCnt < 2 ^ 64) {n i : ℕ} (allocBase : ℕ)
    (hfuel : m.bitmapEntryCnt < n + i) (hn : 0 < n) :
    allocLoop m cnt align n i allocBase = none ↔ ∀ k, ¬ m.ClearRun cnt (i + k * align) := by
  induction n generalizing i allocBase with
  | zero => omega
  | succ n ih =>
    rw [allocLoop]
    split_ifs with hi hfit
    · -- The run does not fit here, and none does further up.
      refine iff_of_true rfl fun k hrun => ?_
      rw [wrap_of_lt (by omega)] at hfit
      have hle := le_trans (Nat.add_le_add_right (Nat.le_add_right i _) _) hrun.1
      omega
    · rw [wrap_of_lt (by omega)] at hfit
      rw [wrap_of_lt (by omega), Nat.add_sub_cancel_left]
      cases hscan : scanPages m.bitmap cnt cnt i 0 with
      | busy =>
        obtain ⟨z, hz, hz', htest⟩ := scanPages_busy hscan
        have hhere : ¬ m.ClearRun cnt (i + 0 * align) := fun hrun => by
          rw [zero_mul] at hrun
          exact absurd (hrun.2 z hz hz') (by simp [htest])
        have hnext : wrap (i + align) = i + align := wrap_of_lt (by omega)
        have hshift : ∀ k, i + align + k * align = i + (k + 1) * align := fun k => by ring
        rw [hnext]
        rw [ih _ (by omega) (by omega)]
        simp only [hshift]
        refine ⟨fun h k => ?_, fun h k => h (k + 1)⟩
        cases k with
        | zero => exact hhere
        | succ k => exact h k
      | found l =>
        refine iff_of_false (by simp) fun hnone => hnone 0 ?_
        obtain ⟨hil, hln, hc, hclear⟩ := scanPages_found hscan
        rw [zero_mul]
        exact ⟨by omega, fun j hj hj' => hclear j hj (by omega)⟩
      | ended =>
        have := scanPages_ended hscan
        omega
    · refine iff_of_true rfl fun k hrun => ?_
      have hle := le_trans (Nat.add_le_add_right (Nat.le_add_right i _) _) hrun.1
      omega

end Loop

/-! ## A module -/

structure ModuleShape (m : PmmModule) : Prop where
  low : 0 < m.mmapEntry.base
  aligned : pageSize ∣ m.mmapEntry.base
  top : m.page m.bitmapEntryCnt < 2 ^ 64
  lastFree : m.lastFree = 0 ∨ m.lastFree < m.bitmapEntryCnt

/-- `cnt` clear bits of the module, at an address that is a multiple of `align` pages. -/
def PmmModule.FreeRun (m : PmmModule) (cnt align i : ℕ) : Prop :=
  m.ClearRun cnt i ∧ align * pageSize ∣ m.page i

/-- **A free run above the hint**: it starts at `last_free` or behind it, and the address of
`last_free` can be rounded up to the alignment in 64 bits. -/
def PmmModule.Reachable (m : PmmModule) (cnt align : ℕ) : Prop :=
  m.page m.lastFree + align * pageSize ≤ 2 ^ 64 ∧ ∃ i, m.lastFree ≤ i ∧ m.FreeRun cnt align i

section Module

variable {m : PmmModule} {cnt align : ℕ}

theorem ModuleShape.entryCnt_lt (h : ModuleShape m) : m.bitmapEntryCnt < 2 ^ 52 := by
  have := h.top
  simp only [PmmModule.page, pageSize] at this
  omega

theorem page_le_iff {i i' : ℕ} : m.page i ≤ m.page i' ↔ i ≤ i' := by
  unfold PmmModule.page
  rw [add_le_add_iff_left]
  exact Nat.mul_le_mul_right_iff (by decide)

theorem page_add (i k : ℕ) : m.page (i + k) = m.page i + k * pageSize := by
  unfold PmmModule.page
  ring

theorem ModuleShape.page_lastFree (h : ModuleShape m) : m.page m.lastFree < 2 ^ 64 :=
  lt_of_le_of_lt (page_le_iff.mpr (by have := h.lastFree; omega)) h.top

theorem exists_of_page_dvd {i i' : ℕ} (hi : align * pageSize ∣ m.page i)
    (hi' : align * pageSize ∣ m.page i') (hle : i ≤ i') : ∃ k, i' = i + k * align := by
  obtain ⟨diff, rfl⟩ := Nat.exists_eq_add_of_le hle
  rw [page_add] at hi'
  have hdiff := (Nat.dvd_add_right hi).mp hi'
  obtain ⟨k, rfl⟩ := Nat.dvd_of_mul_dvd_mul_right (by decide) hdiff
  exact ⟨k, by rw [mul_comm]⟩

section

variable (hshape : ModuleShape m)

include hshape

theorem startBase_eq (hwidth : align * pageSize < 2 ^ 64) :
    m.startBase align = alignUp (m.page m.lastFree) (align * pageSize) := by
  have hpage := hshape.page_lastFree
  unfold PmmModule.page at hpage ⊢
  have hlast := wrap_of_lt (lt_of_le_of_lt (Nat.le_add_left _ _) hpage)
  rw [PmmModule.startBase, wrap_of_lt hwidth, hlast, wrap_of_lt hpage]

theorem page_startBit (hle : m.mmapEntry.base ≤ m.startBase align) :
    m.page (m.startBit align) = m.startBase align := by
  have hstart : pageSize ∣ m.startBase align :=
    dvd_alignUp pageSize_dvd_two_pow (dvd_wrap pageSize_dvd_two_pow (dvd_mul_left _ _))
  have hlt : m.startBase align < 2 ^ 64 := startBase_lt
  have hwrap : wrap (m.startBase align + (2 ^ 64 - m.mmapEntry.base)) =
      m.startBase align - m.mmapEntry.base := by
    unfold wrap
    omega
  rw [PmmModule.page, PmmModule.startBit, hwrap,
    Nat.div_mul_cancel (Nat.dvd_sub hstart hshape.aligned)]
  omega

theorem startBit_spec (halign : 0 < align)
    (hroom : m.page m.lastFree + align * pageSize ≤ 2 ^ 64) :
    align * pageSize ∣ m.page (m.startBit align) ∧ m.lastFree ≤ m.startBit align ∧
      ∀ i, m.lastFree ≤ i → align * pageSize ∣ m.page i → m.startBit align ≤ i := by
  have hpos : 0 < align * pageSize := mul_pos halign (by decide)
  have hwidth : align * pageSize < 2 ^ 64 := by
    have hbase : 0 < m.page m.lastFree := lt_of_lt_of_le hshape.low (Nat.le_add_right _ _)
    omega
  obtain ⟨hdvd, hle, hlt⟩ := alignUp_spec hpos hroom
  rw [← startBase_eq hshape hwidth] at hdvd hle hlt
  have hpage := page_startBit hshape (le_trans (Nat.le_add_right _ _) hle)
  rw [← hpage] at hdvd hle hlt
  refine ⟨hdvd, page_le_iff.mp hle, fun i hi haligned => ?_⟩
  -- An aligned page in front of the start would be more than the alignment below it.
  by_contra hlow
  have hlow' : m.page i < m.page (m.startBit align) :=
    lt_of_not_ge fun hge => hlow (page_le_iff.mp hge)
  obtain ⟨p, hp⟩ := haligned
  obtain ⟨q, hq⟩ := hdvd
  have hpq : p < q := by
    rw [hp, hq] at hlow'
    exact lt_of_mul_lt_mul_left hlow' (Nat.zero_le _)
  have hgap : align * pageSize * (p + 1) ≤ align * pageSize * q := Nat.mul_le_mul_left _ hpq
  have hhint : m.page m.lastFree ≤ m.page i := page_le_iff.mpr hi
  rw [Nat.mul_succ, ← hp] at hgap
  omega

theorem startBit_overflow (hwidth : align * pageSize < 2 ^ 64)
    (hover : 2 ^ 64 < m.page m.lastFree + align * pageSize) :
    m.bitmapEntryCnt ≤ m.startBit align := by
  have hpage := hshape.page_lastFree
  have hzero : m.startBase align = 0 := by
    rw [startBase_eq hshape hwidth, alignUp, divRoundup]
    generalize align * pageSize = d at hwidth hover
    have hsmall : wrap (m.page m.lastFree + (d - 1)) < d := by
      unfold wrap
      omega
    rw [Nat.div_eq_of_lt hsmall, zero_mul]
    rfl
  have hlow := hshape.low
  have htop := hshape.top
  unfold PmmModule.page at htop
  rw [PmmModule.startBit, Nat.le_div_iff_mul_le (by decide), wrap_of_lt (by omega)]
  omega

theorem pmmModuleAlloc_eq_failed_iff (hcnt : cnt < 2 ^ 64) :
    (pmmModuleAlloc m cnt align).1 = allocFailed ↔
      m.allocSearch cnt align = none := by
  cases hloop : m.allocSearch cnt align with
  | none => simp [pmmModuleAlloc_none hloop]
  | some result =>
    obtain ⟨r, i, j⟩ := result
    rw [pmmModuleAlloc_some hloop]
    refine iff_of_false (fun hfailed => ?_) (by simp)
    have hcount := hshape.entryCnt_lt
    have hbase := le_trans (Nat.le_add_right _ _) hshape.top.le
    obtain ⟨⟨hsync, -⟩, -⟩ :=
      allocLoop_spec hcnt (by omega) (startBase_sync hshape.aligned hbase) startBase_lt hloop
    -- The address of a page is a multiple of the page size, and `-1` is none.
    have hdvd : pageSize ∣ m.page i := Nat.dvd_add hshape.aligned (dvd_mul_left _ _)
    have hr := (hsync.of_dvd pageSize_dvd_two_pow).trans (Nat.modEq_zero_iff_dvd.mpr hdvd)
    dsimp only at hfailed
    rw [hfailed] at hr
    exact absurd hr (by decide)

theorem pmmModuleAlloc_failed_iff (hcnt : 0 < cnt) (hcnt' : cnt < 2 ^ 64)
    (halign : 0 < align) (hwidth : align * pageSize < 2 ^ 64) :
    (pmmModuleAlloc m cnt align).1 = allocFailed ↔ ¬ m.Reachable cnt align := by
  have hcount := hshape.entryCnt_lt
  rw [pmmModuleAlloc_eq_failed_iff hshape hcnt']
  by_cases hservable : cnt + m.bitmapEntryCnt < 2 ^ 64
  · have hstep : align + m.bitmapEntryCnt < 2 ^ 64 := by
      simp only [pageSize] at hwidth
      omega
    rw [allocLoop_eq_none_iff hcnt hservable halign hstep _ (by omega) (by omega)]
    by_cases hroom : m.page m.lastFree + align * pageSize ≤ 2 ^ 64
    · obtain ⟨hdvd, hhint, hfirst⟩ := startBit_spec hshape halign hroom
      constructor
      · rintro hnone ⟨-, i, hi, hrun, haligned⟩
        obtain ⟨k, rfl⟩ := exists_of_page_dvd hdvd haligned (hfirst i hi haligned)
        exact hnone k hrun
      · intro hnot k hrun
        refine hnot ⟨hroom, _, le_trans hhint (Nat.le_add_right _ _), hrun, ?_⟩
        rw [page_add, mul_assoc]
        exact Nat.dvd_add hdvd (dvd_mul_left _ _)
    · have hbehind := startBit_overflow hshape hwidth (lt_of_not_ge hroom)
      refine iff_of_true (fun k hrun => ?_) fun hreach => hroom hreach.1
      have hle := le_trans (Nat.add_le_add_right (Nat.le_add_right _ _) _) hrun.1
      omega
  · refine iff_of_true (allocLoop_unservable hcnt' (by omega) (.inr (by omega)) _ _ _) ?_
    rintro ⟨-, i, -, hrun, -⟩
    have := hrun.1
    omega

end

end Module

/-! ## The allocator -/

inductive PmmCall
  | alloc (cnt align : ℕ)
  | free (base cnt : ℕ)

/-- One call: `pmm_alloc` with any 64-bit arguments whose alignment in bytes is not zero, which
would be a division by zero, or `pmm_free` with any 64-bit arguments. -/
def pmmCallStep (ms : List PmmModule) : PmmCall → List PmmModule → Prop
  | .alloc cnt align, ms' =>
    cnt < 2 ^ 64 ∧ align < 2 ^ 64 ∧ wrap (align * pageSize) ≠ 0 ∧ ms' = (pmmAlloc cnt align ms).2
  | .free base cnt, ms' => base < 2 ^ 64 ∧ cnt < 2 ^ 64 ∧ pmmFree base cnt ms = some ms'

section Calls

variable {m m' : PmmModule} {ms ms' : List PmmModule} {cnt align : ℕ}

theorem ModuleShape.alloc (hshape : ModuleShape m) (hcnt : cnt < 2 ^ 64) :
    ModuleShape (pmmModuleAlloc m cnt align).2 := by
  cases hloop : m.allocSearch cnt align with
  | none =>
    rw [pmmModuleAlloc_none hloop]
    exact hshape
  | some result =>
    obtain ⟨r, i, j⟩ := result
    rw [pmmModuleAlloc_some hloop]
    have hcount := hshape.entryCnt_lt
    have hbase := le_trans (Nat.le_add_right _ _) hshape.top.le
    obtain ⟨-, hpos, hfit, hj, -⟩ :=
      allocLoop_spec hcnt (by omega) (startBase_sync hshape.aligned hbase) startBase_lt hloop
    refine ⟨hshape.low, hshape.aligned, hshape.top, ?_⟩
    have hnext := nextFree_bound (BitArray.setRun m.bitmap i cnt) (m.bitmapEntryCnt - j) j
    dsimp only
    omega

theorem ModuleShape.free {base : ℕ} (hshape : ModuleShape m)
    (hfree : pmmModuleFree m base cnt = some m') : ModuleShape m' := by
  obtain ⟨bitmap, -, rfl⟩ := Option.map_eq_some_iff.mp hfree
  exact ⟨hshape.low, hshape.aligned, hshape.top, hshape.lastFree⟩

theorem shapes_pmmAlloc (h : ∀ m ∈ ms, ModuleShape m) (hcnt : cnt < 2 ^ 64) :
    ∀ m ∈ (pmmAlloc cnt align ms).2, ModuleShape m := by
  induction ms with
  | nil => exact h
  | cons m next ih =>
    rw [List.forall_mem_cons] at h
    rw [pmmAlloc]
    dsimp only
    split_ifs with hfailed
    · exact List.forall_mem_cons.mpr ⟨h.1.alloc hcnt, ih h.2⟩
    · exact List.forall_mem_cons.mpr ⟨h.1.alloc hcnt, h.2⟩

theorem shapes_pmmFree {base : ℕ} (h : ∀ m ∈ ms, ModuleShape m)
    (hfree : pmmFree base cnt ms = some ms') : ∀ m ∈ ms', ModuleShape m := by
  induction ms generalizing ms' with
  | nil =>
    cases hfree
    exact h
  | cons m next ih =>
    rw [List.forall_mem_cons] at h
    rw [pmmFree] at hfree
    split_ifs at hfree with htest
    · obtain ⟨m', hm', rfl⟩ := Option.map_eq_some_iff.mp hfree
      exact List.forall_mem_cons.mpr ⟨h.1.free hm', h.2⟩
    · obtain ⟨next', hnext, rfl⟩ := Option.map_eq_some_iff.mp hfree
      exact List.forall_mem_cons.mpr ⟨h.1, ih h.2 hnext⟩

theorem shapes_step {call : PmmCall} (h : ∀ m ∈ ms, ModuleShape m)
    (hstep : pmmCallStep ms call ms') : ∀ m ∈ ms', ModuleShape m := by
  cases call with
  | alloc cnt align =>
    obtain ⟨hcnt, -, -, rfl⟩ := hstep
    exact shapes_pmmAlloc h hcnt
  | free base cnt => exact shapes_pmmFree h hstep.2.2

theorem pmmAlloc_eq_failed_iff : (pmmAlloc cnt align ms).1 = allocFailed ↔
      ∀ m ∈ ms, (pmmModuleAlloc m cnt align).1 = allocFailed := by
  induction ms with
  | nil => simp [pmmAlloc]
  | cons m next ih =>
    rw [pmmAlloc, List.forall_mem_cons]
    dsimp only
    split_ifs with hfailed
    · rw [← ih]
      exact (and_iff_right hfailed).symm
    · exact iff_of_false hfailed fun h => hfailed h.1

theorem width_of_freeRun {i : ℕ} (hshape : ModuleShape m)
    (hrun : m.FreeRun cnt align i) : align * pageSize < 2 ^ 64 := by
  have hlow : 0 < m.page i := lt_of_lt_of_le hshape.low (Nat.le_add_right _ _)
  have hpage : m.page i ≤ m.page m.bitmapEntryCnt :=
    page_le_iff.mpr (le_trans (Nat.le_add_right i cnt) hrun.1.1)
  exact lt_of_le_of_lt (Nat.le_of_dvd hlow hrun.2) (lt_of_le_of_lt hpage hshape.top)

/-- **No spurious failure**: in every state that calls of the allocator reach from fresh modules,
which lie above address 0 and end below `2 ^ 64`, a failure of `pmm_alloc` means that no module has
a free run if and only if some module has one above its hint, or none has one at all. -/
theorem pmmAlloc_complete_iff {es : List LimineMemmapEntry} (hlow : ∀ e ∈ es, 0 < e.base)
    (haligned : ∀ e ∈ es, pageSize ∣ e.base)
    (htop : ∀ e ∈ es, (pmmInitModule e).page (pmmInitModule e).bitmapEntryCnt < 2 ^ 64)
    {tr : List (Event (List PmmModule) PmmCall)}
    (run : Run pmmCallStep (es.map pmmInitModule) tr ms) (hcnt : 1 ≤ cnt) (hcnt' : cnt < 2 ^ 64)
    (halign : 1 ≤ align) :
    ((pmmAlloc cnt align ms).1 = allocFailed → ¬ ∃ m ∈ ms, ∃ i, m.FreeRun cnt align i) ↔
      ((∃ m ∈ ms, ∃ i, m.FreeRun cnt align i) → ∃ m ∈ ms, m.Reachable cnt align) := by
  have hshapes : ∀ m ∈ ms, ModuleShape m := by
    refine run.invariant (I := fun _ ms => ∀ m ∈ ms, ModuleShape m) ?_
      fun _ _ _ _ h hstep => shapes_step h hstep
    intro m hm
    obtain ⟨e, he, rfl⟩ := List.mem_map.mp hm
    exact ⟨hlow e he, haligned e he, htop e he, .inl rfl⟩
  have hfails : (∃ m ∈ ms, ∃ i, m.FreeRun cnt align i) →
      ((pmmAlloc cnt align ms).1 = allocFailed ↔ ¬ ∃ m ∈ ms, m.Reachable cnt align) := by
    rintro ⟨m, hm, i, hrun⟩
    have hwidth := width_of_freeRun (hshapes m hm) hrun
    rw [pmmAlloc_eq_failed_iff]
    push Not
    exact forall₂_congr fun m hm =>
      pmmModuleAlloc_failed_iff (hshapes m hm) hcnt hcnt' halign hwidth
  constructor
  · intro hcomplete hfree
    by_contra hnone
    exact hcomplete ((hfails hfree).mpr hnone) hfree
  · intro hreach hfailed hfree
    exact (hfails hfree).mp hfailed (hreach hfree)

end Calls

theorem pmmAlloc_complete_iff_four_pages :
    ∃ tr, Run pmmCallStep ([⟨0x100000, 0x4000, 0⟩].map pmmInitModule) tr
        [⟨⟨0x100000, 0x4000, 0⟩, 1, 4, 1, [0b0001#8]⟩] ∧
      ((pmmAlloc 2 1 [⟨⟨0x100000, 0x4000, 0⟩, 1, 4, 1, [0b0001#8]⟩]).1 = allocFailed →
        ¬ ∃ m ∈ [PmmModule.mk ⟨0x100000, 0x4000, 0⟩ 1 4 1 [0b0001#8]], ∃ i, m.FreeRun 2 1 i) := by
  have halloc : pmmCallStep ([⟨0x100000, 0x4000, 0⟩].map pmmInitModule) (.alloc 1 1)
      [⟨⟨0x100000, 0x4000, 0⟩, 1, 4, 1, [0b0001#8]⟩] :=
    ⟨by decide, by decide, by decide, by decide +kernel⟩
  refine ⟨_, Run.nil.snoc halloc, (pmmAlloc_complete_iff (by decide) (by decide) (by decide)
    (Run.nil.snoc halloc) (by decide) (by decide) (by decide)).mpr fun _ => ?_⟩
  exact ⟨_, List.mem_singleton.mpr rfl, by decide, 1, by decide, by decide, by decide⟩

/-- **A spurious failure**: one page of a module of two pages is allocated and freed again. -/
theorem pmmAlloc_fails_with_free_pages :
    (∀ e ∈ [LimineMemmapEntry.mk 0x100000 0x2000 0], 0 < e.base ∧ pageSize ∣ e.base) ∧
      ∃ tr ms, Run pmmCallStep ([⟨0x100000, 0x2000, 0⟩].map pmmInitModule) tr ms ∧
        tr.map Event.act = [.alloc 1 1, .free 0x100000 1] ∧
        (pmmAlloc 2 1 ms).1 = allocFailed ∧ ∃ m ∈ ms, m.FreeRun 2 1 0 := by
  have halloc : pmmCallStep ([⟨0x100000, 0x2000, 0⟩].map pmmInitModule) (.alloc 1 1)
      [⟨⟨0x100000, 0x2000, 0⟩, 1, 2, 1, [0b0001#8]⟩] :=
    ⟨by decide, by decide, by decide, by decide +kernel⟩
  have hfree : pmmCallStep [⟨⟨0x100000, 0x2000, 0⟩, 1, 2, 1, [0b0001#8]⟩] (.free 0x100000 1)
      [⟨⟨0x100000, 0x2000, 0⟩, 1, 2, 1, [0#8]⟩] :=
    ⟨by decide, by decide, by decide +kernel⟩
  exact ⟨by decide, _, _, (Run.nil.snoc halloc).snoc hfree, rfl, by decide +kernel, _,
    List.mem_singleton.mpr rfl, by decide, by decide⟩

end Pastoral
