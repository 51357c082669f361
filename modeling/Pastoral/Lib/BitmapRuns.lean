import Pastoral.Lib.Bitmap
import Pastoral.Mm.Alloc
import Pastoral.Theory.Run

/-!
# Runs of a bitmap

Indices are allocated, and freed while they are live.

## Main results

* `alloc_least_of_low_frees`: the least index that is not live is returned
* `fixed_never_sound`: bitmaps of a fixed size hand out one index too many
-/

open List Transition

namespace Pastoral

structure BitmapState where
  bitmap : Bitmap
  live : Finset ℕ

inductive BitmapOp
  | alloc
  | free (index : ℕ)
  deriving DecidableEq, Repr

def bitmapNext (alloc : Bitmap → Option (ℕ × Bitmap)) (s : BitmapState) :
    BitmapOp → Option BitmapState
  | .alloc => (alloc s.bitmap).map fun r => ⟨r.2, insert r.1 s.live⟩
  | .free i => if i ∈ s.live then some ⟨s.bitmap.free i, s.live.erase i⟩ else none

def bitmapStep (alloc : Bitmap → Option (ℕ × Bitmap)) (s : BitmapState) (op : BitmapOp)
    (s' : BitmapState) : Prop :=
  bitmapNext alloc s op = some s'

/-! ## A bitmap that grows -/

/-- The next index is the least one that is not live. -/
def AllocsLeast (s : BitmapState) : Prop :=
  ∃ i b, s.bitmap.alloc = some (i, b) ∧ i ∉ s.live ∧ ∀ j < i, j ∈ s.live

/-- No index above `size` is freed. -/
def LowFree (s : BitmapState) : BitmapOp → Prop
  | .alloc => True
  | .free i => i ≤ s.bitmap.size

instance (s : BitmapState) : DecidablePred (LowFree s) := fun op => by
  unfold LowFree
  cases op <;> infer_instance

structure ExactBits (s : BitmapState) : Prop where
  bits : ∀ i, s.bitmap.test i = true ↔ i ∈ s.live
  length : s.bitmap.data.length = s.bitmap.size

section Growing

variable {s s' : BitmapState} {tr : List (Event BitmapState BitmapOp)} {i n : ℕ} {b : Bitmap}

theorem ExactBits.exists_alloc (h : ExactBits s) : ∃ i b, s.bitmap.alloc = some (i, b) := by
  have hlen := h.length
  unfold Bitmap.alloc
  cases hfirst : s.bitmap.firstClear with
  | some i =>
    have hi := (Bitmap.firstClear_eq_some_iff.mp hfirst).1
    exact ⟨i, _, if_pos (by omega)⟩
  | none =>
    have hclear : s.bitmap.grow.test (s.bitmap.size * 8) = false := by
      rw [Bitmap.test_grow]
      exact BitArray.test_of_ge (by omega)
    have hsome : s.bitmap.grow.firstClear ≠ none := by
      intro hnone
      have hset := Bitmap.firstClear_eq_none_iff.mp hnone (s.bitmap.size * 8)
        (show _ < (s.bitmap.size + 0x200) * 8 by omega)
      rw [hset] at hclear
      simp at hclear
    obtain ⟨i, hi⟩ := Option.ne_none_iff_exists'.mp hsome
    have hlt : i < (s.bitmap.size + 0x200) * 8 := (Bitmap.firstClear_eq_some_iff.mp hi).1
    rw [hi]
    exact ⟨i, _, if_pos (by rw [Bitmap.length_grow]; omega)⟩

theorem ExactBits.alloc (h : ExactBits s) (halloc : s.bitmap.alloc = some (i, b)) :
    i ∉ s.live ∧ (∀ j < i, j ∈ s.live) ∧ ExactBits ⟨b, insert i s.live⟩ := by
  obtain ⟨hclear, hbelow, -, htest⟩ := Bitmap.alloc_spec halloc
  refine ⟨fun hmem => ?_, fun j hj => (h.bits j).mp (hbelow j hj), fun j => ?_, ?_⟩
  · rw [(h.bits i).mpr hmem] at hclear
    simp at hclear
  · rw [htest j, Bool.or_eq_true, decide_eq_true_iff, h.bits j, Finset.mem_insert]
  · exact (Bitmap.alloc_size halloc h.length).1

theorem ExactBits.allocsLeast (h : ExactBits s) : AllocsLeast s := by
  obtain ⟨i, b, halloc⟩ := h.exists_alloc
  obtain ⟨hnew, hbelow, -⟩ := h.alloc halloc
  exact ⟨i, b, halloc, hnew, hbelow⟩

theorem ExactBits.step {op : BitmapOp} (h : ExactBits s) (hstep : bitmapStep Bitmap.alloc s op s')
    (hlow : LowFree s op) : ExactBits s' := by
  cases op with
  | alloc =>
    obtain ⟨⟨i, b⟩, halloc, rfl⟩ := Option.map_eq_some_iff.mp hstep
    exact (h.alloc halloc).2.2
  | free i =>
    rw [bitmapStep, bitmapNext, Option.ite_none_right_eq_some] at hstep
    obtain ⟨hmem, hs'⟩ := hstep
    cases hs'
    have hlt := BitArray.lt_of_test ((h.bits i).mpr hmem)
    have hfree : s.bitmap.free i = { s.bitmap with data := BitArray.clear s.bitmap.data i } :=
      if_neg (not_lt.mpr hlow)
    refine ⟨fun j => ?_, ?_⟩
    · rw [hfree, Bitmap.test, BitArray.test_clear hlt, Finset.mem_erase,
        ← h.bits j]
      simp [Bitmap.test]
    · rw [hfree]
      exact (BitArray.length_clear _ _).trans h.length

theorem exactBits_empty : ExactBits ⟨Bitmap.empty, ∅⟩ := ⟨fun i => by simp, rfl⟩

/-- **The least index that is not live**: every `bitmap_alloc` returns it, if no index above `size`
has been freed. -/
theorem alloc_least_of_low_frees (run : Run (bitmapStep Bitmap.alloc) ⟨Bitmap.empty, ∅⟩ tr s)
    (hlow : ∀ e ∈ tr, LowFree e.pre e.act) : AllocsLeast s := by
  have hexact : ExactBits s := run.guarded (I := fun _ s => ExactBits s)
    (Q := fun e => LowFree e.pre e.act) exactBits_empty
    (fun _ _ _ _ h hstep hlow => h.step hstep hlow) hlow
  exact hexact.allocsLeast

theorem size_of_alloc {b₀ : Bitmap} (halloc : b₀.alloc = some (i, b)) :
    b.size = if i < b₀.size * 8 then b₀.size else b₀.size + 0x200 := by
  have hclear := (Bitmap.alloc_spec halloc).1
  unfold Bitmap.alloc at halloc
  cases hfirst : b₀.firstClear with
  | some j =>
    rw [hfirst] at halloc
    obtain ⟨rfl, -, hsize, -⟩ := Bitmap.claim_spec halloc
    rw [if_pos (Bitmap.firstClear_eq_some_iff.mp hfirst).1, hsize]
  | none =>
    rw [hfirst] at halloc
    obtain ⟨j, -, hclaim⟩ := Option.bind_eq_some_iff.mp halloc
    rw [if_neg, (Bitmap.claim_spec hclaim).2.2.1, Bitmap.grow]
    intro hi
    rw [Bitmap.firstClear_eq_none_iff.mp hfirst i hi] at hclear
    simp at hclear

theorem ExactBits.alloc_next (h : ExactBits s) (hlive : s.live = Finset.range n) :
    ∃ b, s.bitmap.alloc = some (n, b) ∧ ExactBits ⟨b, Finset.range (n + 1)⟩ := by
  obtain ⟨i, b, halloc⟩ := h.exists_alloc
  obtain ⟨hnew, hbelow, hexact⟩ := h.alloc halloc
  rw [hlive] at hnew hbelow hexact
  obtain rfl : i = n := by
    rw [Finset.mem_range] at hnew
    by_contra hne
    exact Finset.notMem_range_self (hbelow n (by omega))
  rw [← Finset.range_add_one] at hexact
  exact ⟨b, halloc, hexact⟩

theorem run_allocs (n : ℕ) (hn : n ≤ 4096) :
    ∃ tr s, Run (bitmapStep Bitmap.alloc) ⟨Bitmap.empty, ∅⟩ tr s ∧
      tr.map Event.act = replicate n .alloc ∧ ExactBits s ∧ s.live = Finset.range n ∧
      s.bitmap.size = if n = 0 then 0 else 512 := by
  induction n with
  | zero => exact ⟨_, _, Run.nil, rfl, exactBits_empty, rfl, rfl⟩
  | succ n ih =>
    obtain ⟨tr, s, run, hacts, hexact, hlive, hsize⟩ := ih (by omega)
    obtain ⟨b, halloc, hexact'⟩ := hexact.alloc_next hlive
    have hnext : bitmapNext Bitmap.alloc s .alloc = some ⟨b, Finset.range (n + 1)⟩ := by
      rw [bitmapNext, halloc, Finset.range_add_one, hlive, Option.map_some]
    refine ⟨_, _, run.snoc hnext, ?_, hexact', rfl, ?_⟩
    · rw [map_append, hacts, replicate_succ']
      rfl
    · rw [if_neg (Nat.succ_ne_zero n)]
      have hgrown := size_of_alloc halloc
      split_ifs at hsize with hzero
      · rw [hgrown, if_neg (by omega), hsize]
      · rw [hgrown, if_pos (by omega), hsize]

theorem alloc_least_of_low_frees_reused : ∃ tr s,
    Run (bitmapStep Bitmap.alloc) ⟨Bitmap.empty, ∅⟩ tr s ∧
      tr.map Event.act = [.alloc, .alloc, .free 0] ∧ AllocsLeast s := by
  obtain ⟨tr, s, run, hacts, hlow⟩ := Run.computed (f := bitmapNext Bitmap.alloc)
    (P := fun tr _ => ∀ e ∈ tr, LowFree e.pre e.act) ⟨Bitmap.empty, ∅⟩ [.alloc, .alloc, .free 0]
    (by decide +kernel)
  exact ⟨tr, s, run, hacts, alloc_least_of_low_frees run hlow⟩

/-- **An index is not handed out again**: 513 is live, and in the bytes, but above `size`. -/
theorem freed_index_not_reused : ∃ tr s,
    Run (bitmapStep Bitmap.alloc) ⟨Bitmap.empty, ∅⟩ tr s ∧
      tr.map Event.act = List.replicate 514 .alloc ++ [.free 513] ∧
      s.live = (Finset.range 514).erase 513 ∧ s.bitmap.alloc.map Prod.fst = some 514 ∧
      ¬ AllocsLeast s := by
  obtain ⟨tr, s, run, hacts, hexact, hlive, hsize⟩ := run_allocs 514 (by omega)
  obtain ⟨b, halloc, -⟩ := hexact.alloc_next hlive
  rw [if_neg (by decide)] at hsize
  have hfree : s.bitmap.free 513 = s.bitmap := if_pos (by omega)
  have hnext : bitmapNext Bitmap.alloc s (.free 513) =
      some ⟨s.bitmap, (Finset.range 514).erase 513⟩ := by
    rw [bitmapNext, hlive, if_pos (Finset.mem_range.mpr (by omega)), hfree]
  refine ⟨_, _, run.snoc hnext, ?_, rfl, ?_, ?_⟩
  · rw [map_append, hacts]
    rfl
  · rw [halloc]
    rfl
  · rintro ⟨i, b', halloc', -, hbelow⟩
    obtain ⟨rfl, -⟩ := Prod.mk.inj (Option.some.inj (halloc.symm.trans halloc'))
    exact Finset.notMem_erase 513 _ (hbelow 513 (by omega))

end Growing

/-! ## A bitmap that does not grow -/

/-- The object is zeroed, and larger than asked for. The scan goes on behind it. -/
def bitmapInit (n : ℕ) (behind : ℕ → BitVec 8) : Option Bitmap :=
  (allocSize (divRoundup n 8)).map fun size =>
    ⟨List.replicate size 0#8 ++ (List.range (n - size)).map behind, n⟩

def Bitmap.allocFixed (b : Bitmap) : Option (ℕ × Bitmap) := b.firstClear.bind b.claim

/-- **The next call is right**: it returns an index below `n` that is not live, and -1 exactly when
all of them are. -/
def FixedRight (n : ℕ) (s : BitmapState) : Prop :=
  (∀ i b, s.bitmap.allocFixed = some (i, b) → i < n ∧ i ∉ s.live) ∧
    (s.bitmap.allocFixed = none ↔ ∀ i < n, i ∈ s.live)

/-- **A bitmap of `n` bits is sound**: it is made, and every call of every run is right. -/
def FixedSound (n : ℕ) (behind : ℕ → BitVec 8) : Prop :=
  ∃ b, bitmapInit n behind = some b ∧
    ∀ tr s, Run (bitmapStep Bitmap.allocFixed) ⟨b, ∅⟩ tr s → FixedRight n s

/-- The first `k` indices are live, and the bits up to `n` say so. -/
structure FirstLive (n k : ℕ) (s : BitmapState) : Prop where
  size : s.bitmap.size = n
  room : n < 8 * s.bitmap.data.length
  bits : ∀ i ≤ n, s.bitmap.test i = decide (i < k)
  live : s.live = Finset.range k

section Fixed

variable {s : BitmapState} {n k : ℕ} {behind : ℕ → BitVec 8} {b : Bitmap}

theorem firstLive_init (hlt : n < 2 ^ 64) (h : bitmapInit n behind = some b) :
    FirstLive n 0 ⟨b, ∅⟩ := by
  obtain ⟨size, hsize, rfl⟩ := Option.map_eq_some_iff.mp h
  have hround : n < 8 * size := by
    have hdiv : divRoundup n 8 = (n + 7) % 2 ^ 64 / 8 := rfl
    have hpos : divRoundup n 8 ≠ 0 := fun hzero => by simp [hzero, allocSize] at hsize
    by_cases hsmall : divRoundup n 8 < 16384
    · obtain ⟨c, hc, hless⟩ := allocSize_spec (Nat.pos_of_ne_zero hpos) hsmall
      obtain rfl := Option.some.inj (hsize.symm.trans hc)
      omega
    · rw [allocSize_large (by omega) (by omega), if_pos (.inl (by omega))] at hsize
      cases hsize
  refine ⟨rfl, ?_, fun i hi => ?_, rfl⟩
  · simp only [length_append, length_replicate]
    omega
  · rw [Bitmap.test, BitArray.test_append, length_replicate, if_pos (by omega),
      BitArray.test_replicate_zero]
    rfl

theorem FirstLive.alloc (h : FirstLive n k s) (hn : 1 ≤ n) (hk : k ≤ n) :
    ∃ b, s.bitmap.allocFixed = some (k, b) ∧ FirstLive n (k + 1) ⟨b, insert k s.live⟩ := by
  have hsize := h.size
  have hroom := h.room
  have hfirst : s.bitmap.firstClear = some k := by
    refine Bitmap.firstClear_eq_some_iff.mpr ⟨by omega, ?_, fun j hj => ?_⟩
    · rw [h.bits k hk]
      simp
    · rw [h.bits j (by omega)]
      simpa using hj
  obtain ⟨b, hclaim⟩ : ∃ b, s.bitmap.claim k = some (k, b) := ⟨_, if_pos (by omega)⟩
  obtain ⟨-, -, hsize', hlen, htest⟩ := Bitmap.claim_spec hclaim
  refine ⟨b, by rw [Bitmap.allocFixed, hfirst, Option.bind_some, hclaim], hsize'.trans hsize,
    by rwa [hlen], fun i hi => ?_, ?_⟩
  · rw [htest i, h.bits i hi, ← Bool.decide_or]
    exact decide_eq_decide.mpr (by omega)
  · rw [h.live, Finset.range_add_one]

theorem run_allocs_fixed (hn : 1 ≤ n) (h : FirstLive n 0 ⟨b, ∅⟩) (hk : k ≤ n) : ∃ tr s,
    Run (bitmapStep Bitmap.allocFixed) ⟨b, ∅⟩ tr s ∧ FirstLive n k s := by
  induction k with
  | zero => exact ⟨_, _, Run.nil, h⟩
  | succ k ih =>
    obtain ⟨tr, s, run, hlive⟩ := ih (by omega)
    obtain ⟨b', halloc, hlive'⟩ := hlive.alloc hn (by omega)
    have hnext : bitmapNext Bitmap.allocFixed s .alloc = some ⟨b', insert k s.live⟩ := by
      rw [bitmapNext, halloc, Option.map_some]
    exact ⟨_, _, run.snoc hnext, hlive'⟩

/-- **A bitmap of `n` bits is never sound**: when all of its indices are live the next one is `n`,
whose bit is clear in the object. -/
theorem fixed_never_sound (hn : 1 ≤ n) (hlt : n < 2 ^ 64) (behind : ℕ → BitVec 8) :
    ¬ FixedSound n behind := by
  rintro ⟨b, hinit, hall⟩
  obtain ⟨tr, s, run, hlive⟩ := run_allocs_fixed hn (firstLive_init hlt hinit) (le_refl n)
  obtain ⟨b', halloc, -⟩ := hlive.alloc hn (le_refl n)
  exact absurd ((hall tr s run).1 n b' halloc).1 (lt_irrefl n)

theorem fixed_never_sound_eight : ¬ FixedSound 8 fun _ => 0xff#8 :=
  fixed_never_sound (by decide) (by decide) _

/-- **One index too many**: a bitmap for one index hands out two. -/
theorem fixed_bitmap_hands_out_two : ∃ b tr s, bitmapInit 1 (fun _ => 0xff#8) = some b ∧
    Run (bitmapStep Bitmap.allocFixed) ⟨b, ∅⟩ tr s ∧ tr.map Event.act = [.alloc] ∧ s.live = {0} ∧
      s.bitmap.allocFixed.map Prod.fst = some 1 ∧ ¬ FixedRight 1 s := by
  obtain ⟨tr, s, run, hacts, hlive, halloc⟩ := Run.computed (f := bitmapNext Bitmap.allocFixed)
    (P := fun _ s => s.live = {0} ∧ s.bitmap.allocFixed.map Prod.fst = some 1)
    ⟨⟨List.replicate 32 0#8, 1⟩, ∅⟩ [.alloc] (by decide +kernel)
  refine ⟨⟨List.replicate 32 0#8, 1⟩, tr, s, by decide, run, hacts, hlive, halloc, fun hright => ?_⟩
  obtain ⟨⟨i, b⟩, hresult, rfl⟩ := Option.map_eq_some_iff.mp halloc
  exact absurd (hright.1 1 b hresult).1 (by decide)

end Fixed

end Pastoral
