import Pastoral.Fs.Initramfs

/-!
# The headers of the archive

The loop of `initramfs` goes from header to header by the size that it reads.

## Main results

* `unpacks_forward_iff`: the loop is sound if every size leads forward
-/

open BitVec Option

namespace Pastoral

def headerAfter (header : ℕ) (stSize : ℤ) : ℕ :=
  (((header : ℤ) + 512 + ((stSize + 511).bmod (2 ^ 64)).tdiv 512 * 512) % 2 ^ 64).toNat

def sizeField (memory : List (BitVec 8)) (i : ℕ) : Option ℤ :=
  (magicMatches memory i).bind fun magic =>
    if magic then (ustarHeader memory i).map fun h => (octalToDecimal h.size).toInt else none

def nextIteration (memory : List (BitVec 8)) (address size header : ℕ) : Option ℕ :=
  if header < address then none
  else
    (sizeField memory (header - address)).bind fun stSize =>
      if headerAfter header stSize ≥ wrap (address + size) then none
      else some (headerAfter header stSize)

def headerAt (memory : List (BitVec 8)) (address size : ℕ) : ℕ → Option ℕ
  | 0 => some address
  | n + 1 => (headerAt memory address size n).bind (nextIteration memory address size)

/-- **The loop is sound**: it ends, and the header of each iteration is in the module and behind that
of the one before. -/
def LoopSound (memory : List (BitVec 8)) (address size : ℕ) : Prop :=
  (∃ n, headerAt memory address size n = none) ∧
    ∀ n header, headerAt memory address size n = some header →
      (address ≤ header ∧ header < address + size) ∧
        ∀ next, headerAt memory address size (n + 1) = some next → header < next

/-- The size leads forward, and not over the end of the addresses. -/
def LeadsForward (header : ℕ) (stSize : ℤ) : Prop :=
  -1022 ≤ stSize ∧ (header : ℤ) + 512 + (stSize + 511).tdiv 512 * 512 < 2 ^ 64

section Loop

variable {memory : List (BitVec 8)} {address size header : ℕ} {stSize : ℤ}

theorem tdiv_bounds (x : ℤ) : 0 ≤ x ∧ x.tdiv 512 * 512 ≤ x ∧ x < x.tdiv 512 * 512 + 512 ∨
    x < 0 ∧ x ≤ x.tdiv 512 * 512 ∧ x.tdiv 512 * 512 - 512 < x := by
  rw [Int.tdiv_eq_ediv]
  split_ifs with h
  · omega
  · have hsign : Int.sign 512 = 1 := rfl
    omega

theorem lt_headerAfter_iff (hhigh : 2 ^ 63 ≤ header) (hlt : header < 2 ^ 64)
    (hlow : -2 ^ 63 ≤ stSize) (hup : stSize < 2 ^ 63) :
    header < headerAfter header stSize ↔ LeadsForward header stSize := by
  unfold headerAfter LeadsForward
  have hbounds := tdiv_bounds (stSize + 511)
  by_cases hwrap : stSize + 511 < 2 ^ 63
  · have hbmod : (stSize + 511).bmod (2 ^ 64) = stSize + 511 := by
      rw [Int.bmod_eq_of_le] <;> omega
    rw [hbmod]
    omega
  · have hbmod : (stSize + 511).bmod (2 ^ 64) = stSize + 511 - 2 ^ 64 := by
      rw [Int.bmod_def]
      omega
    have hbounds' := tdiv_bounds (stSize + 511 - 2 ^ 64)
    rw [hbmod]
    omega

theorem nextIteration_eq {next : ℕ} (hend : address + size < 2 ^ 64) (hlow : address ≤ header) :
    nextIteration memory address size header = some next ↔
      ∃ stSize, sizeField memory (header - address) = some stSize ∧
        next = headerAfter header stSize ∧ next < address + size := by
  rw [nextIteration, if_neg (not_lt.mpr hlow), bind_eq_some_iff, wrap_of_lt hend]
  refine exists_congr fun stSize => and_congr_right fun _ => ?_
  split_ifs with h
  · simp only [false_iff]
    omega
  · rw [some.injEq]
    omega

/-- **When the loop is sound**: if and only if the module is not empty and the size in each header
that is reached leads forward. -/
theorem unpacks_forward_iff (hhigh : 2 ^ 63 ≤ address) (hend : address + size < 2 ^ 64) :
    LoopSound memory address size ↔ 0 < size ∧ ∀ n header stSize,
      headerAt memory address size n = some header →
        sizeField memory (header - address) = some stSize → LeadsForward header stSize := by
  have hrange : ∀ i stSize, sizeField memory i = some stSize →
      -2 ^ 63 ≤ stSize ∧ stSize < 2 ^ 63 := by
    intro i stSize h
    obtain ⟨magic, -, hmagic⟩ := bind_eq_some_iff.mp h
    split_ifs at hmagic
    obtain ⟨field, -, rfl⟩ := map_eq_some_iff.mp hmagic
    exact ⟨le_toInt _, toInt_lt⟩
  constructor
  · rintro ⟨-, hall⟩
    refine ⟨by have := (hall 0 address rfl).1; omega, fun n header stSize hn hsize => ?_⟩
    obtain ⟨⟨hlow, hlt⟩, hnext⟩ := hall n header hn
    obtain ⟨hmin, hmax⟩ := hrange _ _ hsize
    rw [← lt_headerAfter_iff (by omega) (by omega) hmin hmax]
    by_contra hback
    refine hback (hnext _ ?_)
    rw [headerAt, hn, bind_some, nextIteration_eq hend hlow]
    exact ⟨stSize, hsize, rfl, by omega⟩
  · rintro ⟨hpos, hforward⟩
    have hstep : ∀ n header next, headerAt memory address size n = some header →
        address ≤ header → header < address + size → headerAt memory address size (n + 1) = some next →
        header < next ∧ next < address + size := by
      intro n header next hn hlow hlt hnext
      rw [headerAt, hn, bind_some, nextIteration_eq hend hlow] at hnext
      obtain ⟨stSize, hsize, rfl, hinside⟩ := hnext
      obtain ⟨hmin, hmax⟩ := hrange _ _ hsize
      exact ⟨(lt_headerAfter_iff (by omega) (by omega) hmin hmax).mpr
        (hforward n header stSize hn hsize), hinside⟩
    -- Each iteration is at least one byte further, so there are at most `size` of them.
    have hinside : ∀ n header, headerAt memory address size n = some header →
        address + n ≤ header ∧ header < address + size := by
      intro n
      induction n with
      | zero =>
        intro header hn
        cases hn
        omega
      | succ n ih =>
        intro header hn
        obtain ⟨last, hlast, -⟩ := bind_eq_some_iff.mp hn
        obtain ⟨hlow, hlt⟩ := ih last hlast
        have := hstep n last header hlast (by omega) hlt hn
        omega
    refine ⟨⟨size, ?_⟩, fun n header hn => ?_⟩
    · by_contra hsome
      obtain ⟨header, hheader⟩ := ne_none_iff_exists'.mp hsome
      have := hinside size header hheader
      omega
    · obtain ⟨hlow, hlt⟩ := hinside n header hn
      exact ⟨⟨by omega, hlt⟩, fun next hnext => (hstep n header next hn (by omega) hlt hnext).1⟩

def sizedHeader (field : Name) : List (BitVec 8) :=
  0x61#8 :: List.replicate 123 0#8 ++ field ++ List.replicate (133 - field.length) 0#8 ++
    ustarMagic ++ List.replicate 250 0#8

def twoHeaders : List (BitVec 8) :=
  sizedHeader [0x31#8] ++ List.replicate 512 0#8 ++ sizedHeader [0x30#8]

/-- **Two files**, the first of one byte. -/
theorem unpacks_forward_iff_two_files : LoopSound twoHeaders 0xffff800000000000 1536 := by
  refine (unpacks_forward_iff (by decide) (by decide)).mpr
    ⟨by decide, fun n header stSize hn hsize => ?_⟩
  have hlast : ∀ n, headerAt twoHeaders 0xffff800000000000 1536 (n + 2) = none := by
    intro n
    induction n with
    | zero => decide +kernel
    | succ n ih => rw [headerAt, ih, bind_none]
  have hone : sizeField twoHeaders (0xffff800000000000 - 0xffff800000000000) = some 1 := by
    decide +kernel
  have hsecond : headerAt twoHeaders 0xffff800000000000 1536 1 = some 0xffff800000000400 := by
    decide +kernel
  have hzero : sizeField twoHeaders (0xffff800000000400 - 0xffff800000000000) = some 0 := by
    decide +kernel
  rcases n with - | - | n
  · cases hn
    obtain rfl := some.inj (hsize.symm.trans hone)
    exact ⟨by decide, by decide⟩
  · obtain rfl := some.inj (hn.symm.trans hsecond)
    obtain rfl := some.inj (hsize.symm.trans hzero)
    exact ⟨by decide, by decide⟩
  · exact absurd (hlast n) (by simp [hn])

/-- **The same header again and again**: the characters `\x90` and `0` are read as the size -1280. -/
theorem unpack_stays_at_header :
    (∀ n, headerAt (sizedHeader [0x90#8, 0x30#8]) 0xffff800000000000 512 n =
        some 0xffff800000000000) ∧
      ¬ LoopSound (sizedHeader [0x90#8, 0x30#8]) 0xffff800000000000 512 := by
  have hagain : ∀ n, headerAt (sizedHeader [0x90#8, 0x30#8]) 0xffff800000000000 512 n =
      some 0xffff800000000000 := by
    intro n
    induction n with
    | zero => rfl
    | succ n ih =>
      rw [headerAt, ih]
      decide +kernel
  refine ⟨hagain, fun ⟨⟨n, hn⟩, _⟩ => ?_⟩
  rw [hagain n] at hn
  simp at hn

end Loop

end Pastoral
