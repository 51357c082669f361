import Pastoral.Fs.Pipe

/-!
# The capacity of a pipe

`pipe_write` tests and clips by the position of the write end, which counts all bytes that were ever
written.

## Main results

* `write_accepts_iff`: when a write is accepted
-/

open Transition

namespace Pastoral

/-! ## A whole write -/

def writerReturns (s : PipeState) : Option ℤ :=
  match s.writer with
  | .locked _ => if s.writePosition ≥ pipeBufferSize then some (-1) else none
  | .copying _ cnt i => if i < sizeT cnt then none else some cnt
  | _ => none

def finishWrite : ℕ → PipeState → Option (ℤ × PipeState)
  | 0, _ => none
  | fuel + 1, s => (writerNext s).bind fun s' =>
      match writerReturns s with
      | some ret => some (ret, s')
      | none => finishWrite fuel s'

def pipeWrite (s : PipeState) (buf : List (BitVec 8)) : Option (ℤ × PipeState) :=
  finishWrite (buf.length + 1 + 4) { s with writer := .entered buf }

def PipeState.unread (s : PipeState) : ℤ := s.writePosition - s.readPosition

section Capacity

variable {s s' : PipeState} {buf : List (BitVec 8)} {op : PipeOp} {cnt : ℤ}

theorem finishWrite_copying {i fuel : ℕ} (hw : s.writer = .copying buf cnt i)
    (hi : i ≤ sizeT cnt) (hfuel : sizeT cnt < i + fuel) :
    ∃ s', finishWrite fuel s = some (cnt, s') ∧
      s'.written = s.written ++ buf.take cnt.toNat := by
  induction fuel generalizing s i with
  | zero => omega
  | succ fuel ih =>
    rw [finishWrite, writerNext, writerReturns, hw]
    dsimp only
    split_ifs with hlt
    · exact ih rfl hlt (by omega)
    · exact ⟨_, rfl, rfl⟩

def clippedCount (s : PipeState) (n : ℕ) : ℤ :=
  if s.writePosition + n > pipeBufferSize then s.stSize - s.writePosition else n

theorem pipeWrite_room (buf : List (BitVec 8)) (h : s.writeLocked = false)
    (hroom : s.writePosition < pipeBufferSize)
    (hcnt : sizeT (clippedCount s buf.length) ≤ buf.length) :
    ∃ s', pipeWrite s buf = some (clippedCount s buf.length, s') ∧
      s'.written = s.written ++ buf.take (clippedCount s buf.length).toNat := by
  have hopen : ¬ s.writePosition ≥ pipeBufferSize := by omega
  rw [pipeWrite]
  generalize hfuel : buf.length + 1 = fuel
  simp only [finishWrite, writerNext, writerReturns, h, hopen, Option.bind_some, if_false,
    Bool.false_eq_true]
  refine finishWrite_copying rfl (Nat.zero_le _) (hcnt.trans_lt ?_)
  omega

theorem pipeWrite_full (hfull : pipeBufferSize ≤ s.writePosition) :
    ∀ r ∈ pipeWrite s buf, r.1 = -1 := by
  cases h : s.writeLocked <;>
    simp [pipeWrite, finishWrite, writerNext, writerReturns, h, hfull]

/-- **When a write is accepted**: as much of it as there is room for, if and only if the lock is free
and all bytes that were ever written fit into the buffer with it. -/
theorem write_accepts_iff (buf : List (BitVec 8)) {buffer : ℤ → BitVec 8}
    {tr : List (Event PipeState PipeOp)} (run : Run pipeStep (pipeInit buffer) tr s)
    (hidle : s.writer = .idle)
    (hpos : 0 < min (buf.length : ℤ) (pipeBufferSize - s.unread)) :
    (∃ s', pipeWrite s buf = some (min (buf.length : ℤ) (pipeBufferSize - s.unread), s') ∧
        s'.written = s.written ++
          buf.take (min (buf.length : ℤ) (pipeBufferSize - s.unread)).toNat) ↔
      s.writeLocked = false ∧ s.writePosition + buf.length ≤ pipeBufferSize := by
  have hshape : PipeShape s := run.invariant (I := fun _ s => PipeShape s) (pipeShape_init buffer)
    fun _ _ _ _ h hstep => h.step hstep
  have hsize : s.stSize = s.writePosition := by
    have hwriter := hshape.writer
    rwa [hidle] at hwriter
  have hstart := hshape.start
  have hbehind := hshape.behind
  rw [PipeState.unread] at hpos ⊢
  constructor
  · rintro ⟨s', hwrite, -⟩
    have hfree : s.writeLocked = false := by
      cases hlock : s.writeLocked with
      | false => rfl
      | true => simp [pipeWrite, finishWrite, writerNext, hlock] at hwrite
    refine ⟨hfree, ?_⟩
    by_contra hlong
    rcases Int.lt_or_le s.writePosition pipeBufferSize with hroom | hfull
    · -- The count that is left is the distance of the position from `st_size`, which is nothing.
      have hzero : clippedCount s buf.length = 0 := by
        rw [clippedCount]
        omega
      obtain ⟨s₁, hnone, -⟩ := pipeWrite_room buf hfree hroom (by rw [hzero]; exact Nat.zero_le _)
      rw [hwrite] at hnone
      have heq := congrArg Prod.fst (Option.some.inj hnone)
      omega
    · have hfail := pipeWrite_full hfull _ hwrite
      omega
  · rintro ⟨hfree, hfits⟩
    have hcnt : clippedCount s buf.length = buf.length := by
      rw [clippedCount, if_neg (by omega)]
    have hmin : min (buf.length : ℤ) (pipeBufferSize - (s.writePosition - s.readPosition)) =
        clippedCount s buf.length := by
      omega
    have hsizeT := sizeT_of_nonneg (show 0 ≤ clippedCount s buf.length by omega) (by omega)
    rw [hmin]
    exact pipeWrite_room buf hfree (by omega) (by omega)

def oneByteWritten : List PipeOp := .write [1#8] :: List.replicate 6 .writer

/-- **A second write**: one byte has been written and read, and two more are accepted. -/
theorem write_accepts_iff_second : ∃ tr s s', Run pipeStep (pipeInit fun _ => 0#8) tr s ∧
    tr.map Event.act = oneByteWritten ++ .read 1 :: List.replicate 4 .reader ∧ s.unread = 0 ∧
    s.returned = [1#8] ∧ pipeWrite s [2#8, 3#8] = some (2, s') ∧ s'.written = [1#8, 2#8, 3#8] := by
  obtain ⟨tr, s, run, hacts, hidle, hfree, hunread, hposition, hread, hwritten⟩ := Run.computed
    (f := pipeNext) (P := fun _ s => s.writer = .idle ∧ s.writeLocked = false ∧ s.unread = 0 ∧
      s.writePosition = 1 ∧ s.returned = [1#8] ∧ s.written = [1#8]) (pipeInit fun _ => 0#8)
    (oneByteWritten ++ .read 1 :: List.replicate 4 .reader) (by decide +kernel)
  have hmin : min (([2#8, 3#8].length : ℕ) : ℤ) (pipeBufferSize - s.unread) = 2 := by
    rw [hunread]
    decide
  have haccepts := (write_accepts_iff [2#8, 3#8] run hidle (by rw [hmin]; decide)).mpr
    ⟨hfree, by rw [hposition]; decide⟩
  rw [hmin, hwritten] at haccepts
  obtain ⟨s', hwrite, hall⟩ := haccepts
  exact ⟨tr, s, s', run, hacts, hunread, hread, hwrite, hall⟩

/-- **A write that is cut to nothing**: a byte has been written, and there is room for all but one
of 65536 more. -/
theorem long_write_accepts_nothing : ∃ tr s s', Run pipeStep (pipeInit fun _ => 0#8) tr s ∧
    tr.map Event.act = oneByteWritten ∧ s.writer = .idle ∧ s.unread = 1 ∧
    pipeWrite s (List.replicate 0x10000 0#8) = some (0, s') := by
  obtain ⟨tr, s, run, hacts, hwriter, hfree, hread, hposition, hsize⟩ := Run.computed (f := pipeNext)
    (P := fun _ s => s.writer = .idle ∧ s.writeLocked = false ∧ s.unread = 1 ∧ s.writePosition = 1 ∧
      s.stSize = 1) (pipeInit fun _ => 0#8) oneByteWritten (by decide +kernel)
  have hzero : clippedCount s (List.replicate 0x10000 0#8).length = 0 := by
    rw [clippedCount, List.length_replicate, hposition, hsize]
    decide
  obtain ⟨s', hwrite, -⟩ := pipeWrite_room (List.replicate 0x10000 0#8) hfree
    (by rw [hposition]; decide) (by rw [hzero]; exact Nat.zero_le _)
  rw [hzero] at hwrite
  exact ⟨tr, s, s', run, hacts, hwriter, hread, hwrite⟩

end Capacity

end Pastoral
