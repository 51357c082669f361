import Mathlib.Algebra.Group.Int.Defs
import Mathlib.Algebra.Group.Nat.Defs
import Mathlib.Data.List.Infix
import Mathlib.Data.List.TakeDrop
import Mathlib.Logic.Function.Basic
import Pastoral.Theory.Run

/-!
# Pipes

`pipe_read` and `pipe_write` of `fd.c`, with the parts of `fd_read` and `fd_write` around them.

## Main definitions

* `Quiet`, `Fifo`

## Main results

* `pipe_fifo_of_quiet`: no byte outside the buffer, and the order of the bytes
-/

open List Transition

namespace Pastoral

/-! ## The calls -/

abbrev pipeBufferSize : ℤ := 0x10000

def sizeT (cnt : ℤ) : ℕ := (cnt % 2 ^ 64).toNat

inductive Writer
  | idle
  | entered (buf : List (BitVec 8))
  | locked (buf : List (BitVec 8))
  | checked (buf : List (BitVec 8))
  | clipped (buf : List (BitVec 8)) (cnt : ℤ)
  | copying (buf : List (BitVec 8)) (cnt : ℤ) (i : ℕ)
  deriving DecidableEq

inductive Reader
  | idle
  | entered (cnt : ℤ)
  | ready (cnt : ℤ)
  | clipping
  | copying (cnt : ℤ) (i : ℕ) (buf : List (BitVec 8))
  deriving DecidableEq

structure PipeState where
  buffer : ℤ → BitVec 8
  stSize : ℤ
  readPosition : ℤ
  writePosition : ℤ
  writeLocked : Bool
  writer : Writer
  reader : Reader
  written : List (BitVec 8)
  returned : List (BitVec 8)

def advance (position ret : ℤ) : ℤ := if ret ≠ -1 then position + ret else position

def writerNext (s : PipeState) : Option PipeState :=
  match s.writer with
  | .idle => none
  | .entered buf =>
    -- The lock may be held for good.
    if s.writeLocked then none else some { s with writeLocked := true, writer := .locked buf }
  | .locked buf =>
    -- -1 is returned, with the lock of the asset held.
    if s.writePosition ≥ pipeBufferSize then some { s with writer := .idle }
    else some { s with writer := .checked buf }
  | .checked buf =>
    some { s with
      writer := .clipped buf
        (if s.writePosition + buf.length > pipeBufferSize then s.stSize - s.writePosition
          else buf.length) }
  | .clipped buf cnt =>
    -- The event that is fired before, if the offset is above `st_size`, touches no byte.
    some { s with
      stSize := if s.writePosition + cnt > s.stSize then
          s.stSize + (s.writePosition + cnt - s.stSize) else s.stSize
      writer := .copying buf cnt 0 }
  | .copying buf cnt i =>
    if i < sizeT cnt then
      some { s with
        buffer := Function.update s.buffer (s.writePosition + i) (buf.getD i 0#8)
        writer := .copying buf cnt (i + 1) }
    else
      some { s with
        writeLocked := false
        writePosition := advance s.writePosition cnt
        written := s.written ++ buf.take cnt.toNat
        writer := .idle }

def readerNext (s : PipeState) : Option PipeState :=
  match s.reader with
  | .idle => none
  | .entered cnt =>
    -- `event_wait`
    if s.readPosition > s.stSize then none else some { s with reader := .ready cnt }
  | .ready cnt =>
    if s.readPosition + cnt > s.stSize then some { s with reader := .clipping }
    else some { s with reader := .copying cnt 0 [] }
  | .clipping => some { s with reader := .copying (s.stSize - s.readPosition) 0 [] }
  | .copying cnt i buf =>
    if i < sizeT cnt then
      some { s with reader := .copying cnt (i + 1) (buf ++ [s.buffer (s.readPosition + i)]) }
    else
      some { s with
        readPosition := advance s.readPosition cnt
        returned := s.returned ++ buf
        reader := .idle }

inductive PipeOp
  | write (buf : List (BitVec 8))
  | writer
  | read (cnt : ℕ)
  | reader
  deriving DecidableEq

def pipeNext (s : PipeState) : PipeOp → Option PipeState
  | .write buf =>
    if s.writer = .idle ∧ buf.length < 2 ^ 47 then some { s with writer := .entered buf } else none
  | .writer => writerNext s
  | .read cnt =>
    if s.reader = .idle ∧ cnt < 2 ^ 47 then some { s with reader := .entered cnt } else none
  | .reader => readerNext s

/-- One step, as a relation. -/
def pipeStep (s : PipeState) (op : PipeOp) (s' : PipeState) : Prop := pipeNext s op = some s'

def pipeInit (buffer : ℤ → BitVec 8) : PipeState where
  buffer := buffer
  stSize := 0
  readPosition := 0
  writePosition := 0
  writeLocked := false
  writer := .idle
  reader := .idle
  written := []
  returned := []

def PipeState.accessed (s : PipeState) : PipeOp → Option ℤ
  | .writer =>
    match s.writer with
    | .copying _ cnt i => if i < sizeT cnt then some (s.writePosition + i) else none
    | _ => none
  | .reader =>
    match s.reader with
    | .copying cnt i _ => if i < sizeT cnt then some (s.readPosition + i) else none
    | _ => none
  | _ => none

/-- The byte is one of the buffer. -/
def InBuffer (e : Event PipeState PipeOp) : Prop :=
  ∀ k, e.pre.accessed e.act = some k → 0 ≤ k ∧ k < pipeBufferSize

def Writer.Announced : Writer → Prop
  | .copying _ cnt i => i < sizeT cnt
  | _ => False

instance : DecidablePred Writer.Announced
  | .copying _ cnt i => inferInstanceAs (Decidable (i < sizeT cnt))
  | .idle => .isFalse id
  | .entered _ => .isFalse id
  | .locked _ => .isFalse id
  | .checked _ => .isFalse id
  | .clipped _ _ => .isFalse id

def Reader.Measures : Reader → Prop
  | .ready _ => True
  | .clipping => True
  | _ => False

instance : DecidablePred Reader.Measures
  | .ready _ => .isTrue trivial
  | .clipping => .isTrue trivial
  | .idle => .isFalse id
  | .entered _ => .isFalse id
  | .copying _ _ _ => .isFalse id

/-- **A quiet step**: a read looks at `st_size` only while no write is between its update of
`st_size` and the end of its copy. -/
def Quiet (s : PipeState) (op : PipeOp) : Prop :=
  op = .reader → s.reader.Measures → ¬ s.writer.Announced
  deriving Decidable

/-! ## Positions and counts -/

section Shape

variable {s s' : PipeState} {op : PipeOp}

def Writer.Shape (stSize position : ℤ) : Writer → Prop
  | .clipped buf cnt =>
    stSize = position ∧ 0 ≤ cnt ∧ cnt ≤ buf.length ∧ position + cnt ≤ pipeBufferSize
  | .copying buf cnt i =>
    stSize = position + cnt ∧ 0 ≤ cnt ∧ cnt ≤ buf.length ∧ (i : ℤ) ≤ cnt
  | _ => stSize = position

def Reader.Shape (stSize position : ℤ) : Reader → Prop
  | .entered cnt => 0 ≤ cnt
  | .ready cnt => 0 ≤ cnt
  | .copying cnt i buf => 0 ≤ cnt ∧ position + cnt ≤ stSize ∧ (i : ℤ) ≤ cnt ∧ buf.length = i
  | _ => True

structure PipeShape (s : PipeState) : Prop where
  position : s.writePosition = s.written.length
  size : s.stSize ≤ pipeBufferSize
  writer : s.writer.Shape s.stSize s.writePosition
  start : 0 ≤ s.readPosition
  behind : s.readPosition ≤ s.stSize
  reader : s.reader.Shape s.stSize s.readPosition

theorem sizeT_of_nonneg {cnt : ℤ} (h : 0 ≤ cnt) (hlt : cnt ≤ pipeBufferSize) :
    (sizeT cnt : ℤ) = cnt := by
  unfold pipeBufferSize at hlt
  unfold sizeT
  rw [Int.toNat_of_nonneg (by omega), Int.emod_eq_of_lt h (by omega)]

theorem Reader.Shape.mono {r : Reader} {size size' position : ℤ} (h : r.Shape size position)
    (hle : size ≤ size') : r.Shape size' position := by
  cases r with
  | copying cnt i buf =>
    obtain ⟨hcnt, hend, hi, hlen⟩ := h
    exact ⟨hcnt, by omega, hi, hlen⟩
  | _ => exact h

theorem PipeShape.writerNext (h : PipeShape s) (hstep : writerNext s = some s') : PipeShape s' := by
  unfold Pastoral.writerNext at hstep
  have hwriter := h.writer
  have hposition := h.position
  have hsize := h.size
  cases hw : s.writer with
  | idle =>
    rw [hw] at hstep
    simp at hstep
  | entered buf =>
    rw [hw] at hstep hwriter
    dsimp only at hstep
    split_ifs at hstep
    obtain rfl := Option.some.inj hstep
    exact ⟨h.position, h.size, hwriter, h.start, h.behind, h.reader⟩
  | locked buf =>
    rw [hw] at hstep hwriter
    dsimp only at hstep
    split_ifs at hstep
    · cases hstep
      exact ⟨h.position, h.size, hwriter, h.start, h.behind, h.reader⟩
    · cases hstep
      exact ⟨h.position, h.size, hwriter, h.start, h.behind, h.reader⟩
  | checked buf =>
    rw [hw] at hstep hwriter
    obtain rfl := Option.some.inj hstep
    have heq : s.stSize = s.writePosition := hwriter
    refine ⟨h.position, h.size, ?_, h.start, h.behind, h.reader⟩
    -- A write that does not fit is cut to nothing.
    dsimp only [Writer.Shape]
    split_ifs with hfits
    · exact ⟨heq, by omega, by omega, by omega⟩
    · exact ⟨heq, by omega, Int.le_refl _, by omega⟩
  | clipped buf cnt =>
    rw [hw] at hstep hwriter
    cases hstep
    obtain ⟨heq, hcnt, hlen, hend⟩ := hwriter
    have hnew : (if s.writePosition + cnt > s.stSize then
        s.stSize + (s.writePosition + cnt - s.stSize) else s.stSize) = s.writePosition + cnt := by
      split_ifs <;> omega
    have hbehind := h.behind
    refine ⟨h.position, ?_, ?_, h.start, ?_, ?_⟩
    · dsimp only
      omega
    · exact ⟨hnew, hcnt, hlen, hcnt⟩
    · dsimp only
      omega
    · dsimp only
      exact h.reader.mono (by omega)
  | copying buf cnt i =>
    rw [hw] at hstep hwriter
    obtain ⟨heq, hcnt, hlen, hi⟩ := hwriter
    have hbound : cnt ≤ pipeBufferSize := by omega
    have hsizeT := sizeT_of_nonneg hcnt hbound
    dsimp only at hstep
    split_ifs at hstep with hlt
    · cases hstep
      refine ⟨h.position, h.size, ⟨heq, hcnt, hlen, ?_⟩, h.start, h.behind, h.reader⟩
      omega
    · cases hstep
      have hne : cnt ≠ -1 := by omega
      refine ⟨?_, h.size, ?_, h.start, h.behind, h.reader⟩
      · dsimp only
        rw [advance, length_append, length_take]
        omega
      · rw [advance, if_pos hne]
        exact heq

theorem PipeShape.readerNext (h : PipeShape s) (hstep : readerNext s = some s') : PipeShape s' := by
  unfold Pastoral.readerNext at hstep
  have hreader := h.reader
  have hsize := h.size
  have hbehind := h.behind
  have hstart := h.start
  cases hr : s.reader with
  | idle =>
    rw [hr] at hstep
    simp at hstep
  | entered cnt =>
    rw [hr] at hstep hreader
    split_ifs at hstep
    cases hstep
    exact ⟨h.position, h.size, h.writer, h.start, h.behind, hreader⟩
  | ready cnt =>
    rw [hr] at hstep hreader
    have hcnt := hreader
    dsimp only at hstep
    split_ifs at hstep with hend
    · cases hstep
      exact ⟨h.position, h.size, h.writer, h.start, h.behind, trivial⟩
    · cases hstep
      refine ⟨h.position, h.size, h.writer, h.start, h.behind, hcnt, ?_, hcnt, rfl⟩
      exact Int.not_lt.mp hend
  | clipping =>
    rw [hr] at hstep
    cases hstep
    have hcnt : 0 ≤ s.stSize - s.readPosition := by omega
    have hend : s.readPosition + (s.stSize - s.readPosition) ≤ s.stSize := by omega
    exact ⟨h.position, h.size, h.writer, h.start, h.behind, hcnt, hend, hcnt, rfl⟩
  | copying cnt i buf =>
    rw [hr] at hstep hreader
    obtain ⟨hcnt, hend, hi, hlen⟩ := hreader
    have hsizeT := sizeT_of_nonneg hcnt (by omega)
    dsimp only at hstep
    split_ifs at hstep with hlt
    · cases hstep
      refine ⟨h.position, h.size, h.writer, h.start, h.behind, hcnt, hend, ?_, ?_⟩
      · omega
      · simp [hlen]
    · cases hstep
      have hne : cnt ≠ -1 := by omega
      refine ⟨h.position, h.size, h.writer, ?_, ?_, trivial⟩
      · dsimp only
        rw [advance]
        omega
      · rw [advance, if_pos hne]
        exact hend

theorem PipeShape.step (h : PipeShape s) (hstep : pipeStep s op s') : PipeShape s' := by
  cases op with
  | write buf =>
    unfold pipeStep pipeNext at hstep
    dsimp only at hstep
    split_ifs at hstep with hidle
    cases hstep
    have hwriter := h.writer
    rw [hidle.1] at hwriter
    exact ⟨h.position, h.size, hwriter, h.start, h.behind, h.reader⟩
  | writer => exact h.writerNext hstep
  | read cnt =>
    unfold pipeStep pipeNext at hstep
    dsimp only at hstep
    split_ifs at hstep with hidle
    cases hstep
    exact ⟨h.position, h.size, h.writer, h.start, h.behind, Int.natCast_nonneg cnt⟩
  | reader => exact h.readerNext hstep

theorem PipeShape.inBuffer (h : PipeShape s) : InBuffer ⟨s, op, s'⟩ := by
  intro k hk
  have hsize := h.size
  have hstart := h.start
  cases op with
  | write buf => exact absurd hk (by simp [PipeState.accessed])
  | read cnt => exact absurd hk (by simp [PipeState.accessed])
  | writer =>
    have hwriter := h.writer
    have hposition := h.position
    cases hw : s.writer with
    | copying buf cnt i =>
      rw [hw] at hwriter
      obtain ⟨heq, hcnt, hlen, hi⟩ := hwriter
      simp only [PipeState.accessed, hw] at hk
      split_ifs at hk with hlt
      have hsizeT := sizeT_of_nonneg hcnt (by omega)
      cases hk
      omega
    | _ => exact absurd hk (by simp [PipeState.accessed, hw])
  | reader =>
    have hreader := h.reader
    cases hr : s.reader with
    | copying cnt i buf =>
      rw [hr] at hreader
      obtain ⟨hcnt, hend, hi, hlen⟩ := hreader
      simp only [PipeState.accessed, hr] at hk
      split_ifs at hk with hlt
      have hsizeT := sizeT_of_nonneg hcnt (by omega)
      cases hk
      omega
    | _ => exact absurd hk (by simp [PipeState.accessed, hr])

theorem pipeShape_init (buffer : ℤ → BitVec 8) : PipeShape (pipeInit buffer) :=
  ⟨rfl, by simp [pipeInit], rfl, Int.le_refl _, Int.le_refl _, trivial⟩

end Shape

/-! ## The order of the bytes -/

section Order

variable {s s' : PipeState} {op : PipeOp} {l : List (BitVec 8)}

def Writer.copied : Writer → List (BitVec 8)
  | .copying buf _ i => buf.take i
  | _ => []

def PipeState.stream (s : PipeState) : List (BitVec 8) := s.written ++ s.writer.copied

def Reader.Holds (l : List (BitVec 8)) (position : ℤ) : Reader → Prop
  | .copying cnt i buf => position + cnt ≤ l.length ∧ buf = (l.drop position.toNat).take i
  | _ => True

structure PipeHolds (l : List (BitVec 8)) (s : PipeState) : Prop where
  stored : ∀ k : ℕ, k < l.length → l[k]? = some (s.buffer k)
  returned : s.returned = l.take s.readPosition.toNat
  position : s.readPosition ≤ l.length
  reader : s.reader.Holds l s.readPosition

theorem PipeHolds.append (h : PipeHolds l s) (hshape : PipeShape s) (b : BitVec 8) {w : Writer} :
    PipeHolds (l ++ [b]) { s with buffer := Function.update s.buffer l.length b, writer := w } := by
  have hposition := h.position
  have hstart := hshape.start
  refine ⟨fun k hk => ?_, ?_, ?_, ?_⟩
  · rw [length_append, length_singleton] at hk
    dsimp only
    by_cases heq : k = l.length
    · subst heq
      simp
    · rw [Function.update_of_ne (by omega), getElem?_append_left (by omega)]
      exact h.stored k (by omega)
  · dsimp only
    rw [take_append_of_le_length (by omega)]
    exact h.returned
  · rw [length_append]
    push_cast
    omega
  · have hreader := h.reader
    have hcount := hshape.reader
    dsimp only
    cases hr : s.reader with
    | copying cnt i buf =>
      rw [hr] at hreader hcount
      obtain ⟨hend, hbuf⟩ := hreader
      obtain ⟨-, -, hi, -⟩ := hcount
      refine ⟨?_, ?_⟩
      · rw [length_append]
        omega
      · rw [drop_append_of_le_length (by omega),
          take_append_of_le_length (by rw [length_drop]; omega)]
        exact hbuf
    | _ => trivial

theorem PipeShape.size_eq (h : PipeShape s) (hquiet : ¬ s.writer.Announced) :
    s.stSize = s.stream.length := by
  have hwriter := h.writer
  have hposition := h.position
  unfold PipeState.stream
  rw [length_append]
  cases hw : s.writer with
  | copying buf cnt i =>
    rw [hw] at hwriter hquiet
    obtain ⟨heq, hcnt, hlen, hi⟩ := hwriter
    have hsize := h.size
    have hsizeT := sizeT_of_nonneg hcnt (by omega)
    have hall : ¬ i < sizeT cnt := hquiet
    rw [Writer.copied, length_take]
    omega
  | clipped buf cnt =>
    rw [hw] at hwriter
    have heq := hwriter.1
    simp only [Writer.copied, length_nil]
    omega
  | _ =>
    rw [hw] at hwriter
    have heq : s.stSize = s.writePosition := hwriter
    simp only [Writer.copied, length_nil]
    omega

theorem PipeHolds.writerNext (h : PipeHolds s.stream s) (hshape : PipeShape s)
    (hstep : writerNext s = some s') : PipeHolds s'.stream s' := by
  unfold Pastoral.writerNext at hstep
  have hwriter := hshape.writer
  have hposition := hshape.position
  unfold PipeState.stream at h
  cases hw : s.writer with
  | idle =>
    rw [hw] at hstep
    simp at hstep
  | entered buf =>
    rw [hw] at hstep h
    dsimp only at hstep
    split_ifs at hstep
    cases hstep
    exact ⟨h.stored, h.returned, h.position, h.reader⟩
  | locked buf =>
    rw [hw] at hstep h
    dsimp only at hstep
    split_ifs at hstep
    · cases hstep
      exact ⟨h.stored, h.returned, h.position, h.reader⟩
    · cases hstep
      exact ⟨h.stored, h.returned, h.position, h.reader⟩
  | checked buf =>
    rw [hw] at hstep h
    cases hstep
    exact ⟨h.stored, h.returned, h.position, h.reader⟩
  | clipped buf cnt =>
    rw [hw] at hstep h
    cases hstep
    exact ⟨h.stored, h.returned, h.position, h.reader⟩
  | copying buf cnt i =>
    rw [hw] at hstep hwriter h
    obtain ⟨heq, hcnt, hlen, hi⟩ := hwriter
    have hsize := hshape.size
    have hsizeT := sizeT_of_nonneg hcnt (by omega)
    dsimp only at hstep
    split_ifs at hstep with hlt
    · -- The next byte goes to the end of the stream.
      cases hstep
      have hilt : i < buf.length := by omega
      have hget : buf.getD i 0#8 = buf[i] := by
        rw [getD_eq_getElem?_getD, getElem?_eq_getElem hilt]
        rfl
      have hend : s.writePosition + i = ((s.written ++ buf.take i).length : ℕ) := by
        rw [length_append, length_take]
        omega
      have hstream : s.written ++ buf.take (i + 1) =
          s.written ++ buf.take i ++ [buf.getD i 0#8] := by
        rw [append_assoc, hget, take_append_getElem]
      have happend := h.append hshape (buf.getD i 0#8) (w := .copying buf cnt (i + 1))
      unfold PipeState.stream
      dsimp only [Writer.copied]
      rw [hstream, hend]
      exact happend
    · -- The whole count has been copied.
      cases hstep
      have hall : cnt.toNat = i := by omega
      unfold PipeState.stream
      dsimp only [Writer.copied]
      rw [hall, append_nil]
      exact ⟨h.stored, h.returned, h.position, h.reader⟩

theorem PipeHolds.readerNext (h : PipeHolds s.stream s) (hshape : PipeShape s)
    (hquiet : Quiet s .reader) (hstep : readerNext s = some s') : PipeHolds s'.stream s' := by
  unfold Pastoral.readerNext at hstep
  have hcount := hshape.reader
  have hreader := h.reader
  have hmeasure := hquiet rfl
  have hstart := hshape.start
  cases hr : s.reader with
  | idle =>
    rw [hr] at hstep
    simp at hstep
  | entered cnt =>
    rw [hr] at hstep
    split_ifs at hstep
    cases hstep
    exact ⟨h.stored, h.returned, h.position, trivial⟩
  | ready cnt =>
    rw [hr] at hstep hmeasure
    have hsize := hshape.size_eq (hmeasure trivial)
    dsimp only at hstep
    split_ifs at hstep with hend
    · cases hstep
      exact ⟨h.stored, h.returned, h.position, trivial⟩
    · cases hstep
      have hlast : s.readPosition + cnt ≤ s.stream.length := by
        rw [← hsize]
        exact Int.not_lt.mp hend
      exact ⟨h.stored, h.returned, h.position, hlast, rfl⟩
  | clipping =>
    rw [hr] at hstep hmeasure
    have hsize := hshape.size_eq (hmeasure trivial)
    cases hstep
    have hlast : s.readPosition + (s.stSize - s.readPosition) ≤ s.stream.length := by
      omega
    exact ⟨h.stored, h.returned, h.position, hlast, rfl⟩
  | copying cnt i buf =>
    rw [hr] at hstep hreader hcount
    obtain ⟨hend, hbuf⟩ := hreader
    obtain ⟨hcnt, hsize, hi, -⟩ := hcount
    have hbound := hshape.size
    have hsizeT := sizeT_of_nonneg hcnt (by omega)
    dsimp only at hstep
    split_ifs at hstep with hlt
    · cases hstep
      -- The next byte is the one at the position of the read.
      have hindex : s.readPosition + i = ((s.readPosition.toNat + i : ℕ) : ℤ) := by
        omega
      have hbyte := h.stored (s.readPosition.toNat + i) (by omega)
      have hnext : buf ++ [s.buffer (s.readPosition + i)] =
          (s.stream.drop s.readPosition.toNat).take (i + 1) := by
        rw [hindex, hbuf, take_add_one, getElem?_drop, hbyte]
        rfl
      exact ⟨h.stored, h.returned, h.position, hend, hnext⟩
    · -- All of the count has been copied, and is returned.
      cases hstep
      have hne : cnt ≠ -1 := by omega
      have hposition : (advance s.readPosition cnt).toNat = s.readPosition.toNat + i := by
        rw [advance, if_pos hne]
        omega
      have hall : s.returned ++ buf = s.stream.take (advance s.readPosition cnt).toNat := by
        rw [hposition, h.returned, hbuf, take_add]
      have hlast : advance s.readPosition cnt ≤ s.stream.length := by
        rw [advance, if_pos hne]
        exact hend
      exact ⟨h.stored, hall, hlast, trivial⟩

theorem PipeHolds.step (h : PipeHolds s.stream s) (hshape : PipeShape s) (hquiet : Quiet s op)
    (hstep : pipeStep s op s') : PipeHolds s'.stream s' := by
  cases op with
  | write buf =>
    unfold pipeStep pipeNext at hstep
    dsimp only at hstep
    split_ifs at hstep with hidle
    cases hstep
    unfold PipeState.stream at h
    rw [hidle.1] at h
    exact ⟨h.stored, h.returned, h.position, h.reader⟩
  | writer => exact h.writerNext hshape hstep
  | read cnt =>
    unfold pipeStep pipeNext at hstep
    dsimp only at hstep
    split_ifs at hstep with hidle
    cases hstep
    exact ⟨h.stored, h.returned, h.position, trivial⟩
  | reader => exact h.readerNext hshape hquiet hstep

theorem pipeHolds_init (buffer : ℤ → BitVec 8) :
    PipeHolds (pipeInit buffer).stream (pipeInit buffer) :=
  ⟨fun k hk => absurd hk (Nat.not_lt_zero k), rfl, Int.le_refl _, trivial⟩

/-- **First in, first out**: when all writes have returned, the reads have returned the first of the
bytes that were written. -/
def Fifo (s : PipeState) : Prop := s.writer = .idle → s.returned <+: s.written

theorem PipeHolds.fifo (h : PipeHolds s.stream s) : Fifo s := by
  intro hidle
  have hstream : s.stream = s.written := by
    rw [PipeState.stream, hidle]
    exact append_nil _
  rw [h.returned, hstream]
  exact take_prefix _ _

/-- **Pipes**: in every interleaving no byte outside of the buffer is touched; and if all steps are
quiet, bytes come out in the order in which they went in. -/
theorem pipe_fifo_of_quiet {buffer : ℤ → BitVec 8} {tr : List (Event PipeState PipeOp)}
    (run : Run pipeStep (pipeInit buffer) tr s) :
    (∀ e ∈ tr, InBuffer e) ∧ ((∀ e ∈ tr, Quiet e.pre e.act) → Fifo s) := by
  refine ⟨run.forall_event (I := PipeShape) (pipeShape_init buffer)
    (fun _ _ _ h hstep => h.step hstep) fun _ _ _ h _ => h.inBuffer, fun hquiet => ?_⟩
  have hinv := run.guarded (I := fun _ s => PipeShape s ∧ PipeHolds s.stream s)
    (Q := fun e => Quiet e.pre e.act) ⟨pipeShape_init buffer, pipeHolds_init buffer⟩
    (fun _ _ _ _ h hstep hq => ⟨h.1.step hstep, h.2.step h.1 hq hstep⟩) hquiet
  exact hinv.2.fifo

def writeThenRead : List PipeOp :=
  .write [1#8] :: List.replicate 6 .writer ++ .read 2 :: List.replicate 5 .reader

/-- **In turn**: the read returns the byte that was written. -/
theorem pipe_fifo_of_quiet_in_turn : ∃ tr s, Run pipeStep (pipeInit fun _ => 0#8) tr s ∧
    tr.map Event.act = writeThenRead ∧ s.returned = [1#8] ∧ Fifo s := by
  obtain ⟨tr, s, run, hacts, hreturned, hquiet⟩ := Run.computed (f := pipeNext)
    (P := fun tr s => s.returned = [1#8] ∧ ∀ e ∈ tr, Quiet e.pre e.act) (pipeInit fun _ => 0#8)
    writeThenRead (by decide +kernel)
  exact ⟨tr, s, run, hacts, hreturned, (pipe_fifo_of_quiet run).2 hquiet⟩

def readInBetween : List PipeOp :=
  .write [1#8] :: List.replicate 4 .writer ++ .read 1 :: List.replicate 4 .reader ++
    List.replicate 2 .writer

/-- **A byte that was never written is read**: the read finds `st_size` at 1 and copies what was in
the buffer before, and both calls return 1. -/
theorem stale_byte_read : ∃ tr s, Run pipeStep (pipeInit fun _ => 0#8) tr s ∧
    tr.map Event.act = readInBetween ∧ s.writer = .idle ∧ s.reader = .idle ∧
    s.written = [1#8] ∧ s.returned = [0#8] ∧ ¬ Fifo s := by
  obtain ⟨tr, s, run, hacts, hwriter, hreader, hwritten, hreturned⟩ := Run.computed (f := pipeNext)
    (P := fun _ s => s.writer = .idle ∧ s.reader = .idle ∧ s.written = [1#8] ∧ s.returned = [0#8])
    (pipeInit fun _ => 0#8) readInBetween (by decide +kernel)
  refine ⟨tr, s, run, hacts, hwriter, hreader, hwritten, hreturned, fun hfifo => ?_⟩
  have hprefix := hfifo hwriter
  rw [hwritten, hreturned] at hprefix
  exact absurd hprefix (by decide)

end Order

end Pastoral
