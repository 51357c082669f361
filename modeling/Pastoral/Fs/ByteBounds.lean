import Pastoral.Fs.Pipe

/-!
# Positions and counts

`fd_read` and `fd_write` pass the position and the count of a call on as `off_t`, and the functions
of the assets clip the count by the size of the file or the device.

## Main results

* `run_in_file_iff`: when all bytes of a run of calls are in the file
-/

open Transition

namespace Pastoral

def offT (x : ℤ) : ℤ := (x + 2 ^ 63) % 2 ^ 64 - 2 ^ 63

def clip (size offset cnt : ℤ) : ℤ :=
  if offT (offset + cnt) > size then offT (size - offset) else cnt

theorem clip_eq {size offset cnt : ℤ} (hoffset : 0 ≤ offset) (hle : offset ≤ size) (hcnt : 0 ≤ cnt)
    (hend : offset + cnt < 2 ^ 63) :
    clip size offset cnt = if offset + cnt > size then size - offset else cnt := by
  unfold clip offT
  split_ifs <;> omega

/-! ## The bytes of a file -/

structure FileFlags where
  read : Bool
  write : Bool
  append : Bool
  deriving DecidableEq, Repr

structure FilePosition where
  position : ℤ
  stSize : ℤ
  deriving DecidableEq, Repr

inductive Whence
  | seekSet
  | seekCur
  | seekEnd
  | other
  deriving DecidableEq, Repr

inductive FileOp
  | seek (offset : ℤ) (whence : Whence)
  | read (count : ℕ)
  | write (count : ℕ)
  deriving DecidableEq, Repr

def FileFlags.start (f : FileFlags) (s : FilePosition) : ℤ :=
  if f.append then s.stSize else s.position

def touched (f : FileFlags) (s : FilePosition) : FileOp → ℤ × ℕ × ℤ
  | .seek _ _ => (0, 0, s.stSize)
  | .read count =>
    if f.read ∧ s.position ≤ s.stSize then
      (s.position, sizeT (clip s.stSize s.position (offT count)), s.stSize)
    else (0, 0, s.stSize)
  | .write count =>
    if f.write then
      (f.start s, sizeT (offT count), max s.stSize (offT (f.start s + offT count)))
    else (0, 0, s.stSize)

def positionAfter (position ret : ℤ) : ℤ := if ret ≠ -1 then offT (position + ret) else position

def fdSeek (s : FilePosition) (offset : ℤ) : Whence → FilePosition
  | .seekSet => { s with position := offT offset }
  | .seekCur => { s with position := offT (s.position + offset) }
  | .seekEnd => { s with position := offT (s.stSize + offset) }
  | .other => s

def fdRead (f : FileFlags) (s : FilePosition) (count : ℕ) : FilePosition :=
  let ret := if s.position > s.stSize then 0 else clip s.stSize s.position (offT count)
  if f.read then { s with position := positionAfter s.position ret } else s

def fdWrite (f : FileFlags) (s : FilePosition) (count : ℕ) : FilePosition :=
  if f.write then
    ⟨positionAfter (f.start s) (offT count), max s.stSize (offT (f.start s + offT count))⟩
  else s

def fileNext (f : FileFlags) (s : FilePosition) : FileOp → FilePosition
  | .seek offset whence => fdSeek s offset whence
  | .read count => fdRead f s count
  | .write count => fdWrite f s count

def fileStep (f : FileFlags) (s : FilePosition) (op : FileOp) (s' : FilePosition) : Prop :=
  fileNext f s op = s'

/-- Every byte that is touched is in the file. -/
def InFile (f : FileFlags) (s : FilePosition) (op : FileOp) : Prop :=
  ∀ i < (touched f s op).2.1, 0 ≤ (touched f s op).1 + i ∧
    (touched f s op).1 + i < (touched f s op).2.2

def PlainRange (position cnt : ℤ) : Prop :=
  cnt = 0 ∨ 0 ≤ position ∧ 0 < cnt ∧ position + cnt < 2 ^ 63

/-- The range of a read that is not behind the file is plain, and that of every write. -/
def PlainCall (f : FileFlags) (s : FilePosition) : FileOp → Prop
  | .seek _ _ => True
  | .read count => f.read → s.position ≤ s.stSize → PlainRange s.position (offT count)
  | .write count => f.write → PlainRange (f.start s) (offT count)

/-- The values are of type `off_t`, and the size is not negative. -/
structure OffTypes (s : FilePosition) : Prop where
  low : -2 ^ 63 ≤ s.position
  high : s.position < 2 ^ 63
  nonneg : 0 ≤ s.stSize
  bound : s.stSize < 2 ^ 63

section File

variable {f : FileFlags} {s s₀ : FilePosition} {tr : List (Event FilePosition FileOp)}

theorem forall_touched_iff {first size : ℤ} {n : ℕ} :
    (∀ i < n, 0 ≤ first + (i : ℤ) ∧ first + i < size) ↔ n = 0 ∨ 0 ≤ first ∧ first + n ≤ size := by
  constructor
  · intro h
    rcases Nat.eq_zero_or_pos n with hn | hn
    · exact .inl hn
    · have hfirst := h 0 hn
      have hlast := h (n - 1) (by omega)
      omega
  · omega

theorem offT_bounds (x : ℤ) : -2 ^ 63 ≤ offT x ∧ offT x < 2 ^ 63 := by
  unfold offT
  omega

theorem positionAfter_bounds {position ret : ℤ} (hlow : -2 ^ 63 ≤ position)
    (hhigh : position < 2 ^ 63) :
    -2 ^ 63 ≤ positionAfter position ret ∧ positionAfter position ret < 2 ^ 63 := by
  unfold positionAfter
  split_ifs
  · exact offT_bounds _
  · exact ⟨hlow, hhigh⟩

theorem start_bounds (hlow : -2 ^ 63 ≤ s.position) (hhigh : s.position < 2 ^ 63)
    (hnonneg : 0 ≤ s.stSize) (hbound : s.stSize < 2 ^ 63) :
    -2 ^ 63 ≤ f.start s ∧ f.start s < 2 ^ 63 := by
  unfold FileFlags.start
  split_ifs <;> omega

theorem offTypes_next (h : OffTypes s) (op : FileOp) : OffTypes (fileNext f s op) := by
  obtain ⟨hlow, hhigh, hnonneg, hbound⟩ := h
  have hseek : ∀ x, OffTypes ⟨offT x, s.stSize⟩ := fun x =>
    ⟨(offT_bounds x).1, (offT_bounds x).2, hnonneg, hbound⟩
  cases op with
  | seek offset whence =>
    cases whence with
    | other => exact ⟨hlow, hhigh, hnonneg, hbound⟩
    | _ => exact hseek _
  | read count =>
    change OffTypes (fdRead f s count)
    unfold fdRead
    by_cases hread : f.read
    · obtain ⟨hlow', hhigh'⟩ := positionAfter_bounds hlow hhigh
      rw [if_pos hread]
      exact ⟨hlow', hhigh', hnonneg, hbound⟩
    · rw [if_neg hread]
      exact ⟨hlow, hhigh, hnonneg, hbound⟩
  | write count =>
    change OffTypes (fdWrite f s count)
    unfold fdWrite
    split_ifs
    · obtain ⟨hmin, hmax⟩ := @start_bounds f s hlow hhigh hnonneg hbound
      obtain ⟨hlow', hhigh'⟩ := @positionAfter_bounds (f.start s) (offT count) hmin hmax
      have hsum := offT_bounds (f.start s + offT count)
      constructor <;> dsimp only <;> omega
    · exact ⟨hlow, hhigh, hnonneg, hbound⟩

theorem inFile_iff (h : OffTypes s) (op : FileOp) : InFile f s op ↔ PlainCall f s op := by
  obtain ⟨hlow, hhigh, hnonneg, hbound⟩ := h
  unfold InFile
  rw [forall_touched_iff]
  cases op with
  | seek offset whence => simp [touched, PlainCall]
  | read count =>
    have hcnt := offT_bounds count
    simp only [touched, PlainCall, PlainRange]
    split_ifs with hread
    · simp only [hread.1, forall_const]
      unfold clip sizeT offT
      split_ifs <;> omega
    · simp only [true_or, true_iff]
      exact fun h₁ h₂ => absurd ⟨h₁, h₂⟩ hread
  | write count =>
    have hcnt := offT_bounds count
    simp only [touched, PlainCall, PlainRange]
    split_ifs with hwrite
    · simp only [hwrite, forall_const]
      generalize offT count = cnt at *
      unfold sizeT offT
      omega
    · simp [hwrite]

/-- **When a run stays in the file**: all bytes that it touches are in the file if and only if the
range of each call is plain. -/
theorem run_in_file_iff (h : OffTypes s₀) (run : Run (fileStep f) s₀ tr s) :
    (∀ e ∈ tr, InFile f e.pre e.act) ↔ ∀ e ∈ tr, PlainCall f e.pre e.act :=
  run.every_iff (I := OffTypes) h
    (fun s op s' h (hstep : fileNext f s op = s') _ => hstep ▸ offTypes_next h op)
    fun _ op _ h _ => inFile_iff h op

def readWrite : FileFlags := ⟨true, true, false⟩

theorem run_in_file_iff_inside : ∃ tr s, Run (fileStep readWrite) ⟨0, 5⟩ tr s ∧
    tr.map Event.act = [.seek 2 .seekSet, .write 9] ∧ s = ⟨11, 11⟩ ∧
      ∀ e ∈ tr, InFile readWrite e.pre e.act := by
  have run : Run (fileStep readWrite) ⟨0, 5⟩ _ ⟨11, 11⟩ :=
    (Run.nil.snoc (show fileNext readWrite _ (.seek 2 .seekSet) = ⟨2, 5⟩ by decide)).snoc
      (show fileNext readWrite _ (.write 9) = _ by decide)
  refine ⟨_, _, run, rfl, rfl,
    (run_in_file_iff ⟨by decide, by decide, by decide, by decide⟩ run).mpr ?_⟩
  simp [PlainCall, PlainRange, FileFlags.start, readWrite, offT]

/-- **A byte before the buffer**: after a seek to -1 a read of one byte reads index -1. -/
theorem read_before_buffer : ∃ tr s, Run (fileStep readWrite) ⟨0, 5⟩ tr s ∧
    tr.map Event.act = [.seek (-1) .seekSet] ∧ touched readWrite s (.read 1) = (-1, 1, 5) ∧
      ¬ InFile readWrite s (.read 1) := by
  refine ⟨_, ⟨-1, 5⟩,
    Run.nil.snoc (show fileNext readWrite _ (.seek (-1) .seekSet) = _ by decide), rfl, by decide,
    fun h => ?_⟩
  exact absurd (h 0 (by decide)).1 (by decide)

end File

end Pastoral
