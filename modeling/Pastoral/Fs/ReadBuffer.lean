import Pastoral.Drivers.Terminal
import Pastoral.Fs.ByteBounds

/-!
# The buffer of the caller of a read

`fd_read` calls the `read` of an asset with a position and a count. `ramfs_read` and `fbdev_read`
read a size that does not change during the call. `pipe_read` reads `st_size` twice while writes go
on, and `terminal_read` copies as many characters as are in the stream.

## Main definitions

* `RespectsBuffer`: no more than `cnt` bytes are stored, and their number is returned
* `ReadDevice.read`: the bytes stored and the value returned by `ramfs_read` and `fbdev_read`
* `bytesStored`, `keysBefore`, `keysBetween`: the stores of a `terminal_read` and the keys that
  arrive until the end of its copy, and from there to its count

## Main results

* `terminal_respects_iff`, `pipe_respects_iff`: single calls among keys and writes
* `read_respects_iff`: all four functions
-/

open List Transition

namespace Pastoral

/-- **The call respects the buffer**: it stores no more than `cnt` bytes, and returns -1 or their
number, by which the position goes on. -/
def RespectsBuffer (stored : ℕ) (ret offset cnt : ℤ) : Prop :=
  stored ≤ cnt ∧ (ret = -1 ∨ ret = stored ∧ positionAfter offset ret = offT (offset + stored))

theorem respectsBuffer_iff {stored : ℕ} {ret offset cnt : ℤ} (hret : 0 ≤ ret) :
    RespectsBuffer stored ret offset cnt ↔ stored ≤ cnt ∧ ret = stored := by
  unfold RespectsBuffer
  constructor
  · rintro ⟨hle, hminus | ⟨heq, -⟩⟩
    · omega
    · exact ⟨hle, heq⟩
  · rintro ⟨hle, heq⟩
    exact ⟨hle, .inr ⟨heq, by rw [positionAfter, if_pos (by omega), heq]⟩⟩

/-! ## A file and the frame buffer -/

inductive ReadDevice
  | ramfs (handle : Bool) (stSize : ℤ)
  | fbdev (smemLen : Option ℕ)
  deriving DecidableEq, Repr

def ReadDevice.read (offset cnt : ℤ) : ReadDevice → ℕ × ℤ
  | .ramfs handle stSize =>
    if ¬ handle ∨ offset > stSize then (0, 0)
    else (sizeT (clip stSize offset cnt), clip stSize offset cnt)
  | .fbdev none => (0, -1)
  | .fbdev (some smemLen) => (sizeT (clip smemLen offset cnt), clip smemLen offset cnt)

def ReadDevice.Valid : ReadDevice → Prop
  | .ramfs _ stSize => 0 ≤ stSize ∧ stSize < 2 ^ 63
  | .fbdev smemLen => ∀ n ∈ smemLen, n < 2 ^ 32

/-- The position is not behind the device, or the sum overflows. -/
def Unclipped (offset cnt : ℤ) : ReadDevice → Prop
  | .ramfs _ _ => True
  | .fbdev smemLen => ∀ n ∈ smemLen, offset ≤ n ∨ 2 ^ 63 ≤ offset + cnt

theorem clip_respects_iff {size offset cnt : ℤ} (hsize : 0 ≤ size ∧ size < 2 ^ 63)
    (hoffset : -2 ^ 63 ≤ offset ∧ offset < 2 ^ 63) (hcnt : 0 ≤ cnt ∧ cnt < 2 ^ 63) :
    RespectsBuffer (sizeT (clip size offset cnt)) (clip size offset cnt) offset cnt ↔
      offset ≤ size ∨ 2 ^ 63 ≤ offset + cnt := by
  unfold RespectsBuffer positionAfter clip sizeT offT
  split_ifs <;> omega

theorem device_respects_iff {d : ReadDevice} {offset cnt : ℤ} (hd : d.Valid)
    (hoffset : -2 ^ 63 ≤ offset ∧ offset < 2 ^ 63) (hcnt : 0 ≤ cnt ∧ cnt < 2 ^ 63) :
    RespectsBuffer (d.read offset cnt).1 (d.read offset cnt).2 offset cnt ↔
      Unclipped offset cnt d := by
  cases d with
  | ramfs handle stSize =>
    simp only [ReadDevice.read, Unclipped, iff_true]
    split_ifs with h
    · exact (respectsBuffer_iff le_rfl).mpr ⟨hcnt.1, rfl⟩
    · exact (clip_respects_iff hd hoffset hcnt).mpr (.inl (by simp at h; omega))
  | fbdev smemLen =>
    cases smemLen with
    | none => simp [ReadDevice.read, Unclipped, RespectsBuffer, hcnt.1]
    | some n =>
      have hn : n < 2 ^ 32 := hd n rfl
      simp only [Unclipped, Option.mem_some_iff, forall_eq']
      exact clip_respects_iff ⟨Int.natCast_nonneg n, by omega⟩ hoffset hcnt

/-! ## The terminal -/

section Terminal

variable {s s₀ s' : TerminalState} {op : TerminalOp} {tr : List (Event TerminalState TerminalOp)}
  {first read : ℕ} {offset cnt : ℤ}

def Stores (e : Event TerminalState TerminalOp) : Bool :=
  match e.act, e.pre.point with
  | .read, .copy _ => true
  | _, _ => false

def KeyBefore (e : Event TerminalState TerminalOp) : Bool :=
  match e.act, e.pre.point with
  | .key _, .wait => true
  | .key _, .test _ => true
  | .key _, .copy _ => true
  | _, _ => false

def KeyBetween (e : Event TerminalState TerminalOp) : Bool :=
  match e.act, e.pre.point with
  | .key _, .print => true
  | .key _, .count => true
  | _, _ => false

/-- The number of bytes that the call stores to the buffer. -/
def bytesStored (tr : List (Event TerminalState TerminalOp)) : ℕ := tr.countP Stores

/-- The keys that arrive until the copy has come to the end of the stream. -/
def keysBefore (tr : List (Event TerminalState TerminalOp)) : ℕ := tr.countP KeyBefore

/-- The keys that arrive after the copy and before the characters are counted. -/
def keysBetween (tr : List (Event TerminalState TerminalOp)) : ℕ := tr.countP KeyBetween

/-- What a call has stored and counted at each of its points. -/
def Accounts (first : ℕ) (tr : List (Event TerminalState TerminalOp)) (s : TerminalState) : Prop :=
  match s.point with
  | .idle => True
  | .wait => bytesStored tr = 0 ∧ keysBetween tr = 0 ∧
      s.terminal.streamIndex = first + keysBefore tr
  | .test i => bytesStored tr = i ∧ keysBetween tr = 0 ∧
      s.terminal.streamIndex = first + keysBefore tr ∧ i ≤ s.terminal.streamIndex
  | .copy i => bytesStored tr = i ∧ keysBetween tr = 0 ∧
      s.terminal.streamIndex = first + keysBefore tr ∧ i < s.terminal.streamIndex
  | .reset read => bytesStored tr = first + keysBefore tr ∧ read = bytesStored tr + keysBetween tr
  | .ret read => bytesStored tr = first + keysBefore tr ∧ read = bytesStored tr + keysBetween tr
  | _ => bytesStored tr = first + keysBefore tr ∧
      s.terminal.streamIndex = bytesStored tr + keysBetween tr

theorem streamIndex_push {t t' : Terminal} {c : BitVec 8} (h : terminalStreamPush t c = some t') :
    t'.streamIndex = t.streamIndex + 1 := by
  obtain ⟨t₁, ht₁, rfl⟩ := Option.map_eq_some_iff.mp h
  have hsame : t₁.streamIndex = t.streamIndex := by
    unfold Terminal.realloc at ht₁
    split_ifs at ht₁
    · cases ht₁
      rfl
    · obtain ⟨n, -, rfl⟩ := Option.map_eq_some_iff.mp ht₁
      rfl
    · cases ht₁
      rfl
  exact congrArg (· + 1) hsame

theorem counts_snoc (e : Event TerminalState TerminalOp) :
    bytesStored (tr ++ [e]) = bytesStored tr + (Stores e).toNat ∧
      keysBefore (tr ++ [e]) = keysBefore tr + (KeyBefore e).toNat ∧
      keysBetween (tr ++ [e]) = keysBetween tr + (KeyBetween e).toNat := by
  have hone : ∀ p : Event TerminalState TerminalOp → Bool,
      countP p (tr ++ [e]) = countP p tr + (p e).toNat := by
    intro p
    rw [countP_append, countP_singleton]
    cases p e <;> rfl
  exact ⟨hone _, hone _, hone _⟩

theorem Accounts.key {c : BitVec 8} (h : Accounts first tr s)
    (hstep : terminalStep s (.key c) s') : Accounts first (tr ++ [⟨s, .key c, s'⟩]) s' := by
  unfold terminalStep terminalNext at hstep
  dsimp only at hstep
  split_ifs at hstep with hopen
  obtain ⟨t', ht', rfl⟩ := Option.map_eq_some_iff.mp hstep
  have hindex := streamIndex_push ht'
  obtain ⟨hstored, hbefore, hbetween⟩ :=
    @counts_snoc tr ⟨s, .key c, { s with terminal := t' }⟩
  unfold Accounts at h ⊢
  rw [hstored, hbefore, hbetween]
  cases hpoint : s.point with
  | idle => trivial
  | printing length =>
    rw [hpoint] at hopen
    simp [ReadPoint.Interruptible] at hopen
  | _ =>
    rw [hpoint] at h
    simp only [Stores, KeyBefore, KeyBetween, hpoint, Bool.toNat_true, Bool.toNat_false] at h ⊢
    omega

theorem Accounts.readNext (h : Accounts first tr s) (hstep : readNext s = some s') :
    Accounts first (tr ++ [⟨s, .read, s'⟩]) s' := by
  unfold Pastoral.readNext at hstep
  obtain ⟨hstored, hbefore, hbetween⟩ := @counts_snoc tr ⟨s, .read, s'⟩
  unfold Accounts at h ⊢
  rw [hstored, hbefore, hbetween]
  cases hpoint : s.point with
  | idle =>
    rw [hpoint] at hstep
    simp at hstep
  | ret read =>
    rw [hpoint] at hstep
    cases hstep
    trivial
  | _ =>
    rw [hpoint] at h hstep
    dsimp only at h hstep
    try split_ifs at hstep
    all_goals
      cases hstep
      simp only [Stores, KeyBefore, KeyBetween, hpoint, Bool.toNat_true, Bool.toNat_false] at h ⊢
      omega

/-- **One call of `terminal_read`**, with keys at any of its points: it respects the buffer if and
only if no more characters than `cnt` arrive until the end of its copy, and none from there to the
count. -/
theorem terminal_respects_iff (run : Run terminalStep s₀ tr s) (hcall : s₀.point = .wait)
    (hone : ∀ e ∈ tr, e.pre.point ≠ .idle) (hret : s.point = .ret read) :
    RespectsBuffer (bytesStored tr) read offset cnt ↔
      s₀.terminal.streamIndex + keysBefore tr ≤ cnt ∧ keysBetween tr = 0 := by
  have hinit : Accounts s₀.terminal.streamIndex [] s₀ := by
    rw [Accounts, hcall]
    exact ⟨rfl, rfl, rfl⟩
  have haccounts : Accounts s₀.terminal.streamIndex tr s := by
    refine run.guarded hinit (fun tr s op s' h hstep hbusy => ?_) hone
    cases op with
    | key c => exact h.key hstep
    | call buffer =>
      unfold terminalStep terminalNext at hstep
      dsimp only at hstep
      rw [if_neg hbusy] at hstep
      simp at hstep
    | read => exact h.readNext hstep
  rw [Accounts, hret] at haccounts
  rw [respectsBuffer_iff (Int.natCast_nonneg read)]
  omega

end Terminal

/-! ## The pipe -/

section Pipe

variable {s s₀ s' : PipeState} {op : PipeOp} {tr : List (Event PipeState PipeOp)}
  {position cnt : ℤ}

/-- Between the two reads of `st_size` no write takes it above the end of the range. -/
def StaysBelow (tr : List (Event PipeState PipeOp)) (limit : ℤ) : Prop :=
  ∀ e ∈ tr, e.pre.reader = .clipping → e.post.stSize ≤ limit
  deriving Decidable

def Reader.Clips (tr : List (Event PipeState PipeOp)) (cnt size position : ℤ) : Reader → Prop
  | .idle => True
  | .entered n => n = cnt ∧ StaysBelow tr (position + cnt)
  | .ready n => n = cnt ∧ StaysBelow tr (position + cnt)
  | .clipping => StaysBelow tr (position + cnt) ↔ size ≤ position + cnt
  | .copying n _ _ => StaysBelow tr (position + cnt) ↔ n ≤ cnt

theorem staysBelow_snoc {e : Event PipeState PipeOp} {limit : ℤ} : StaysBelow (tr ++ [e]) limit ↔
    StaysBelow tr limit ∧ (e.pre.reader = .clipping → e.post.stSize ≤ limit) := by
  simp [StaysBelow, or_imp, forall_and]

/-- A step of a write changes neither the position nor the reader, and `st_size` only grows. -/
theorem writerNext_reader (hshape : PipeShape s) (hstep : writerNext s = some s') :
    s'.reader = s.reader ∧ s'.readPosition = s.readPosition ∧ s.stSize ≤ s'.stSize := by
  unfold Pastoral.writerNext at hstep
  have hwriter := hshape.writer
  cases hw : s.writer with
  | idle =>
    rw [hw] at hstep
    simp at hstep
  | clipped buf n =>
    rw [hw] at hstep hwriter
    cases hstep
    refine ⟨rfl, rfl, ?_⟩
    dsimp only
    split_ifs <;> omega
  | _ =>
    rw [hw] at hstep
    dsimp only at hstep
    try split_ifs at hstep
    all_goals
      cases hstep
      exact ⟨rfl, rfl, le_rfl⟩

theorem Reader.Clips.writer (h : s.reader.Clips tr cnt s.stSize position)
    (hreader : s'.reader = s.reader) (hgrows : s.stSize ≤ s'.stSize) :
    s'.reader.Clips (tr ++ [⟨s, op, s'⟩]) cnt s'.stSize position := by
  rw [hreader]
  cases hr : s.reader with
  | idle => trivial
  | clipping =>
    rw [hr] at h
    have hbelow : StaysBelow tr (position + cnt) ↔ s.stSize ≤ position + cnt := h
    simp only [Reader.Clips, staysBelow_snoc, hr, forall_const, hbelow]
    omega
  | _ =>
    rw [hr] at h
    simpa [Reader.Clips, staysBelow_snoc, hr] using h

theorem Reader.Clips.reader (h : s.reader.Clips tr cnt s.stSize s.readPosition)
    (hstep : readerNext s = some s') :
    s'.reader.Clips (tr ++ [⟨s, .reader, s'⟩]) cnt s'.stSize s.readPosition := by
  unfold Pastoral.readerNext at hstep
  cases hr : s.reader with
  | idle =>
    rw [hr] at hstep
    simp at hstep
  | entered n =>
    rw [hr] at h hstep
    dsimp only at hstep
    split_ifs at hstep
    cases hstep
    simpa [Reader.Clips, staysBelow_snoc, hr] using h
  | ready n =>
    rw [hr] at h hstep
    obtain ⟨rfl, hbelow⟩ := h
    dsimp only at hstep
    split_ifs at hstep with hend
    · cases hstep
      simpa [Reader.Clips, staysBelow_snoc, hr, hbelow] using le_of_lt hend
    · cases hstep
      simp [Reader.Clips, staysBelow_snoc, hr, hbelow]
  | clipping =>
    rw [hr] at h hstep
    cases hstep
    have hbelow : StaysBelow tr (s.readPosition + cnt) ↔ s.stSize ≤ s.readPosition + cnt := h
    simp only [Reader.Clips, staysBelow_snoc, hr, forall_const, hbelow]
    omega
  | copying n i buf =>
    rw [hr] at h hstep
    dsimp only at hstep
    split_ifs at hstep
    · cases hstep
      simpa [Reader.Clips, staysBelow_snoc, hr] using h
    · cases hstep
      trivial

theorem readerNext_position (hstep : readerNext s = some s') (hidle : s'.reader ≠ .idle) :
    s'.readPosition = s.readPosition := by
  unfold Pastoral.readerNext at hstep
  cases hr : s.reader with
  | idle =>
    rw [hr] at hstep
    simp at hstep
  | _ =>
    rw [hr] at hstep
    dsimp only at hstep
    try split_ifs at hstep
    all_goals
      cases hstep
      first
      | rfl
      | exact absurd rfl hidle

/-- **One call of `pipe_read`** among any writes: it respects the buffer if and only if no write
takes `st_size` above the end of its range between the two reads of it. -/
theorem pipe_respects_iff (hshape : PipeShape s₀) (run : Run pipeStep s₀ tr s)
    (hcall : s₀.reader = .entered cnt) (hone : ∀ e ∈ tr, e.pre.reader ≠ .idle) {n : ℤ} {i : ℕ}
    {buf : List (BitVec 8)} (hret : s.reader = .copying n i buf) (hend : ¬ i < sizeT n) :
    RespectsBuffer buf.length n s.readPosition cnt ↔ StaysBelow tr (s₀.readPosition + cnt) := by
  have hinv : PipeShape s ∧ (s.reader ≠ .idle → s.readPosition = s₀.readPosition ∧
      s.reader.Clips tr cnt s.stSize s₀.readPosition) := by
    refine run.guarded (I := fun tr s => PipeShape s ∧ (s.reader ≠ .idle →
      s.readPosition = s₀.readPosition ∧ s.reader.Clips tr cnt s.stSize s₀.readPosition))
      ⟨hshape, fun _ => ⟨rfl, ?_⟩⟩ (fun tr s op s' h hstep hbusy => ⟨h.1.step hstep, ?_⟩) hone
    · rw [hcall]
      exact ⟨rfl, by simp [StaysBelow]⟩
    · obtain ⟨hshape, hin⟩ := h
      intro hidle
      cases op with
      | read n =>
        unfold pipeStep pipeNext at hstep
        dsimp only at hstep
        rw [if_neg fun h => hbusy h.1] at hstep
        simp at hstep
      | writer =>
        obtain ⟨hreader, hposition, hgrows⟩ := writerNext_reader hshape hstep
        obtain ⟨hfirst, hclips⟩ := hin hbusy
        exact ⟨hposition.trans hfirst, hclips.writer hreader hgrows⟩
      | reader =>
        obtain ⟨hfirst, hclips⟩ := hin hbusy
        have hposition := readerNext_position hstep hidle
        rw [← hfirst] at hclips ⊢
        exact ⟨hposition, hclips.reader hstep⟩
      | write buf =>
        unfold pipeStep pipeNext at hstep
        dsimp only at hstep
        split_ifs at hstep
        cases hstep
        obtain ⟨hfirst, hclips⟩ := hin hbusy
        exact ⟨hfirst, hclips.writer rfl le_rfl⟩
  obtain ⟨hlast, hin⟩ := hinv
  obtain ⟨-, hclips⟩ := hin (by rw [hret]; exact nofun)
  have hreader := hlast.reader
  rw [hret] at hclips hreader
  obtain ⟨hnonneg, hrange, hi, hlen⟩ := hreader
  have hsize := hlast.size
  have hstart := hlast.start
  have hall := sizeT_of_nonneg hnonneg (by omega)
  have hiff : StaysBelow tr (s₀.readPosition + cnt) ↔ n ≤ cnt := hclips
  rw [respectsBuffer_iff hnonneg, hiff]
  omega

end Pipe

/-- **When a read respects the buffer of its caller**, for every function that `fd_read` calls:
`ramfs_read` and `fbdev_read`, one call of `terminal_read` with keys at any point, and one call of
`pipe_read` in a state that is reached from an empty pipe. -/
theorem read_respects_iff {cnt offset : ℤ} (hoffset : -2 ^ 63 ≤ offset ∧ offset < 2 ^ 63)
    (hcnt : 0 ≤ cnt ∧ cnt < 2 ^ 63) :
    (∀ d : ReadDevice, d.Valid →
      (RespectsBuffer (d.read offset cnt).1 (d.read offset cnt).2 offset cnt ↔
        Unclipped offset cnt d)) ∧
    (∀ s₀ tr s read, Run terminalStep s₀ tr s → s₀.point = .wait →
      (∀ e ∈ tr, e.pre.point ≠ .idle) → s.point = .ret read →
      (RespectsBuffer (bytesStored tr) read offset cnt ↔
        s₀.terminal.streamIndex + keysBefore tr ≤ cnt ∧ keysBetween tr = 0)) ∧
    ∀ buffer before s₀ tr s n i buf, Run pipeStep (pipeInit buffer) before s₀ →
      s₀.reader = .entered cnt → Run pipeStep s₀ tr s → (∀ e ∈ tr, e.pre.reader ≠ .idle) →
      s.reader = .copying n i buf → ¬ i < sizeT n →
      (RespectsBuffer buf.length n s.readPosition cnt ↔
        StaysBelow tr (s₀.readPosition + cnt)) := by
  refine ⟨fun d hd => device_respects_iff hd hoffset hcnt,
    fun s₀ tr s read run hcall hone hret => terminal_respects_iff run hcall hone hret, ?_⟩
  intro buffer before s₀ tr s n i buf hbefore hcall run hone hret hend
  have hshape := hbefore.invariant (I := fun _ s => PipeShape s) (pipeShape_init buffer)
    fun _ _ _ _ h hstep => h.step hstep
  exact pipe_respects_iff hshape run hcall hone hret hend

def typedOne : TerminalState :=
  ⟨⟨Function.update (fun _ => 0#8) 0 0x61#8, 1, 0x1000, 8192⟩, .wait, fun _ => 0#8⟩

/-- Another character arrives during the copy. -/
def typedDuringCopy : List TerminalOp :=
  [.read, .read, .key 0x62#8, .read, .read, .read, .read, .read, .read, .read, .read]

def readingOne : PipeState := { pipeInit fun _ => 0#8 with reader := .entered 1 }

/-- A write goes on between the two reads of `st_size`. -/
def overlapped (buf : List (BitVec 8)) : List PipeOp :=
  .reader :: .reader :: .write buf :: replicate (buf.length + 4) .writer ++
    replicate (buf.length + 1) .reader

theorem typedOne_reached : ∃ before, Run terminalStep (terminalInit fun _ => 0#8) before typedOne :=
  ⟨_, (Run.nil.snoc (show terminalNext _ (.key 0x61#8) = some { typedOne with point := .idle } from
    rfl)).snoc (show terminalNext _ (.call fun _ => 0#8) = _ from rfl)⟩

theorem readingOne_reached : ∃ before, Run pipeStep (pipeInit fun _ => 0#8) before readingOne :=
  ⟨_, Run.nil.snoc (show pipeNext _ (.read 1) = _ from rfl)⟩

theorem typedDuringCopy_run : ∃ tr s, Run terminalStep typedOne tr s ∧
    (∀ e ∈ tr, e.pre.point ≠ .idle) ∧ s.point = .ret 2 ∧ bytesStored tr = 2 ∧
      keysBefore tr = 1 ∧ keysBetween tr = 0 := by
  obtain ⟨tr, s, run, -, hvalues⟩ := Run.computed (f := terminalNext)
    (P := fun tr s => (∀ e ∈ tr, e.pre.point ≠ .idle) ∧ s.point = .ret 2 ∧ bytesStored tr = 2 ∧
      keysBefore tr = 1 ∧ keysBetween tr = 0) typedOne typedDuringCopy (by decide +kernel)
  exact ⟨tr, s, run, hvalues⟩

theorem overlapped_run {buf : List (BitVec 8)} {below : Bool}
    (h : (trace pipeNext readingOne (overlapped buf)).any fun r => decide
      ((∀ e ∈ r.1, e.pre.reader ≠ .idle) ∧ r.2.reader = .copying buf.length buf.length buf ∧
        decide (StaysBelow r.1 1) = below)) :
    ∃ tr s, Run pipeStep readingOne tr s ∧ (∀ e ∈ tr, e.pre.reader ≠ .idle) ∧
      s.reader = .copying buf.length buf.length buf ∧ (StaysBelow tr 1 ↔ below) := by
  obtain ⟨tr, s, run, -, hbusy, hreader, rfl⟩ := Run.computed (P := fun tr s =>
    (∀ e ∈ tr, e.pre.reader ≠ .idle) ∧ s.reader = .copying buf.length buf.length buf ∧
      decide (StaysBelow tr 1) = below) _ _ h
  exact ⟨tr, s, run, hbusy, hreader, decide_eq_true_iff.symm⟩

/-- A `terminal_read` of two bytes with a key during its copy, and a `pipe_read` of one byte that is
overlapped by a write of one byte. -/
theorem read_respects_iff_overlapped :
    (∃ tr s, Run terminalStep typedOne tr s ∧ s.point = .ret 2 ∧ bytesStored tr = 2 ∧
      RespectsBuffer (bytesStored tr) 2 0 2) ∧
    ∃ tr s, Run pipeStep readingOne tr s ∧ s.reader = .copying 1 1 [7#8] ∧
      RespectsBuffer 1 1 s.readPosition 1 := by
  obtain ⟨tr, s, run, hbusy, hret, hstored, hbefore, hbetween⟩ := typedDuringCopy_run
  obtain ⟨tr', s', run', hbusy', hreader, hbelow⟩ := @overlapped_run [7#8] true (by decide +kernel)
  refine ⟨⟨tr, s, run, hret, hstored, ?_⟩, tr', s', run', hreader, ?_⟩
  · refine ((@read_respects_iff 2 0 (by decide) (by decide)).2.1 typedOne tr s 2 run rfl hbusy
      hret).mpr ⟨?_, hbetween⟩
    rw [hbefore]
    decide
  · obtain ⟨_, before⟩ := readingOne_reached
    exact ((@read_respects_iff 1 0 (by decide) (by decide)).2.2 _ _ _ _ _ _ _ _ before rfl run'
      hbusy' hreader (by decide)).mpr (hbelow.mpr rfl)

/-- **More than was asked for**: a `terminal_read` of one byte stores two characters, a `pipe_read`
of one byte that a write of three bytes overlaps stores three, and an `fbdev_read` of one byte at
position 17 of 16 bytes copies 2 ^ 64 - 1. -/
theorem count_ignored :
    ((∃ before, Run terminalStep (terminalInit fun _ => 0#8) before typedOne) ∧
      ∃ tr s, Run terminalStep typedOne tr s ∧ s.point = .ret 2 ∧ bytesStored tr = 2 ∧
      ¬ RespectsBuffer (bytesStored tr) 2 0 1) ∧
    ((∃ before, Run pipeStep (pipeInit fun _ => 0#8) before readingOne) ∧
      ∃ tr s, Run pipeStep readingOne tr s ∧ s.reader = .copying 3 3 [7#8, 8#8, 9#8] ∧
      ¬ RespectsBuffer 3 3 s.readPosition 1) ∧
    (ReadDevice.fbdev (some 16)).read 17 1 = (2 ^ 64 - 1, -1) ∧
    ¬ RespectsBuffer (2 ^ 64 - 1) (-1) 17 1 := by
  obtain ⟨tr, s, run, -, hret, hstored, -, -⟩ := typedDuringCopy_run
  obtain ⟨tr', s', run', -, hreader, -⟩ :=
    @overlapped_run [7#8, 8#8, 9#8] false (by decide +kernel)
  refine ⟨⟨typedOne_reached, tr, s, run, hret, hstored, fun h => ?_⟩,
    ⟨readingOne_reached, tr', s', run', hreader, fun h => ?_⟩, by decide, fun h => ?_⟩
  · rw [hstored] at h
    exact absurd h.1 (by decide)
  · exact absurd h.1 (by decide)
  · exact absurd h.1 (by decide)

end Pastoral
