import Pastoral.Mm.Alloc
import Pastoral.Theory.ByteMemory
import Pastoral.Theory.Run

/-!
# Keys and the terminal

`terminal.c`: the interrupt of the keyboard appends to the stream of the terminal, and
`terminal_read` copies the stream to its caller, prints it, reads the number of characters and sets
it to zero.

## Main results

* `keystrokes_kept`: no key is lost unless it comes between the copy and the zero
-/

open ByteMemory Function List Option Transition

namespace Pastoral

/-! ## Statements -/

structure Terminal where
  stream : ℕ → BitVec 8
  streamIndex : ℕ
  streamCapacity : ℕ
  objectSize : ℕ

def Terminal.realloc (t : Terminal) (size : ℕ) : Option Terminal :=
  if t.objectSize ≥ size then some t
  else
    (allocSize size).map fun objectSize =>
      { t with
        stream := fun i => if i < t.objectSize then t.stream i else 0#8
        objectSize := objectSize }

def terminalStreamPush (t : Terminal) (c : BitVec 8) : Option Terminal :=
  (if t.streamCapacity ≤ t.streamIndex then
      { t with streamCapacity := t.streamCapacity + 0x1000 }.realloc (t.streamCapacity + 0x1000)
    else some t).map fun t =>
      { t with
        stream := update t.stream t.streamIndex c
        streamIndex := t.streamIndex + 1 }

inductive ReadPoint
  | idle
  | wait
  | test (i : ℕ)
  | copy (i : ℕ)
  | print
  | printing (length : ℕ)
  | count
  | reset (read : ℕ)
  | ret (read : ℕ)
  deriving DecidableEq, Repr

structure TerminalState where
  terminal : Terminal
  point : ReadPoint
  buffer : ℕ → BitVec 8

def readNext (s : TerminalState) : Option TerminalState :=
  match s.point with
  | .idle => none
  | .wait =>
    if s.terminal.streamIndex = 0 then some s else some { s with point := .test 0 }
  | .test i =>
    if i < s.terminal.streamIndex then some { s with point := .copy i }
    else some { s with point := .print }
  | .copy i =>
    some { s with
      buffer := update s.buffer i (s.terminal.stream i)
      point := .test (i + 1) }
  | .print => some { s with point := .printing s.terminal.streamIndex }
  | .printing length => if (allocSize length).isSome then some { s with point := .count } else none
  | .count => some { s with point := .reset s.terminal.streamIndex }
  | .reset read =>
    some { s with
      terminal := { s.terminal with streamIndex := 0 }
      point := .ret read }
  | .ret _ => some { s with point := .idle }

inductive TerminalOp
  | key (c : BitVec 8)
  | call (buffer : ℕ → BitVec 8)
  | read

def ReadPoint.Interruptible : ReadPoint → Bool
  | .printing _ => false
  | _ => true

def terminalNext (s : TerminalState) : TerminalOp → Option TerminalState
  | .key c =>
    if s.point.Interruptible then
      (terminalStreamPush s.terminal c).map fun t => { s with terminal := t }
    else none
  | .call buffer => if s.point = .idle then some { s with point := .wait, buffer := buffer } else none
  | .read => readNext s

/-- One step, as a relation. -/
def terminalStep (s : TerminalState) (op : TerminalOp) (s' : TerminalState) : Prop :=
  terminalNext s op = some s'

def terminalInit (buffer : ℕ → BitVec 8) : TerminalState :=
  ⟨⟨fun _ => 0#8, 0, 0x1000, 8192⟩, .idle, buffer⟩

example : allocSize 0x1000 = some 8192 := by decide

/-! ## Runs -/

def Terminal.contents (t : Terminal) : List (BitVec 8) := load t.stream 0 t.streamIndex

def keysOf (tr : List (Event TerminalState TerminalOp)) : List (BitVec 8) :=
  tr.flatMap fun e => match e.act with
    | .key c => [c]
    | _ => []

def TerminalState.returning (s : TerminalState) : List (BitVec 8) :=
  match s.point with
  | .ret read => load s.buffer 0 read
  | _ => []

def deliveredIn (tr : List (Event TerminalState TerminalOp)) : List (BitVec 8) :=
  tr.flatMap fun e => match e.act with
    | .read => e.pre.returning
    | _ => []

def ReadPoint.Copied : ReadPoint → Bool
  | .print => true
  | .printing _ => true
  | .count => true
  | .reset _ => true
  | _ => false

/-- **A timely step**: no key arrives between the end of the copy and the zero. -/
def Timely (s : TerminalState) : TerminalOp → Prop
  | .key _ => s.point.Copied = false
  | _ => True

instance (s : TerminalState) : (op : TerminalOp) → Decidable (Timely s op)
  | .key _ => inferInstanceAs (Decidable (_ = _))
  | .call _ => .isTrue trivial
  | .read => .isTrue trivial

def TerminalState.CopiedUpTo (s : TerminalState) (n : ℕ) : Prop :=
  n ≤ s.terminal.streamIndex ∧ load s.buffer 0 n = load s.terminal.stream 0 n

def TerminalState.Copying (s : TerminalState) : Prop :=
  match s.point with
  | .test i => s.CopiedUpTo i
  | .copy i => i < s.terminal.streamIndex ∧ s.CopiedUpTo i
  | .print => s.CopiedUpTo s.terminal.streamIndex
  | .printing _ => s.CopiedUpTo s.terminal.streamIndex
  | .count => s.CopiedUpTo s.terminal.streamIndex
  | .reset read => read = s.terminal.streamIndex ∧ s.CopiedUpTo read
  | _ => True

structure Terminal.Inside (t : Terminal) : Prop where
  index : t.streamIndex ≤ t.streamCapacity
  capacity : t.streamCapacity ≤ t.objectSize
  object : t.objectSize ≤ 16384

structure TerminalInv (tr : List (Event TerminalState TerminalOp)) (s : TerminalState) : Prop where
  inside : s.terminal.Inside
  copying : s.Copying
  kept : deliveredIn tr ++ s.returning ++ s.terminal.contents = keysOf tr

section Steps

variable {s s' : TerminalState} {t t' : Terminal} {c : BitVec 8} {op : TerminalOp}
  {tr : List (Event TerminalState TerminalOp)}

theorem lt_allocSize {size n : ℕ} (hlt : size < 2 ^ 32) (h : allocSize size = some n) :
    size < n ∧ n ≤ 16384 := by
  unfold allocSize at h
  split_ifs at h with hzero
  have hround : pow2Roundup (wrap (size + 1)) = 2 ^ (Nat.log2 size + 1) := by
    rw [wrap_of_lt (by omega)]
    exact pow2Roundup_succ hzero hlt
  have hself : size < 2 ^ (Nat.log2 size + 1) := Nat.lt_log2_self
  have hsizes : ∀ c ∈ cacheSizes, c ≤ 16384 := by decide
  dsimp only at h
  rw [hround] at h
  split_ifs at h with hsmall hmem hmem
  · cases h
    exact ⟨by omega, by omega⟩
  · cases h
    exact ⟨hself, hsizes _ hmem⟩

theorem Terminal.realloc_spec {size : ℕ} (hobject : t.objectSize ≤ 16384) (hlt : size < 2 ^ 32)
    (h : t.realloc size = some t') :
    (t'.streamIndex = t.streamIndex ∧ t'.streamCapacity = t.streamCapacity) ∧
      (size ≤ t'.objectSize ∧ t'.objectSize ≤ 16384) ∧
      ∀ i < t.objectSize, t'.stream i = t.stream i := by
  unfold Terminal.realloc at h
  split_ifs at h with hroom
  · cases h
    exact ⟨⟨rfl, rfl⟩, ⟨hroom, hobject⟩, fun _ _ => rfl⟩
  · obtain ⟨n, hn, rfl⟩ := map_eq_some_iff.mp h
    obtain ⟨hsize, hle⟩ := lt_allocSize hlt hn
    exact ⟨⟨rfl, rfl⟩, ⟨le_of_lt hsize, hle⟩, fun i hi => if_pos hi⟩

theorem terminalStreamPush_spec (hinside : t.Inside) (h : terminalStreamPush t c = some t') :
    t'.Inside ∧ t'.streamIndex = t.streamIndex + 1 ∧ t'.stream t.streamIndex = c ∧
      ∀ i < t.streamIndex, t'.stream i = t.stream i := by
  obtain ⟨hindex, hcapacity, hobject⟩ := hinside
  obtain ⟨t₁, ht₁, rfl⟩ := map_eq_some_iff.mp h
  have hroom : t₁.streamIndex = t.streamIndex ∧ (t₁.streamIndex < t₁.streamCapacity ∧
      t₁.streamCapacity ≤ t₁.objectSize ∧ t₁.objectSize ≤ 16384) ∧
        ∀ i < t.streamIndex, t₁.stream i = t.stream i := by
    split_ifs at ht₁ with hfull
    · have hlt : t.streamCapacity + 0x1000 < 2 ^ 32 := by omega
      obtain ⟨⟨hidx, hcap⟩, ⟨hsize, hle⟩, hstream⟩ := Terminal.realloc_spec
        (t := { t with streamCapacity := t.streamCapacity + 0x1000 }) hobject hlt ht₁
      dsimp only at hidx hcap hstream
      exact ⟨hidx, ⟨by omega, by omega, hle⟩, fun i hi => hstream i (by omega)⟩
    · cases ht₁
      exact ⟨rfl, ⟨by omega, hcapacity, hobject⟩, fun _ _ => rfl⟩
  obtain ⟨hidx, ⟨hlt, hcap, hle⟩, hstream⟩ := hroom
  refine ⟨⟨hlt, hcap, hle⟩, by dsimp only; omega, ?_, fun i hi => ?_⟩
  · dsimp only
    rw [← hidx, update_self]
  · dsimp only
    rw [update_of_ne (by omega), hstream i hi]

theorem contents_push (hinside : t.Inside) (h : terminalStreamPush t c = some t') :
    t'.contents = t.contents ++ [c] := by
  obtain ⟨-, hidx, hlast, hold⟩ := terminalStreamPush_spec hinside h
  unfold Terminal.contents
  rw [hidx, load_succ, zero_add, hlast]
  refine congrArg (· ++ [c]) (load_of_agree fun x _ hlt => hold x ?_)
  omega

theorem keysOf_snoc (e : Event TerminalState TerminalOp) :
    keysOf (tr ++ [e]) = keysOf tr ++ keysOf [e] := flatMap_append

theorem deliveredIn_snoc (e : Event TerminalState TerminalOp) :
    deliveredIn (tr ++ [e]) = deliveredIn tr ++ deliveredIn [e] := flatMap_append

theorem TerminalInv.key (h : TerminalInv tr s) (htimely : s.point.Copied = false)
    (hstep : terminalStep s (.key c) s') : TerminalInv (tr ++ [⟨s, .key c, s'⟩]) s' := by
  obtain ⟨hinside, hcopying, hkept⟩ := h
  unfold terminalStep terminalNext at hstep
  dsimp only at hstep
  split_ifs at hstep
  obtain ⟨t', ht', rfl⟩ := map_eq_some_iff.mp hstep
  obtain ⟨hinside', hidx, -, hold⟩ := terminalStreamPush_spec hinside ht'
  have hcopied : ∀ n, s.CopiedUpTo n → ({ s with terminal := t' } : TerminalState).CopiedUpTo n := by
    rintro n ⟨hle, hload⟩
    refine ⟨by dsimp only; omega, hload.trans (load_of_agree fun x _ hlt => ?_)⟩
    exact (hold x (by omega)).symm
  refine ⟨hinside', ?_, ?_⟩
  · unfold TerminalState.Copying at hcopying ⊢
    dsimp only
    cases hpoint : s.point with
    | test i =>
      rw [hpoint] at hcopying
      exact hcopied i hcopying
    | copy i =>
      rw [hpoint] at hcopying
      exact ⟨lt_of_lt_of_le hcopying.1 (by omega), hcopied i hcopying.2⟩
    | idle => trivial
    | wait => trivial
    | ret read => trivial
    | _ =>
      rw [hpoint] at htimely
      exact absurd htimely (by simp [ReadPoint.Copied])
  · have hkeys : keysOf [⟨s, .key c, { s with terminal := t' }⟩] = [c] := rfl
    have hnone : deliveredIn [⟨s, .key c, { s with terminal := t' }⟩] = [] := rfl
    rw [keysOf_snoc, deliveredIn_snoc, hkeys, hnone, append_nil, ← hkept, append_assoc,
      append_assoc, append_assoc, ← contents_push hinside ht']
    rfl

theorem TerminalInv.of_read (h : TerminalInv tr s) (hinside : s'.terminal.Inside)
    (hcopying : s'.Copying) (hsame : s'.returning ++ s'.terminal.contents = s.terminal.contents) :
    TerminalInv (tr ++ [⟨s, .read, s'⟩]) s' := by
  refine ⟨hinside, hcopying, ?_⟩
  have hkeys : keysOf [⟨s, .read, s'⟩] = [] := rfl
  have hone : deliveredIn [⟨s, .read, s'⟩] = s.returning := append_nil _
  rw [keysOf_snoc, deliveredIn_snoc, hkeys, hone, append_nil, append_assoc, hsame]
  exact h.kept

theorem TerminalInv.read (h : TerminalInv tr s) (hstep : readNext s = some s') :
    TerminalInv (tr ++ [⟨s, .read, s'⟩]) s' := by
  have hinside := h.inside
  have hcopying := h.copying
  unfold readNext at hstep
  unfold TerminalState.Copying at hcopying
  cases hpoint : s.point with
  | idle =>
    rw [hpoint] at hstep
    simp at hstep
  | wait =>
    rw [hpoint] at hstep
    split_ifs at hstep
    · cases hstep
      refine h.of_read hinside h.copying ?_
      rw [TerminalState.returning, hpoint]
      rfl
    · cases hstep
      exact h.of_read hinside ⟨Nat.zero_le _, rfl⟩ rfl
  | test i =>
    rw [hpoint] at hstep hcopying
    dsimp only at hstep hcopying
    split_ifs at hstep with hlt
    · cases hstep
      exact h.of_read hinside ⟨hlt, hcopying⟩ rfl
    · -- The test fails when all of the stream has been copied.
      cases hstep
      have hall := le_antisymm hcopying.1 (Nat.le_of_not_lt hlt)
      rw [hall] at hcopying
      exact h.of_read hinside hcopying rfl
  | copy i =>
    rw [hpoint] at hstep hcopying
    cases hstep
    obtain ⟨hlt, -, hload⟩ := hcopying
    refine h.of_read hinside ⟨hlt, ?_⟩ rfl
    dsimp only
    rw [load_succ, load_succ, zero_add, update_self, ← hload]
    refine congrArg (· ++ _) (load_of_agree fun x _ hx => update_of_ne ?_ _ _)
    omega
  | print =>
    rw [hpoint] at hstep hcopying
    cases hstep
    exact h.of_read hinside hcopying rfl
  | printing length =>
    rw [hpoint] at hstep hcopying
    dsimp only at hstep
    split_ifs at hstep
    cases hstep
    exact h.of_read hinside hcopying rfl
  | count =>
    rw [hpoint] at hstep hcopying
    cases hstep
    exact h.of_read hinside ⟨rfl, hcopying⟩ rfl
  | reset read =>
    rw [hpoint] at hstep hcopying
    cases hstep
    obtain ⟨rfl, -, hload⟩ := hcopying
    refine h.of_read ⟨Nat.zero_le _, hinside.capacity, hinside.object⟩ trivial ?_
    exact (append_nil _).trans hload
  | ret read =>
    rw [hpoint] at hstep
    cases hstep
    exact h.of_read hinside trivial rfl

theorem TerminalInv.step (h : TerminalInv tr s) (hstep : terminalStep s op s')
    (htimely : Timely s op) : TerminalInv (tr ++ [⟨s, op, s'⟩]) s' := by
  cases op with
  | key c => exact h.key htimely hstep
  | call buffer =>
    unfold terminalStep terminalNext at hstep
    dsimp only at hstep
    split_ifs at hstep with hidle
    cases hstep
    refine ⟨h.inside, trivial, ?_⟩
    have hkept := h.kept
    rw [TerminalState.returning, hidle] at hkept
    rw [keysOf_snoc, deliveredIn_snoc]
    exact (congrArg (· ++ _) (append_nil _)).trans (hkept.trans (append_nil _).symm)
  | read => exact h.read hstep

end Steps

/-- **No keystroke is lost**: in every run whose keys are timely, what was delivered and what is in
the stream is what was pushed. -/
theorem keystrokes_kept {buffer : ℕ → BitVec 8} {tr : List (Event TerminalState TerminalOp)}
    {s : TerminalState} (run : Run terminalStep (terminalInit buffer) tr s)
    (htimely : ∀ e ∈ tr, Timely e.pre e.act) :
    deliveredIn tr ++ s.returning ++ s.terminal.contents = keysOf tr := by
  have hinit : TerminalInv [] (terminalInit buffer) :=
    ⟨⟨Nat.zero_le _, by simp [terminalInit], by simp [terminalInit]⟩, trivial, rfl⟩
  refine TerminalInv.kept ?_
  exact run.guarded hinit (fun tr s op s' h hstep ht => h.step hstep ht) htimely

def timelyKeys : List TerminalOp :=
  [.key 0x61#8, .call fun _ => 0xff#8, .read, .read, .key 0x62#8, .read, .read, .read, .read, .read,
    .read, .read, .read, .read, .key 0x63#8]

theorem keystrokes_kept_during_copy : ∃ tr s, Run terminalStep (terminalInit fun _ => 0#8) tr s ∧
      (∀ e ∈ tr, Timely e.pre e.act) ∧ keysOf tr = [0x61#8, 0x62#8, 0x63#8] ∧
      deliveredIn tr = [0x61#8, 0x62#8] ∧
      deliveredIn tr ++ s.returning ++ s.terminal.contents = keysOf tr := by
  obtain ⟨tr, s, run, -, hall, hkeys, hdelivered⟩ := Run.computed (f := terminalNext)
    (P := fun tr _ => (∀ e ∈ tr, Timely e.pre e.act) ∧ keysOf tr = [0x61#8, 0x62#8, 0x63#8] ∧
      deliveredIn tr = [0x61#8, 0x62#8]) (terminalInit fun _ => 0#8) timelyKeys (by decide +kernel)
  exact ⟨tr, s, run, hall, hkeys, hdelivered, keystrokes_kept run hall⟩

def lateKey : List TerminalOp :=
  [.key 0x61#8, .call fun _ => 0#8, .read, .read, .read, .read, .read, .read, .key 0x62#8, .read,
    .read, .read]

/-- **A keystroke is lost**: it arrives after the copy, and is counted all the same. -/
theorem keystroke_lost : ∃ tr s, Run terminalStep (terminalInit fun _ => 0#8) tr s ∧
    keysOf tr = [0x61#8, 0x62#8] ∧ deliveredIn tr = [0x61#8, 0#8] ∧ s.terminal.contents = [] ∧
    deliveredIn tr ++ s.returning ++ s.terminal.contents ≠ keysOf tr := by
  obtain ⟨tr, s, run, -, hvalues⟩ := Run.computed (f := terminalNext)
    (P := fun tr s => keysOf tr = [0x61#8, 0x62#8] ∧ deliveredIn tr = [0x61#8, 0#8] ∧
      s.terminal.contents = [] ∧ deliveredIn tr ++ s.returning ++ s.terminal.contents ≠ keysOf tr)
    (terminalInit fun _ => 0#8) lateKey (by decide +kernel)
  exact ⟨tr, s, run, hvalues⟩

end Pastoral
