import Pastoral.Fs.OpenAccess

/-!
# The access mode of an open file

`fd_read` and `fd_write` check the mode that `fd_openat` or `syscall_pipe` stored in the flags of
the file.

## Main results

* `access_mode_kept_iff`: the mode is kept until an `F_SETFL`
-/

open Function List Option Transition

namespace Pastoral

/-! ## Calls -/

abbrev errnoENODEV : BitVec 64 := 1042#64
abbrev errnoESPIPE : BitVec 64 := 1069#64

abbrev sIfifo : BitVec 32 := 0x1000#32
abbrev sIfsock : BitVec 32 := 0xc000#32

abbrev oAppend : BitVec 32 := 8#32

structure AssetCall where
  stMode : BitVec 32
  stSize : BitVec 64
  returned : Option (BitVec 64)

def FileHandle.advance (file : FileHandle) (ret : BitVec 64) : FileHandle :=
  { file with position := if ret ≠ -1 then file.position + ret else file.position }

def FileHandle.seek (offset : BitVec 64) (whence : BitVec 32) (a : AssetCall) (file : FileHandle) :
    Except (BitVec 64) (BitVec 64 × FileHandle) :=
  if a.stMode &&& sIfmt = sIfifo ∨ a.stMode &&& sIfmt = sIfsock then .error errnoESPIPE
  else if whence = 3#32 then .ok (offset, { file with position := offset })
  else if whence = 1#32 then
    .ok (file.position + offset, { file with position := file.position + offset })
  else if whence = 2#32 then .ok (a.stSize + offset, { file with position := a.stSize + offset })
  else .error errnoEINVAL

def FileHandle.write (a : AssetCall) (file : FileHandle) :
    Except (BitVec 64) (BitVec 64 × FileHandle) :=
  match a.returned with
  | none => .error errnoENODEV
  | some ret =>
    if file.flags &&& oAccmode ≠ oWronly ∧ file.flags &&& oAccmode ≠ oRdwr then .error errnoEBADF
    else if a.stMode &&& sIfmt = sIfifo ∧ file.pipe.isSome then .ok (ret, file.advance ret)
    else if file.flags &&& oAppend ≠ 0 then
      .ok (ret, { file with position := a.stSize }.advance ret)
    else .ok (ret, file.advance ret)

def FileHandle.read (a : AssetCall) (file : FileHandle) :
    Except (BitVec 64) (BitVec 64 × FileHandle) :=
  if sIsdir a.stMode then .error errnoEISDIR
  else
    match a.returned with
    | none => .error errnoENODEV
    | some ret =>
      if file.flags &&& oAccmode ≠ oRdonly ∧ file.flags &&& oAccmode ≠ oRdwr then .error errnoEBADF
      else .ok (ret, file.advance ret)

def FileHandle.setfl (data : BitVec 64) (file : FileHandle) :
    Except (BitVec 64) (BitVec 64 × FileHandle) :=
  if data &&& oAccmode.setWidth 64 ≠ 0 then .error errnoEINVAL
  else .ok (0, { file with flags := data.setWidth 32 })

def FdState.failed (s : FdState) (code : BitVec 64) : BitVec 64 × FdState :=
  (-1, { s with sched := s.sched.setErrno code })

def FdState.onFile (task : ℕ) (fd : BitVec 32)
    (call : FileHandle → Except (BitVec 64) (BitVec 64 × FileHandle)) (s : FdState) :
    Option (BitVec 64 × FdState) :=
  match s.translate task fd with
  | none => some (s.failed errnoEBADF)
  | some handle => do
    let h ← s.handles handle
    let file ← s.files h.fileHandle
    match call file with
    | .error code => some (s.failed code)
    | .ok (ret, file) => some (ret, { s with files := update s.files h.fileHandle (some file) })

def syscallFcntl (task : ℕ) (fd : BitVec 32) (cmd data : BitVec 64) (handle : ℕ) (s : FdState) :
    Option (BitVec 64 × FdState) :=
  if cmd = 1 then -- `F_DUPFD`
    (fdDup task fd true handle s).map fun r => (r.1.signExtend 64, r.2)
  else if cmd = 2 then -- `F_DUPFD_CLOEXEC`
    (fdDup task fd false handle s).map fun r => (r.1.signExtend 64, r.2)
  else if cmd = 3 then -- `F_GETFD`
    match s.translate task fd with
    | none => some (s.failed errnoEBADF)
    | some a => (s.handles a).map fun h => (h.flags.signExtend 64, s)
  else if cmd = 4 then -- `F_SETFD`
    (fcntlSetfd task fd (data.setWidth 32) s).map fun r => (r.1.signExtend 64, r.2)
  else if cmd = 5 then -- `F_GETFL`
    s.onFile task fd fun file => .ok (file.flags.signExtend 64, file)
  else if cmd = 6 then -- `F_SETFL`
    s.onFile task fd (FileHandle.setfl data)
  else some (s.failed (if (s.translate task fd).isSome then errnoEINVAL else errnoEBADF))

inductive AccessOp
  | fcntl (task : ℕ) (fd : BitVec 32) (cmd data : BitVec 64) (handle : ℕ)
  | dup (task : ℕ) (fd : BitVec 32) (handle : ℕ)
  | dup2 (task : ℕ) (oldfd newfd : BitVec 32) (handle : ℕ)
  | fork (c : ForkCall)
  | seek (task : ℕ) (fd : BitVec 32) (offset : BitVec 64) (whence : BitVec 32) (a : AssetCall)
  | read (task : ℕ) (fd : BitVec 32) (a : AssetCall)
  | write (task : ℕ) (fd : BitVec 32) (a : AssetCall)

def accessNext (s : FdState) : AccessOp → Option FdState
  | .fcntl task fd cmd data handle => (syscallFcntl task fd cmd data handle s).map Prod.snd
  | .dup task fd handle => (fdDup task fd true handle s).map Prod.snd
  | .dup2 task oldfd newfd handle => (fdDup2 task oldfd newfd handle s).map Prod.snd
  | .fork c => (syscallFork c s).map Prod.snd
  | .seek task fd offset whence a =>
    (s.onFile task fd (FileHandle.seek offset whence a)).map Prod.snd
  | .read task fd a => (s.onFile task fd (FileHandle.read a)).map Prod.snd
  | .write task fd a => (s.onFile task fd (FileHandle.write a)).map Prod.snd

/-- A step of a run. -/
def accessStep (s : FdState) (op : AccessOp) (s' : FdState) : Prop := accessNext s op = some s'

/-- An `F_SETFL` that `syscall_fcntl` carries out on the file. -/
def SetsFlags (f : ℕ) (s : FdState) (op : AccessOp) : Prop :=
  ∃ task fd data handle a h, op = .fcntl task fd 6 data handle ∧ data &&& oAccmode.setWidth 64 = 0 ∧
    s.translate task fd = some a ∧ s.handles a = some h ∧ h.fileHandle = f

/-- `fd_openat` or `syscall_pipe` has just made the file. -/
def Opens (f : ℕ) (s s₀ : FdState) : Prop :=
  (∃ task flags asset handle r, fdOpenat task flags (.ok asset) handle f s = some (r, s₀)) ∨
    ∃ task c r, (c.readFile = f ∨ c.writeFile = f) ∧ syscallPipe task c s = some (r, s₀)

/-! ## What the calls do to the flags -/

def KeepsFlags (files files' : ℕ → Option FileHandle) : Prop :=
  ∀ f file', files' f = some file' → ∃ file, files f = some file ∧ file'.flags = file.flags

section Keeps

variable {files files' files'' : ℕ → Option FileHandle} {f : ℕ} {file : FileHandle}

theorem KeepsFlags.refl : KeepsFlags files files := fun _ file h => ⟨file, h, rfl⟩

theorem KeepsFlags.trans (h : KeepsFlags files files') (h' : KeepsFlags files' files'') :
    KeepsFlags files files'' := by
  intro f file'' hfile''
  obtain ⟨file', hfile', hflags'⟩ := h' f file'' hfile''
  obtain ⟨file, hfile, hflags⟩ := h f file' hfile'
  exact ⟨file, hfile, hflags'.trans hflags⟩

theorem keepsFlags_update {o : Option FileHandle} (h : files f = some file)
    (ho : ∀ file', o = some file' → file'.flags = file.flags) :
    KeepsFlags files (update files f o) := by
  intro g file' hfile'
  by_cases hg : g = f
  · subst hg
    exact ⟨file, h, ho file' (by simpa using hfile')⟩
  · exact ⟨file', by simpa [hg] using hfile', rfl⟩

theorem keepsFlags_fileGet (h : fileGet files f = some files') : KeepsFlags files files' := by
  obtain ⟨file, hfile, rfl⟩ := map_eq_some_iff.mp h
  exact keepsFlags_update hfile (by rintro _ ⟨⟩; rfl)

theorem keepsFlags_filePut (h : filePut files f = some files') : KeepsFlags files files' := by
  obtain ⟨file, hfile, rfl⟩ := map_eq_some_iff.mp h
  split
  · exact keepsFlags_update hfile (by rintro _ ⟨⟩)
  · exact keepsFlags_update hfile (by rintro _ ⟨⟩; rfl)

end Keeps

section Calls

variable {task handle f : ℕ} {fd newfd : BitVec 32} {s s' : FdState} {file file' : FileHandle}

theorem keepsFlags_fdDup {clearCloexec : Bool} {r : BitVec 32}
    (h : fdDup task fd clearCloexec handle s = some (r, s')) : KeepsFlags s.files s'.files := by
  unfold fdDup at h
  split at h
  · cases h
    exact .refl
  · simp only [bind, bind_eq_some_iff] at h
    obtain ⟨_, -, _, -, files, hfiles, h⟩ := h
    cases h
    exact keepsFlags_fileGet hfiles

theorem keepsFlags_fdReplace {h : FdHandle} (hreplace : fdReplace task h handle s = some s') :
    KeepsFlags s.files s'.files := by
  unfold fdReplace at hreplace
  split at hreplace
  · split at hreplace
    · simp only [fdCloseUnlocked, bind, bind_eq_some_iff] at hreplace
      obtain ⟨t, ⟨_, -, _, -, files, hfiles, ht⟩, hreplace⟩ := hreplace
      cases ht
      cases hreplace
      exact keepsFlags_filePut hfiles
    · cases hreplace
      exact .refl
  · cases hreplace

theorem keepsFlags_fdDup2 {r : BitVec 32} (h : fdDup2 task fd newfd handle s = some (r, s')) :
    KeepsFlags s.files s'.files := by
  unfold fdDup2 at h
  split at h
  · cases h
    exact .refl
  · split at h
    · cases h
      exact .refl
    · simp only [bind, bind_eq_some_iff] at h
      obtain ⟨_, -, files, hfiles, t, ht, h⟩ := h
      cases h
      exact (keepsFlags_fileGet hfiles).trans (keepsFlags_fdReplace ht)

theorem keepsFlags_forkHandles {l : List (ℕ × ℕ)} {x x' : ForkFds}
    (h : l.foldlM forkHandle x = some x') : KeepsFlags x.files x'.files := by
  induction l generalizing x with
  | nil =>
    cases h
    exact .refl
  | cons copy l ih =>
    simp only [foldlM_cons, bind, bind_eq_some_iff] at h
    obtain ⟨y, hy, h⟩ := h
    simp only [forkHandle, bind, bind_eq_some_iff] at hy
    obtain ⟨_, -, files, hfiles, hy⟩ := hy
    cases hy
    exact (keepsFlags_fileGet hfiles).trans (ih h)

variable {data r ret : BitVec 64} {a : AssetCall} {opened : FileHandle}

theorem files_onFile {call : FileHandle → Except (BitVec 64) (BitVec 64 × FileHandle)}
    (h : s.onFile task fd call = some (r, s')) :
    (s'.files = s.files ∧ (s.translate task fd = none ∨ ∃ file code, call file = .error code)) ∨
      ∃ a d file ret file', s.translate task fd = some a ∧ s.handles a = some d ∧
        s.files d.fileHandle = some file ∧ call file = .ok (ret, file') ∧
        s'.files = update s.files d.fileHandle (some file') := by
  unfold FdState.onFile at h
  split at h
  · next hnone =>
    cases h
    exact .inl ⟨rfl, .inl hnone⟩
  · next a ha =>
    simp only [bind, bind_eq_some_iff] at h
    obtain ⟨d, hd, file, hfile, h⟩ := h
    split at h
    · next code hcall =>
      cases h
      exact .inl ⟨rfl, .inr ⟨file, code, hcall⟩⟩
    · next ret file' hcall =>
      cases h
      exact .inr ⟨a, d, file, _, file', ha, hd, hfile, hcall, rfl⟩

theorem keepsFlags_onFile {call : FileHandle → Except (BitVec 64) (BitVec 64 × FileHandle)}
    (hcall : ∀ file ret file', call file = .ok (ret, file') → file'.flags = file.flags)
    (h : s.onFile task fd call = some (r, s')) : KeepsFlags s.files s'.files := by
  rcases files_onFile h with ⟨hfiles, -⟩ | ⟨a, d, file, ret, file', -, -, hfile, hok, hfiles⟩
  · rw [hfiles]
    exact .refl
  · rw [hfiles]
    refine keepsFlags_update hfile fun x hx => ?_
    cases hx
    exact hcall _ _ _ hok

theorem flags_seek {offset : BitVec 64} {whence : BitVec 32}
    (h : file.seek offset whence a = .ok (ret, file')) : file'.flags = file.flags := by
  unfold FileHandle.seek at h
  split_ifs at h <;> cases h <;> rfl

theorem flags_write (h : file.write a = .ok (ret, file')) :
    file'.flags = file.flags := by
  unfold FileHandle.write at h
  split at h
  · cases h
  · split_ifs at h <;> cases h <;> rfl

theorem flags_read (h : file.read a = .ok (ret, file')) :
    file'.flags = file.flags := by
  unfold FileHandle.read at h
  split at h
  · cases h
  · split at h
    · cases h
    · split_ifs at h
      cases h
      rfl

theorem keepsFlags_fcntl {cmd : BitVec 64}
    (h : syscallFcntl task fd cmd data handle s = some (r, s'))
    (hset : cmd = 6 → data &&& oAccmode.setWidth 64 ≠ 0) : KeepsFlags s.files s'.files := by
  unfold syscallFcntl at h
  split_ifs at h with hdup hcloexec hgetfd hsetfd hgetfl hsetfl
  · obtain ⟨⟨r, t⟩, hdup, heq⟩ := map_eq_some_iff.mp h
    cases heq
    exact keepsFlags_fdDup hdup
  · obtain ⟨⟨r, t⟩, hdup, heq⟩ := map_eq_some_iff.mp h
    cases heq
    exact keepsFlags_fdDup hdup
  · split at h
    · cases h
      exact .refl
    · obtain ⟨_, -, heq⟩ := map_eq_some_iff.mp h
      cases heq
      exact .refl
  · obtain ⟨⟨r, t⟩, hfd, heq⟩ := map_eq_some_iff.mp h
    cases heq
    unfold fcntlSetfd at hfd
    split at hfd
    · cases hfd
      exact .refl
    · obtain ⟨_, -, heq⟩ := map_eq_some_iff.mp hfd
      cases heq
      exact .refl
  · exact keepsFlags_onFile (by rintro file ret file' ⟨⟩; rfl) h
  · refine keepsFlags_onFile (fun file ret file' hcall => ?_) h
    rw [FileHandle.setfl, if_pos (hset hsetfl)] at hcall
    cases hcall
  · cases h
    exact .refl
  · cases h
    exact .refl

theorem mode_setfl (h : file.setfl data = .ok (ret, file')) :
    file'.flags &&& oAccmode = 0 := by
  unfold FileHandle.setfl at h
  split_ifs at h with hdata
  cases h
  rw [not_not] at hdata
  have hmode := congrArg (BitVec.setWidth 32) hdata
  rwa [BitVec.setWidth_and] at hmode

theorem keepsFlags_snd {α : Type} {x : Option (α × FdState)} (h : x.map Prod.snd = some s')
    (hx : ∀ {r t}, x = some (r, t) → KeepsFlags s.files t.files) : KeepsFlags s.files s'.files := by
  obtain ⟨⟨r, t⟩, heq, rfl⟩ := map_eq_some_iff.mp h
  exact hx heq

theorem keepsFlags_accessStep {op : AccessOp} (h : accessStep s op s')
    (hset : ∀ task fd data handle, op = .fcntl task fd 6 data handle →
      data &&& oAccmode.setWidth 64 ≠ 0) : KeepsFlags s.files s'.files := by
  cases op with
  | fcntl task fd cmd data handle =>
    exact keepsFlags_snd h fun hx => keepsFlags_fcntl hx fun hcmd => hset _ _ _ _ (by rw [hcmd])
  | dup task fd handle => exact keepsFlags_snd h keepsFlags_fdDup
  | dup2 task oldfd newfd handle => exact keepsFlags_snd h keepsFlags_fdDup2
  | fork c =>
    refine keepsFlags_snd h fun hx => ?_
    obtain ⟨y, hy, heq⟩ := map_eq_some_iff.mp hx
    cases heq
    exact keepsFlags_forkHandles hy
  | seek task fd offset whence a =>
    exact keepsFlags_snd h (keepsFlags_onFile fun _ _ _ => flags_seek)
  | read task fd a => exact keepsFlags_snd h (keepsFlags_onFile fun _ _ _ => flags_read)
  | write task fd a => exact keepsFlags_snd h (keepsFlags_onFile fun _ _ _ => flags_write)

theorem accessStep_flags {op : AccessOp} (h : accessStep s op s')
    (hfile' : s'.files f = some file') :
    (SetsFlags f s op ∧ file'.flags &&& oAccmode = 0) ∨
      ¬SetsFlags f s op ∧ ∃ file, s.files f = some file ∧ file'.flags = file.flags := by
  by_cases hset : ∃ task fd data handle, op = .fcntl task fd 6 data handle ∧
      data &&& oAccmode.setWidth 64 = 0
  · obtain ⟨task, fd, data, handle, rfl, hdata⟩ := hset
    obtain ⟨⟨r, t⟩, hcall, rfl⟩ := map_eq_some_iff.mp h
    rcases files_onFile hcall with ⟨hfiles, hfail⟩ |
      ⟨a, d, file, ret, file'', ha, hd, hfile, hok, hfiles⟩
    · -- With these flags the call only fails on a descriptor that is not in the table.
      refine .inr ⟨?_, file', hfiles ▸ hfile', rfl⟩
      rintro ⟨_, _, _, _, b, e, heq, -, hb, -⟩
      cases heq
      rcases hfail with hnone | ⟨file, code, herror⟩
      · rw [hnone] at hb
        cases hb
      · rw [FileHandle.setfl, if_neg (not_not.mpr hdata)] at herror
        cases herror
    · by_cases hf : d.fileHandle = f
      · rw [hfiles, ← hf, update_self] at hfile'
        cases hfile'
        exact .inl ⟨⟨task, fd, data, handle, a, d, rfl, hdata, ha, hd, hf⟩, mode_setfl hok⟩
      · rw [hfiles, update_of_ne (Ne.symm hf)] at hfile'
        refine .inr ⟨?_, file', hfile', rfl⟩
        rintro ⟨_, _, _, _, b, e, heq, -, hb, he, hef⟩
        cases heq
        rw [ha] at hb
        cases hb
        rw [hd] at he
        cases he
        exact hf hef
  · refine .inr ⟨?_, keepsFlags_accessStep h (fun task fd data handle hop hdata =>
      hset ⟨task, fd, data, handle, hop, hdata⟩) f file' hfile'⟩
    rintro ⟨task, fd, data, handle, a, d, hop, hdata, -⟩
    exact hset ⟨task, fd, data, handle, hop, hdata⟩

theorem read_refused_congr (h : file.flags = opened.flags) :
    file.read a = .error errnoEBADF ↔ opened.read a = .error errnoEBADF := by
  unfold FileHandle.read
  rw [h]
  cases a.returned with
  | none => split_ifs <;> simp
  | some ret => split_ifs <;> simp

theorem write_refused_congr (h : file.flags = opened.flags) :
    file.write a = .error errnoEBADF ↔ opened.write a = .error errnoEBADF := by
  unfold FileHandle.write
  rw [h]
  cases a.returned with
  | none => simp
  | some ret => split_ifs <;> simp

/-! ## Runs -/

theorem mode_opened {s₀ : FdState} (h : Opens f s s₀)
    (hfile : s₀.files f = some opened) : opened.flags &&& oAccmode ≠ 0 := by
  rcases h with ⟨task, flags, asset, handle, r, h⟩ | ⟨task, c, r, hf, h⟩
  · simp only [fdOpenat, bind, bind_eq_some_iff] at h
    obtain ⟨_, -, h⟩ := h
    cases h
    simp only [FdState.install, update_self] at hfile
    cases hfile
    intro hmode
    split_ifs at hmode with hzero
    · have hbit := congrArg (fun x => x.getLsbD 1) hmode
      simp only [FileHandle.init, BitVec.getLsbD_and, BitVec.getLsbD_or] at hbit
      rw [show oRdonly.getLsbD 1 = true from rfl, Bool.or_true] at hbit
      exact absurd hbit (by decide)
    · rw [FileHandle.init, BitVec.and_assoc] at hmode
      exact hzero hmode
  · simp only [syscallPipe, bind, bind_eq_some_iff] at h
    obtain ⟨_, -, _, -, h⟩ := h
    cases h
    simp only [FdState.install] at hfile
    by_cases hwrite : f = c.writeFile
    · rw [hwrite, update_self] at hfile
      cases hfile
      exact (by decide : oWronly &&& oAccmode ≠ 0)
    · rw [update_of_ne hwrite, hf.resolve_right (Ne.symm hwrite), update_self] at hfile
      cases hfile
      exact (by decide : oRdonly &&& oAccmode ≠ 0)

theorem flags_of_run {s₀ : FdState} {tr : List (Event FdState AccessOp)}
    (run : Run accessStep s₀ tr s) (hopened : s₀.files f = some opened)
    (hfile : s.files f = some file) :
    ((∃ e ∈ tr, SetsFlags f e.pre e.act) ∧ file.flags &&& oAccmode = 0) ∨
      (∀ e ∈ tr, ¬SetsFlags f e.pre e.act) ∧ file.flags = opened.flags := by
  refine run.invariant (I := fun tr s => ∀ file, s.files f = some file →
    ((∃ e ∈ tr, SetsFlags f e.pre e.act) ∧ file.flags &&& oAccmode = 0) ∨
      (∀ e ∈ tr, ¬SetsFlags f e.pre e.act) ∧ file.flags = opened.flags) ?_ ?_ file hfile
  · intro file hfile
    rw [hopened] at hfile
    cases hfile
    exact .inr ⟨by simp, rfl⟩
  · intro tr s op s' ih hstep file' hfile'
    rcases accessStep_flags hstep hfile' with ⟨hset, hmode⟩ | ⟨hset, file, hfile, hflags⟩
    · exact .inl ⟨⟨_, mem_append_right _ (mem_singleton.mpr rfl), hset⟩, hmode⟩
    · rw [hflags]
      rcases ih file hfile with ⟨⟨e, he, hsets⟩, hmode⟩ | ⟨hnone, hkept⟩
      · exact .inl ⟨⟨e, mem_append_left _ he, hsets⟩, hmode⟩
      · refine .inr ⟨?_, hkept⟩
        simpa [or_imp, forall_and] using ⟨hnone, hset⟩

/-- **The access mode of an open file.** After any calls on the descriptors, the file has the mode
with which it was opened, and `fd_read` and `fd_write` refuse with `EBADF` what they would have
refused then, iff none of the calls was an `F_SETFL` carried out on the file. -/
theorem access_mode_kept_iff {opened : FileHandle} {s₀ : FdState}
    {tr : List (Event FdState AccessOp)} (hopens : Opens f s s₀)
    (hopened : s₀.files f = some opened)
    (run : Run accessStep s₀ tr s') (hfile : s'.files f = some file) :
    (file.flags &&& oAccmode = opened.flags &&& oAccmode ∧
      ∀ a, (file.read a = .error errnoEBADF ↔ opened.read a = .error errnoEBADF) ∧
        (file.write a = .error errnoEBADF ↔ opened.write a = .error errnoEBADF)) ↔
      ∀ e ∈ tr, ¬SetsFlags f e.pre e.act := by
  rcases flags_of_run run hopened hfile with ⟨⟨e, he, hset⟩, hmode⟩ | ⟨hnone, hflags⟩
  · refine iff_of_false (fun h => mode_opened hopens hopened ?_) fun h => h e he hset
    rw [← h.1, hmode]
  · refine iff_of_true ⟨by rw [hflags], fun a => ⟨?_, ?_⟩⟩ hnone
    · exact read_refused_congr hflags
    · exact write_refused_congr hflags

end Calls

def openedReadWrite : FdState :=
  (fdOpenat 2 oRdwr (.ok 30) 10 20 bootFds).elim bootFds Prod.snd

theorem opens_openedReadWrite : Opens 20 bootFds openedReadWrite := by
  obtain ⟨⟨r, s⟩, h⟩ :=
    isSome_iff_exists.mp
      (by decide +kernel : (fdOpenat 2 oRdwr (.ok 30) 10 20 bootFds).isSome)
  refine .inl ⟨2, oRdwr, 30, 10, r, ?_⟩
  rw [openedReadWrite, h]
  rfl

theorem files_openedReadWrite :
    openedReadWrite.files 20 = some (FileHandle.init 30 oRdwr none) := by decide +kernel

theorem access_mode_kept_iff_dup : ∃ tr s file, Run accessStep openedReadWrite tr s ∧
    tr.map Event.act = [.dup 2 0#32 11] ∧ s.files 20 = some file ∧ file.flags &&& oAccmode = oRdwr := by
  obtain ⟨tr, s, run, hacts, hfile⟩ := Run.computed (f := accessNext)
    (P := fun _ s => s.files 20 = some { FileHandle.init 30 oRdwr none with refcnt := 2 })
    openedReadWrite [.dup 2 0#32 11] (by decide +kernel)
  refine ⟨tr, s, _, run, hacts, hfile, ?_⟩
  refine ((access_mode_kept_iff opens_openedReadWrite files_openedReadWrite run hfile).mpr ?_).1
  rintro e he ⟨task, fd, data, handle, a, h, hop, -⟩
  have hact := mem_map_of_mem (f := Event.act) he
  rw [hacts, hop] at hact
  simp at hact

/-- A file opened with `O_RDWR`: after `fcntl(0, F_SETFL, 0)` a read of it is refused. -/
theorem setfl_drops_mode : Opens 20 bootFds openedReadWrite ∧
    openedReadWrite.files 20 = some (FileHandle.init 30 oRdwr none) ∧
    ∃ tr s file, Run accessStep openedReadWrite tr s ∧
      tr.map Event.act = [.fcntl 2 0#32 6 0 11] ∧ s.files 20 = some file ∧
      file.flags &&& oAccmode ≠ oRdwr ∧
      file.read ⟨0x8000#32, 5#64, some 1⟩ = .error errnoEBADF ∧
      ∃ r, (FileHandle.init 30 oRdwr none).read ⟨0x8000#32, 5#64, some 1⟩ = .ok r := by
  obtain ⟨tr, s, run, hacts, hfile⟩ := Run.computed (f := accessNext)
    (P := fun _ s => s.files 20 = some (FileHandle.init 30 0 none)) openedReadWrite
    [.fcntl 2 0#32 6 0 11] (by decide +kernel)
  exact ⟨opens_openedReadWrite, files_openedReadWrite, tr, s, _, run, hacts, hfile, by decide,
    rfl, _, rfl⟩

end Pastoral
