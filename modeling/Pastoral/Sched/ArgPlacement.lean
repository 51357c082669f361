import Mathlib.Data.List.Forall2
import Pastoral.Lib.Strings

/-!
# The first stack of a program

`sched_arg_placement` of `sched.c`: the arguments, the environment and the auxiliary vector are put
on the stack that a new program starts with.

## Main results

* `argPlacement_layout`: what the program finds on it
-/

open ByteMemory List

namespace Pastoral

/-! ## Functions -/

structure SchedArguments where
  argv : List (List (BitVec 8))
  envp : List (List (BitVec 8))
  deriving DecidableEq, Repr

structure Aux where
  atEntry : BitVec 64
  atPhdr : BitVec 64
  atPhent : BitVec 64
  atPhnum : BitVec 64
  deriving DecidableEq, Repr

abbrev elfAtPhdr : BitVec 64 := 3#64
abbrev elfAtPhent : BitVec 64 := 4#64
abbrev elfAtPhnum : BitVec 64 := 5#64
abbrev elfAtEntry : BitVec 64 := 9#64

def placeStrings : List (List (BitVec 8)) → ℕ → (ℕ → BitVec 8) → ℕ × (ℕ → BitVec 8)
  | [], ptr, m => (ptr, m)
  | element :: rest, ptr, m =>
    let ptr := wrapSub ptr (strlen element + 1)
    placeStrings rest ptr (strcpy ptr element m)

def placePointers (ptr : ℕ) :
    List (List (BitVec 8)) → ℕ → ℕ → (ℕ → BitVec 8) → ℕ × (ℕ → BitVec 8)
  | [], _, rsp, m => (rsp, m)
  | element :: rest, i, rsp, m =>
    let rsp := wrapSub rsp (strlen element + 1)
    placePointers ptr rest (i + 1) rsp (storeWord m (wrap (ptr + 8 * i)) (BitVec.ofNat 64 rsp))

def Aux.words (aux : Aux) : List (BitVec 64) :=
  [elfAtPhnum, aux.atPhnum, elfAtPhent, aux.atPhent, elfAtPhdr, aux.atPhdr, elfAtEntry,
    aux.atEntry, 0#64, 0#64]

theorem Aux.length_words (aux : Aux) : aux.words.length = 10 := rfl

def placeWords (ptr : ℕ) : List (BitVec 64) → ℕ → (ℕ → BitVec 8) → ℕ → BitVec 8
  | [], _, m => m
  | v :: ws, i, m => placeWords ptr ws (i + 1) (storeWord m (wrap (ptr + 8 * i)) v)

def schedArgPlacement (arguments : SchedArguments) (ptr : ℕ) (aux : Aux) (m : ℕ → BitVec 8) :
    ℕ × (ℕ → BitVec 8) :=
  let rsp := ptr
  let (ptr, m) := placeStrings arguments.envp ptr m
  let (ptr, m) := placeStrings arguments.argv ptr m
  let ptr := wrapSub ptr (ptr % 16)
  let ptr :=
    if (arguments.argv.length + arguments.envp.length + 1) % 2 = 1 then wrapSub ptr 8 else ptr
  let ptr := wrapSub ptr (8 * 10)
  let m := placeWords ptr aux.words 0 m
  let ptr := wrapSub ptr 8
  let m := storeWord m ptr 0#64
  let ptr := wrapSub ptr (8 * arguments.envp.length)
  let (rsp, m) := placePointers ptr arguments.envp 0 rsp m
  let ptr := wrapSub ptr 8
  let m := storeWord m ptr 0#64
  let ptr := wrapSub ptr (8 * arguments.argv.length)
  let (_, m) := placePointers ptr arguments.argv 0 rsp m
  let ptr := wrapSub ptr 8
  let m := storeWord m ptr (BitVec.ofNat 64 arguments.argv.length)
  (ptr, m)

/-! ## The two passes -/

def stringsSize (l : List (List (BitVec 8))) : ℕ := (l.map fun str => str.length + 1).sum

def stringAddrs : List (List (BitVec 8)) → ℕ → List (BitVec 64)
  | [], _ => []
  | str :: rest, top =>
    BitVec.ofNat 64 (top - (str.length + 1)) :: stringAddrs rest (top - (str.length + 1))

section Passes

variable {l : List (List (BitVec 8))} {m : ℕ → BitVec 8} {top ptr i : ℕ}

theorem stringsSize_cons (str : List (BitVec 8)) :
    stringsSize (str :: l) = str.length + 1 + stringsSize l := by
  rfl

theorem length_stringAddrs (l : List (List (BitVec 8))) (top : ℕ) :
    (stringAddrs l top).length = l.length := by
  induction l generalizing top with
  | nil => rfl
  | cons str rest ih => rw [stringAddrs, length_cons, length_cons, ih]

theorem placeStrings_spec (hnul : ∀ str ∈ l, 0#8 ∉ str) (htop : top < 2 ^ 64)
    (hsize : stringsSize l ≤ top) :
    (placeStrings l top m).1 = top - stringsSize l ∧
      (∀ x, x < top - stringsSize l ∨ top ≤ x → (placeStrings l top m).2 x = m x) ∧
      Forall₂ (StringAt (placeStrings l top m).2 (top - stringsSize l) top)
        (stringAddrs l top) l := by
  induction l generalizing top m with
  | nil => exact ⟨rfl, fun _ _ => rfl, Forall₂.nil⟩
  | cons str rest ih =>
    rw [stringsSize_cons] at hsize ⊢
    have hstr := hnul str mem_cons_self
    have hptr : wrapSub top (strlen str + 1) = top - (str.length + 1) := by
      rw [strlen_eq hstr, wrapSub_of_le (by omega) htop]
    have hcopy : strcpy (top - (str.length + 1)) str m =
        store m (top - (str.length + 1)) (str ++ [0#8]) := strcpy_eq_store hstr (by omega)
    rw [placeStrings, hptr, hcopy]
    have hroom : stringsSize rest ≤ top - (str.length + 1) := by omega
    obtain ⟨hend, hout, hrest⟩ := ih (m := store m (top - (str.length + 1)) (str ++ [0#8]))
      (fun s hs => hnul s (mem_cons_of_mem _ hs)) (by omega) hroom
    rw [show top - (str.length + 1) - stringsSize rest =
      top - (str.length + 1 + stringsSize rest) by omega] at hend hout hrest
    have hlen : (str ++ [0#8]).length = str.length + 1 := by simp
    refine ⟨hend, fun x hx => ?_, Forall₂.cons ?_ ?_⟩
    · rw [hout x (by omega), store_outside (by rw [hlen]; omega)]
    · -- The other strings go below this one.
      have haddr : (BitVec.ofNat 64 (top - (str.length + 1))).toNat = top - (str.length + 1) := by
        rw [BitVec.toNat_ofNat, Nat.mod_eq_of_lt (by omega)]
      refine ⟨by omega, by omega, ?_⟩
      rw [haddr]
      refine (load_of_agree fun x hle _ => hout x (.inr hle)).trans ?_
      rw [← hlen]
      exact load_store
    · exact hrest.imp fun a s h => h.mono (le_refl _) (Nat.sub_le _ _)

theorem placePointers_eq (hnul : ∀ str ∈ l, 0#8 ∉ str) (htop : top < 2 ^ 64)
    (hsize : stringsSize l ≤ top) (hptr : ptr + 8 * (i + l.length) ≤ 2 ^ 64) :
    placePointers ptr l i top m =
      (top - stringsSize l, storeWords m (ptr + 8 * i) (stringAddrs l top)) := by
  induction l generalizing top m i with
  | nil => rfl
  | cons str rest ih =>
    rw [stringsSize_cons] at hsize ⊢
    rw [length_cons] at hptr
    have hstr := hnul str mem_cons_self
    have hrsp : wrapSub top (strlen str + 1) = top - (str.length + 1) := by
      rw [strlen_eq hstr, wrapSub_of_le (by omega) htop]
    rw [placePointers, hrsp, ih (fun s hs => hnul s (mem_cons_of_mem _ hs)) (by omega)
      (by omega) (by omega), wrap_of_lt (by omega), stringAddrs, storeWords, Nat.mul_succ,
      ← add_assoc, Nat.sub_sub]

theorem placeWords_eq {ws : List (BitVec 64)} (hptr : ptr + 8 * (i + ws.length) ≤ 2 ^ 64) :
    placeWords ptr ws i m = storeWords m (ptr + 8 * i) ws := by
  induction ws generalizing m i with
  | nil => rfl
  | cons v ws ih =>
    rw [length_cons] at hptr
    rw [placeWords, ih (by omega), wrap_of_lt (by omega), storeWords, Nat.mul_succ, ← add_assoc]

end Passes

/-! ## The stack -/

section Stack

def SchedArguments.wordCnt (arguments : SchedArguments) : ℕ :=
  arguments.argv.length + arguments.envp.length + 13

def SchedArguments.size (arguments : SchedArguments) : ℕ :=
  stringsSize arguments.envp + stringsSize arguments.argv

/-- **No address gets below zero**: there is room for the strings, and under the multiple of sixteen
below them for the words, with one more word where their number is odd. -/
def NoUnderflow (arguments : SchedArguments) (ptr : ℕ) : Prop :=
  arguments.size ≤ ptr ∧
    8 * (arguments.wordCnt + arguments.wordCnt % 2) ≤ (ptr - arguments.size) / 16 * 16
  deriving Decidable

/-- **What a program finds on its stack.** -/
structure StackLayout (arguments : SchedArguments) (aux : Aux) (ptr rsp : ℕ)
    (m m' : ℕ → BitVec 8) : Prop where
  aligned : 16 ∣ rsp
  below : ∀ x < rsp, m' x = m x
  decodes : ∃ argvAddrs envpAddrs,
    words m' rsp arguments.wordCnt =
        BitVec.ofNat 64 arguments.argv.length ::
          (argvAddrs ++ 0#64 :: (envpAddrs ++ 0#64 :: aux.words)) ∧
      List.Forall₂ (StringAt m' (rsp + 8 * arguments.wordCnt) ptr) argvAddrs arguments.argv ∧
      List.Forall₂ (StringAt m' (rsp + 8 * arguments.wordCnt) ptr) envpAddrs arguments.envp

variable {arguments : SchedArguments} {aux : Aux} {ptr : ℕ} {m : ℕ → BitVec 8}

def stackPointer (arguments : SchedArguments) (ptr : ℕ) : ℕ :=
  (ptr - arguments.size) / 16 * 16 - 8 * (arguments.wordCnt + arguments.wordCnt % 2)

def afterStrings (arguments : SchedArguments) (ptr : ℕ) (m : ℕ → BitVec 8) : ℕ → BitVec 8 :=
  (placeStrings arguments.argv (ptr - stringsSize arguments.envp)
    (placeStrings arguments.envp ptr m).2).2

def afterWords (arguments : SchedArguments) (aux : Aux) (ptr rsp : ℕ) (m : ℕ → BitVec 8) :
    ℕ → BitVec 8 :=
  let envp := rsp + 8 + 8 * arguments.argv.length + 8
  let m := storeWords m (envp + 8 * arguments.envp.length + 8) aux.words
  let m := storeWords m (envp + 8 * arguments.envp.length) [0#64]
  let m := storeWords m envp (stringAddrs arguments.envp ptr)
  let m := storeWords m (rsp + 8 + 8 * arguments.argv.length) [0#64]
  let m := storeWords m (rsp + 8) (stringAddrs arguments.argv (ptr - stringsSize arguments.envp))
  storeWords m rsp [BitVec.ofNat 64 arguments.argv.length]

theorem schedArgPlacement_eq (hptr : ptr < 2 ^ 64)
    (hnul : ∀ str ∈ arguments.argv ++ arguments.envp, 0#8 ∉ str)
    (hfits : NoUnderflow arguments ptr) :
    schedArgPlacement arguments ptr aux m = (stackPointer arguments ptr,
        afterWords arguments aux ptr (stackPointer arguments ptr)
          (afterStrings arguments ptr m)) := by
  obtain ⟨hsize, hwords⟩ := hfits
  have hargv : ∀ str ∈ arguments.argv, 0#8 ∉ str := fun str h => hnul str (mem_append_left _ h)
  have henvp : ∀ str ∈ arguments.envp, 0#8 ∉ str := fun str h =>
    hnul str (mem_append_right _ h)
  obtain ⟨rsp, hrsp⟩ : ∃ rsp, stackPointer arguments ptr = rsp := ⟨_, rfl⟩
  rw [hrsp]
  unfold stackPointer SchedArguments.size SchedArguments.wordCnt at hrsp
  unfold SchedArguments.size at hsize hwords
  unfold SchedArguments.wordCnt at hwords
  obtain ⟨size, hend⟩ : ∃ size, ptr - stringsSize arguments.envp - stringsSize arguments.argv =
    size := ⟨_, rfl⟩
  have hfirst : placeStrings arguments.envp ptr m =
      (ptr - stringsSize arguments.envp, (placeStrings arguments.envp ptr m).2) :=
    Prod.ext (placeStrings_spec henvp hptr (by omega)).1 rfl
  have hsecond : placeStrings arguments.argv (ptr - stringsSize arguments.envp)
      (placeStrings arguments.envp ptr m).2 = (size, afterStrings arguments ptr m) :=
    Prod.ext ((placeStrings_spec hargv (by omega) (by omega)).1.trans hend) rfl
  -- The end of the words, with the word that is skipped for the sake of the alignment.
  have hlast : (if (arguments.argv.length + arguments.envp.length + 1) % 2 = 1 then
      wrapSub (wrapSub size (size % 16)) 8 else wrapSub size (size % 16)) =
        rsp + 8 + 8 * arguments.argv.length + 8 + 8 * arguments.envp.length + 8 + 8 * 10 := by
    rw [wrapSub_of_le (Nat.mod_le _ _) (by omega)]
    split_ifs with hodd
    · rw [wrapSub_of_le (by omega) (by omega)]
      omega
    · omega
  have hdown : ∀ a b, a + b ≤ ptr → wrapSub (a + b) b = a := fun a b h => by
    rw [wrapSub_of_le (Nat.le_add_left b a) (lt_of_le_of_lt h hptr), Nat.add_sub_cancel]
  unfold schedArgPlacement
  rw [hfirst]
  dsimp only
  rw [hsecond]
  rw [hlast, hdown _ _ (by omega),
    placeWords_eq (show _ + 8 * (0 + aux.words.length) ≤ _ by rw [Aux.length_words]; omega),
    hdown _ _ (by omega), hdown _ _ (by omega), placePointers_eq henvp hptr (by omega) (by omega)]
  rw [hdown _ _ (by omega), hdown _ _ (by omega),
    placePointers_eq hargv (by omega) (by omega) (by omega)]
  rw [hdown _ _ (by omega)]
  rfl

theorem afterWords_outside {rsp x : ℕ} (h : x < rsp ∨ rsp + 8 * arguments.wordCnt ≤ x) :
    afterWords arguments aux ptr rsp m x = m x := by
  unfold SchedArguments.wordCnt at h
  unfold afterWords
  rw [storeWords_outside (by rw [length_singleton]; omega),
    storeWords_outside (by rw [length_stringAddrs]; omega),
    storeWords_outside (by rw [length_singleton]; omega),
    storeWords_outside (by rw [length_stringAddrs]; omega),
    storeWords_outside (by rw [length_singleton]; omega),
    storeWords_outside (by rw [Aux.length_words]; omega)]

theorem words_afterWords (rsp : ℕ) :
    words (afterWords arguments aux ptr rsp m) rsp arguments.wordCnt =
      BitVec.ofNat 64 arguments.argv.length ::
        (stringAddrs arguments.argv (ptr - stringsSize arguments.envp) ++
          0#64 :: (stringAddrs arguments.envp ptr ++ 0#64 :: aux.words)) := by
  have hcnt : arguments.wordCnt = 1 + ((stringAddrs arguments.argv
      (ptr - stringsSize arguments.envp)).length + (1 + ((stringAddrs arguments.envp ptr).length +
        (1 + (aux.words.length + 0))))) := by
    rw [length_stringAddrs, length_stringAddrs, Aux.length_words, SchedArguments.wordCnt]
    omega
  unfold afterWords
  rw [hcnt, ← length_stringAddrs arguments.argv (ptr - stringsSize arguments.envp),
    ← length_stringAddrs arguments.envp ptr]
  refine words_storeWords (u := [_]) (words_storeWords (words_storeWords (u := [0#64])
    (words_storeWords (words_storeWords (u := [0#64]) ?_))))
  refine (words_storeWords (w := []) rfl).trans (append_nil _)

theorem afterStrings_spec (hptr : ptr < 2 ^ 64)
    (hnul : ∀ str ∈ arguments.argv ++ arguments.envp, 0#8 ∉ str) (hsize : arguments.size ≤ ptr) :
    (∀ x, x < ptr - arguments.size ∨ ptr ≤ x → afterStrings arguments ptr m x = m x) ∧
      Forall₂ (StringAt (afterStrings arguments ptr m) (ptr - arguments.size) ptr)
        (stringAddrs arguments.argv (ptr - stringsSize arguments.envp)) arguments.argv ∧
      Forall₂ (StringAt (afterStrings arguments ptr m) (ptr - arguments.size) ptr)
        (stringAddrs arguments.envp ptr) arguments.envp := by
  unfold SchedArguments.size at hsize ⊢
  obtain ⟨-, hout, hplaced⟩ := placeStrings_spec (m := m)
    (fun str h => hnul str (mem_append_right _ h)) hptr (by omega)
  have hroom : stringsSize arguments.argv ≤ ptr - stringsSize arguments.envp := by omega
  obtain ⟨-, hout', hplaced'⟩ := placeStrings_spec (m := (placeStrings arguments.envp ptr m).2)
    (fun str h => hnul str (mem_append_left _ h)) (by omega) hroom
  refine ⟨fun x hx => ?_, ?_, ?_⟩
  · rw [afterStrings, hout' x (by omega), hout x (by omega)]
  · exact hplaced'.imp fun a str h => h.mono (by omega) (Nat.sub_le _ _)
  · -- The arguments go below the environment.
    refine hplaced.imp fun a str h => (h.congr fun x hle _ => ?_).mono (by omega) (le_refl _)
    exact hout' x (.inr hle)

/-- **The layout of the stack**, for all arguments and from every address on. -/
theorem argPlacement_layout (hptr : ptr < 2 ^ 64)
    (hnul : ∀ str ∈ arguments.argv ++ arguments.envp, 0#8 ∉ str)
    (hfits : NoUnderflow arguments ptr) :
    StackLayout arguments aux ptr (schedArgPlacement arguments ptr aux m).1 m
      (schedArgPlacement arguments ptr aux m).2 := by
  rw [schedArgPlacement_eq hptr hnul hfits]
  obtain ⟨hsize, hwords⟩ := hfits
  obtain ⟨hout, hargv, henvp⟩ := afterStrings_spec (m := m) hptr hnul hsize
  obtain ⟨rsp, hrsp⟩ : ∃ rsp, stackPointer arguments ptr = rsp := ⟨_, rfl⟩
  rw [hrsp]
  dsimp only
  unfold stackPointer at hrsp
  -- The words are below the strings.
  have hkept : ∀ a str, StringAt (afterStrings arguments ptr m) (ptr - arguments.size) ptr a str →
      StringAt (afterWords arguments aux ptr rsp (afterStrings arguments ptr m))
        (rsp + 8 * arguments.wordCnt) ptr a str := fun a str h =>
    (h.mono (by omega) (le_refl _)).congr fun x hle _ => afterWords_outside (.inr hle)
  refine ⟨?_, fun x hx => ?_, _, _, words_afterWords rsp, hargv.imp hkept, henvp.imp hkept⟩
  · omega
  · rw [afterWords_outside (.inl hx), hout x (by omega)]

def catArguments : SchedArguments := ⟨[[0x63#8, 0x61#8, 0x74#8], [0x2d#8]], [[0x50#8, 0x3d#8]]⟩

theorem argPlacement_layout_cat : NoUnderflow catArguments 0x1003 ∧
    StackLayout catArguments ⟨0x400000#64, 0x400040#64, 56#64, 3#64⟩ 0x1003
      (schedArgPlacement catArguments 0x1003 ⟨0x400000#64, 0x400040#64, 56#64, 3#64⟩
        fun _ => 0xff#8).1 (fun _ => 0xff#8)
      (schedArgPlacement catArguments 0x1003 ⟨0x400000#64, 0x400040#64, 56#64, 3#64⟩
        fun _ => 0xff#8).2 :=
  ⟨by decide, argPlacement_layout (by decide) (by decide) (by decide)⟩

end Stack

end Pastoral
