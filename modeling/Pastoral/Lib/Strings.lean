import Pastoral.Lib.Macros
import Pastoral.Theory.ByteMemory

/-!
# Strings of C

`string.h` and `string.c`.
-/

open ByteMemory

namespace Pastoral

def strlen : List (BitVec 8) → ℕ
  | [] => 0
  | c :: str => if c = 0#8 then 0 else strlen str + 1

def strcpy (dest : ℕ) : List (BitVec 8) → (ℕ → BitVec 8) → ℕ → BitVec 8
  | [], m => Function.update m (wrap dest) 0#8
  | c :: src, m =>
    if c = 0#8 then Function.update m (wrap dest) 0#8
    else strcpy (dest + 1) src (Function.update m (wrap dest) c)

def percent : BitVec 8 := 0x25#8

def numberDigits (base : ℕ) : ℕ → ℕ → List ℕ
  | 0, _ => []
  | fuel + 1, number =>
    number % base :: if number / base = 0 then [] else numberDigits base fuel (number / base)

def digitCharacter (d : ℕ) : BitVec 8 := BitVec.ofNat 8 (if d < 10 then 0x30 + d else 0x37 + d)

def sprintPrintNumber (number : BitVec 64) (base : ℕ) : Option (List (BitVec 8)) :=
  let arr := numberDigits base 64 number.toNat
  if arr.length ≤ 50 then some (arr.reverse.map digitCharacter) else none

inductive SprintArg
  | word (v : BitVec 64)
  | string (str : List (BitVec 8))
  deriving DecidableEq, Repr

def sprintConvert (k : BitVec 8) (args : List SprintArg) :
    Option (List (BitVec 8) × List SprintArg) :=
  if k = 0x64#8 then -- 'd'
    match args with
    | .word v :: args => (sprintPrintNumber v 10).map (·, args)
    | _ => none
  else if k = 0x73#8 then -- 's'
    match args with
    | .string str :: args => some (str.take (strlen str), args)
    | _ => none
  else if k = 0x63#8 then -- 'c'
    match args with
    | .word v :: args => some ([v.setWidth 8], args)
    | _ => none
  else if k = 0x78#8 then -- 'x'
    match args with
    | .word v :: args => (sprintPrintNumber v 16).map (·, args)
    | _ => none
  else if k = 0x62#8 then -- 'b'
    match args with
    | .word v :: args => (sprintPrintNumber v 2).map (·, args)
    | _ => none
  else some ([], args)

def sprintLoop : List (BitVec 8) → List SprintArg → Option (List (BitVec 8))
  | [], _ => some []
  | [c], _ => some (if c = percent then [] else [c])
  | c :: k :: format, args =>
    if c = percent then
      (sprintConvert k args).bind fun r => (sprintLoop format r.2).map (r.1 ++ ·)
    else (sprintLoop (k :: format) args).map (c :: ·)

def sprint (str : ℕ) (format : List (BitVec 8)) (args : List SprintArg) (m : ℕ → BitVec 8) :
    Option (ℕ × (ℕ → BitVec 8)) :=
  (sprintLoop format args).map fun out => (out.length, store m str (out ++ [0#8]))

structure StringAt (m : ℕ → BitVec 8) (low high : ℕ) (a : BitVec 64) (str : List (BitVec 8)) :
    Prop where
  low_le : low ≤ a.toNat
  le_high : a.toNat + (str.length + 1) ≤ high
  bytes : load m a.toNat (str.length + 1) = str ++ [0#8]

variable {str : List (BitVec 8)} {m m' : ℕ → BitVec 8}

theorem strlen_eq (h : 0#8 ∉ str) : strlen str = str.length := by
  induction str with
  | nil => rfl
  | cons c str ih =>
    rw [List.mem_cons, not_or] at h
    rw [strlen, if_neg (Ne.symm h.1), ih h.2, List.length_cons]

theorem strlen_append_zero (h : 0#8 ∉ str) (rest : List (BitVec 8)) :
    strlen (str ++ 0#8 :: rest) = str.length := by
  induction str with
  | nil => rfl
  | cons c str ih =>
    rw [List.mem_cons, not_or] at h
    rw [List.cons_append, strlen, if_neg (Ne.symm h.1), ih h.2, List.length_cons]

theorem strcpy_eq_store {dest : ℕ} (h : 0#8 ∉ str) (hdest : dest + (str.length + 1) ≤ 2 ^ 64) :
    strcpy dest str m = store m dest (str ++ [0#8]) := by
  induction str generalizing dest m with
  | nil =>
    rw [strcpy, List.nil_append, store_cons, store_empty,
      wrap_of_lt (by rw [List.length_nil] at hdest; omega)]
  | cons c str ih =>
    rw [List.mem_cons, not_or] at h
    rw [List.length_cons] at hdest
    rw [strcpy, if_neg (Ne.symm h.1), ih h.2 (by omega), List.cons_append, store_cons,
      wrap_of_lt (by omega)]

variable {low high low' high' : ℕ} {a : BitVec 64}

theorem StringAt.mono (h : StringAt m low high a str) (hlow : low' ≤ low) (hhigh : high ≤ high') :
    StringAt m low' high' a str :=
  ⟨hlow.trans h.low_le, h.le_high.trans hhigh, h.bytes⟩

theorem StringAt.congr (h : StringAt m low high a str)
    (hm : ∀ x, low ≤ x → x < high → m' x = m x) : StringAt m' low high a str := by
  refine ⟨h.low_le, h.le_high, (load_of_agree fun x hle hlt => ?_).trans h.bytes⟩
  have hlow := h.low_le
  have hhigh := h.le_high
  exact hm x (by omega) (by omega)

end Pastoral
