import Mathlib.Data.List.Basic
import Mathlib.Logic.Function.Basic

/-!
# Bytes and words in memory

A memory gives every address its contents.

## Main definitions

* `store`, `load`: runs of elements
* `storeWord`, `word`: a word of 64 bits is eight bytes, the lowest first

## Main results

* `load_store`, `words_storeWords`: what is stored is loaded
-/

open Function List Option

namespace ByteMemory

section Runs

variable {α : Type*} {m m' : ℕ → α} {a n x : ℕ} {x' : α} {l : List α}

/-- The memory with the elements of a list from `a` on. -/
def store (m : ℕ → α) (a : ℕ) (l : List α) : ℕ → α :=
  fun x => if a ≤ x then l[x - a]?.getD (m x) else m x

def load (m : ℕ → α) (a n : ℕ) : List α := (List.range n).map fun i => m (a + i)

theorem store_outside (h : x < a ∨ a + l.length ≤ x) : store m a l x = m x := by
  unfold store
  rcases h with hlt | hle
  · rw [if_neg (Nat.not_le_of_lt hlt)]
  · rw [getElem?_eq_none (by omega), getD_none, ite_self]

theorem store_empty : store m a [] = m :=
  funext fun x => store_outside (by rw [length_nil]; omega)

theorem store_cons (c : α) : store m a (c :: l) = store (update m a c) (a + 1) l := by
  funext x
  unfold store
  rcases Nat.lt_trichotomy x a with hlt | rfl | hlt
  · rw [if_neg (by omega), if_neg (by omega), update_of_ne (by omega)]
  · rw [if_pos (Nat.le_refl x), if_neg (by omega), update_self, Nat.sub_self]
    rfl
  · rw [if_pos (by omega), if_pos (by omega), update_of_ne (by omega),
      show x - a = x - (a + 1) + 1 by omega, getElem?_cons_succ]

theorem length_load : (load m a n).length = n := by rw [load, length_map, length_range]

theorem load_of_agree (h : ∀ x, a ≤ x → x < a + n → m x = m' x) : load m a n = load m' a n := by
  refine map_congr_left fun i hi => h _ (Nat.le_add_right a i) ?_
  exact Nat.add_lt_add_left (mem_range.mp hi) a

theorem load_succ (m : ℕ → α) (a n : ℕ) : load m a (n + 1) = load m a n ++ [m (a + n)] := by
  rw [load, range_succ, map_append]
  rfl

theorem load_store : load (store m a l) a l.length = l := by
  refine ext_getElem length_load fun i hi hlt => ?_
  simp [load, store, getElem?_eq_getElem hlt]

theorem store_append (l' : List α) :
    store (store m a l) (a + l.length) l' = store m a (l ++ l') := by
  induction l generalizing m a with
  | nil => rw [store_empty, length_nil, Nat.add_zero, nil_append]
  | cons c l ih =>
    rw [store_cons, cons_append, store_cons, length_cons, ← ih, Nat.add_comm l.length 1,
      Nat.add_assoc]

theorem store_self (h : m a = x') : store m a [x'] = m := by
  rw [store_cons, store_empty, ← h, update_eq_self]

theorem load_store_const (z : α) {i : ℕ} (hi : i ≤ l.length) (hn : l.length ≤ i + n) :
    load (store (fun _ => z) 0 l) i n = l.drop i ++ replicate (i + n - l.length) z := by
  refine ext_getElem ?_ fun j hj hj' => ?_
  · rw [length_load, length_append, length_drop, length_replicate]
    omega
  · simp only [load, store, getElem_map, getElem_range, Nat.zero_le, if_true, Nat.sub_zero]
    by_cases hlt : i + j < l.length
    · rw [getElem_append_left (by rw [length_drop]; omega), getElem_drop,
        getElem?_eq_getElem hlt, getD_some]
    · rw [getElem_append_right (by rw [length_drop]; omega), getElem_replicate,
        getElem?_eq_none (by omega), getD_none]

end Runs

section Words

variable {m m' : ℕ → BitVec 8} {a n x : ℕ} {v : BitVec 64} {u w : List (BitVec 64)}

def wordBytes (v : BitVec 64) : List (BitVec 8) :=
  [v.extractLsb' 0 8, v.extractLsb' 8 8, v.extractLsb' 16 8, v.extractLsb' 24 8,
    v.extractLsb' 32 8, v.extractLsb' 40 8, v.extractLsb' 48 8, v.extractLsb' 56 8]

def word (m : ℕ → BitVec 8) (a : ℕ) : BitVec 64 :=
  m (a + 7) ++ (m (a + 6) ++ (m (a + 5) ++ (m (a + 4) ++
    (m (a + 3) ++ (m (a + 2) ++ (m (a + 1) ++ m a))))))

def storeWord (m : ℕ → BitVec 8) (a : ℕ) (v : BitVec 64) : ℕ → BitVec 8 := store m a (wordBytes v)

def storeWords (m : ℕ → BitVec 8) : ℕ → List (BitVec 64) → ℕ → BitVec 8
  | _, [] => m
  | a, v :: ws => storeWords (storeWord m a v) (a + 8) ws

def words (m : ℕ → BitVec 8) (a n : ℕ) : List (BitVec 64) :=
  (List.range n).map fun i => word m (a + 8 * i)

theorem storeWord_outside (h : x < a ∨ a + 8 ≤ x) : storeWord m a v x = m x := store_outside h

theorem storeWords_outside (h : x < a ∨ a + 8 * w.length ≤ x) : storeWords m a w x = m x := by
  induction w generalizing m a with
  | nil => rfl
  | cons v w ih =>
    rw [length_cons] at h
    rw [storeWords, ih (by omega), storeWord_outside (by omega)]

theorem bytes_append (v : BitVec 64) :
    (v.extractLsb' 56 8 ++ (v.extractLsb' 48 8 ++ (v.extractLsb' 40 8 ++ (v.extractLsb' 32 8 ++
      (v.extractLsb' 24 8 ++ (v.extractLsb' 16 8 ++ (v.extractLsb' 8 8 ++ v.extractLsb' 0 8)))))) :
        BitVec 64) = v := by
  ext i hi
  simp only [BitVec.getElem_append, BitVec.getElem_extractLsb']
  split_ifs <;> rw [← BitVec.getLsbD_eq_getElem] <;> congr 1 <;> omega

theorem word_storeWord : word (storeWord m a v) a = v := by
  refine Eq.trans ?_ (bytes_append v)
  simp [word, storeWord, store, wordBytes]

theorem word_congr (h : ∀ x, a ≤ x → x < a + 8 → m x = m' x) : word m a = word m' a := by
  unfold word
  rw [h a (by omega) (by omega), h (a + 1) (by omega) (by omega), h (a + 2) (by omega) (by omega),
    h (a + 3) (by omega) (by omega), h (a + 4) (by omega) (by omega),
    h (a + 5) (by omega) (by omega), h (a + 6) (by omega) (by omega),
    h (a + 7) (by omega) (by omega)]

theorem words_succ (m : ℕ → BitVec 8) (a n : ℕ) :
    words m a (n + 1) = word m a :: words m (a + 8) n := by
  rw [words, range_succ_eq_map, map_cons, List.map_map]
  refine congrArg (cons _) (map_congr_left fun i _ => ?_)
  rw [comp_apply, Nat.mul_succ, Nat.add_comm (8 * i) 8, ← Nat.add_assoc]

theorem words_congr (h : ∀ x, a ≤ x → x < a + 8 * n → m x = m' x) : words m a n = words m' a n := by
  refine map_congr_left fun i hi => word_congr fun x hle hlt => ?_
  rw [mem_range] at hi
  exact h x (by omega) (by omega)

/-- **A run of words is read back**, with the words that are above it. -/
theorem words_storeWords (h : words m (a + 8 * u.length) n = w) :
    words (storeWords m a u) a (u.length + n) = u ++ w := by
  induction u generalizing m a with
  | nil =>
    rw [length_nil, Nat.zero_add]
    exact h
  | cons v u ih =>
    rw [length_cons] at h ⊢
    have habove : words (storeWord m a v) (a + 8 + 8 * u.length) n = w := by
      rw [← h, show a + 8 * (u.length + 1) = a + 8 + 8 * u.length by omega]
      exact words_congr fun x hle _ => storeWord_outside (.inr (by omega))
    have hfirst : word (storeWords (storeWord m a v) (a + 8) u) a = v :=
      (word_congr fun x _ hlt => storeWords_outside (.inl hlt)).trans word_storeWord
    rw [storeWords, show u.length + 1 + n = u.length + n + 1 by omega, words_succ, hfirst,
      ih habove, cons_append]

end Words

end ByteMemory
