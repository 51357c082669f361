import Mathlib.Algebra.Order.Ring.Nat
import Mathlib.Data.Nat.ModEq
import Mathlib.Tactic.Ring

/-!
# Machine arithmetic of the kernel

`size_t` and `uint64_t` are numbers below `2 ^ 64` and every sum and product of them is reduced.
-/

namespace Pastoral

def wrap (n : ℕ) : ℕ := n % 2 ^ 64

def wrapSub (a b : ℕ) : ℕ := wrap (a + (2 ^ 64 - wrap b))

abbrev pageSize : ℕ := 0x1000

def divRoundup (a b : ℕ) : ℕ := wrap (a + (b - 1)) / b

def alignUp (a b : ℕ) : ℕ := wrap (divRoundup a b * b)

variable {a b : ℕ}

theorem wrap_lt (n : ℕ) : wrap n < 2 ^ 64 := Nat.mod_lt _ (Nat.two_pow_pos 64)

theorem wrap_of_lt {n : ℕ} (h : n < 2 ^ 64) : wrap n = n := Nat.mod_eq_of_lt h

theorem wrapSub_of_le (hb : b ≤ a) (ha : a < 2 ^ 64) : wrapSub a b = a - b := by
  rw [wrapSub, wrap_of_lt (lt_of_le_of_lt hb ha), wrap]
  omega

theorem wrap_modEq (n : ℕ) : wrap n ≡ n [MOD 2 ^ 64] := Nat.mod_modEq n _

theorem dvd_wrap {d n : ℕ} (hd : d ∣ 2 ^ 64) (h : d ∣ n) : d ∣ wrap n := (Nat.dvd_mod_iff hd).mpr h

theorem pageSize_dvd_two_pow : pageSize ∣ 2 ^ 64 := by decide

theorem divRoundup_of_lt (h : a + (b - 1) < 2 ^ 64) : divRoundup a b = (a + (b - 1)) / b := by
  rw [divRoundup, wrap_of_lt h]

theorem divRoundup_mul {n : ℕ} (hb : 0 < b) (h : n * b + (b - 1) < 2 ^ 64) :
    divRoundup (n * b) b = n := by
  rw [divRoundup_of_lt h, add_comm, Nat.add_mul_div_right _ _ hb,
    Nat.div_eq_of_lt (by omega), zero_add]

theorem divRoundup_spec (hb : 0 < b) (h : a + (b - 1) < 2 ^ 64) :
    a ≤ divRoundup a b * b ∧ divRoundup a b * b < a + b := by
  rw [divRoundup_of_lt h]
  have hdiv := Nat.div_add_mod (a + (b - 1)) b
  have hmod := Nat.mod_lt (a + (b - 1)) hb
  rw [mul_comm] at hdiv
  omega

theorem alignUp_spec (hb : 0 < b) (h : a + b ≤ 2 ^ 64) :
    b ∣ alignUp a b ∧ a ≤ alignUp a b ∧ alignUp a b < a + b := by
  obtain ⟨hle, hlt⟩ := divRoundup_spec hb (a := a) (by omega)
  rw [alignUp, wrap_of_lt (by omega)]
  exact ⟨dvd_mul_left _ _, hle, hlt⟩

theorem alignUp_eq_self (hb : 0 < b) (h : a + b ≤ 2 ^ 64) (hdvd : b ∣ a) : alignUp a b = a := by
  obtain ⟨n, rfl⟩ := hdvd
  rw [alignUp, mul_comm b n, divRoundup_mul hb (by rw [mul_comm]; omega),
    wrap_of_lt (by rw [mul_comm]; omega)]

theorem dvd_alignUp {d : ℕ} (hd : d ∣ 2 ^ 64) (hdb : d ∣ b) : d ∣ alignUp a b :=
  dvd_wrap hd (hdb.mul_left _)

end Pastoral
