import Mathlib.Data.Nat.Digits.Lemmas
import Pastoral.Lib.Strings

/-!
# Printed numbers

`sprint_print_number` and `serial_print_number` divide a number by the base until nothing is left,
and emit the digits in reverse.

## Main results

* `number_printed_iff`: the numbers that are printed as numerals
-/

namespace Pastoral

def serialPrintNumber (number : BitVec 64) (base : ℕ) : Option (List (BitVec 8)) :=
  let arr := numberDigits base 64 number.toNat
  if arr.length ≤ 50 then some (arr.reverse.map digitCharacter) else none

/-- **A numeral**: digits below the base, the first of them not zero unless it is the only one. -/
def Numeral (base n : ℕ) (str : List (BitVec 8)) : Prop :=
  ∃ digits : List ℕ, str = digits.map digitCharacter ∧ (∀ d ∈ digits, d < base) ∧ digits ≠ [] ∧
    (digits.head? = some 0 → digits = [0]) ∧ Nat.ofDigits base digits.reverse = n

section Digits

variable {base n fuel : ℕ}

section

variable (hbase : 1 < base) (hn : n < base ^ fuel) (hfuel : 0 < fuel)

include hbase hn hfuel

theorem numberDigits_eq : numberDigits base fuel n = if n = 0 then [0] else base.digits n := by
  induction fuel generalizing n with
  | zero => exact absurd hfuel (lt_irrefl 0)
  | succ fuel ih =>
    rw [numberDigits]
    split_ifs with hlast hzero hzero
    · rw [hzero, Nat.zero_mod]
    · rw [Nat.digits_def' hbase (pos_of_ne_zero hzero), hlast, Nat.digits_zero]
    · exact absurd (by rw [hzero, Nat.zero_div]) hlast
    · have hlt := Nat.div_lt_of_lt_mul (by rwa [← pow_succ'])
      have hmore : 0 < fuel := by
        refine pos_of_ne_zero fun hnone => hlast ?_
        rw [hnone] at hlt
        exact Nat.lt_one_iff.mp hlt
      rw [ih hlt hmore, if_neg hlast, ← Nat.digits_def' hbase (pos_of_ne_zero hzero)]

theorem length_numberDigits_le_iff {k : ℕ} (hk : 0 < k) :
    (numberDigits base fuel n).length ≤ k ↔ n < base ^ k := by
  rw [numberDigits_eq hbase hn hfuel]
  split_ifs with hzero
  · rw [hzero]
    exact iff_of_true hk (Nat.pow_pos (by omega))
  · exact Nat.digits_length_le_iff hbase n

theorem numeral_numberDigits :
    Numeral base n ((numberDigits base fuel n).reverse.map digitCharacter) := by
  rw [numberDigits_eq hbase hn hfuel]
  split_ifs with hzero
  · subst hzero
    exact ⟨[0], rfl, by simpa using by omega, by simp, fun _ => rfl, by simp⟩
  · refine ⟨_, rfl, fun d hd => Nat.digits_lt_base hbase (List.mem_reverse.mp hd), ?_, ?_, ?_⟩
    · rwa [ne_eq, List.reverse_eq_nil_iff, Nat.digits_eq_nil_iff_eq_zero]
    · intro hhead
      rw [List.head?_reverse] at hhead
      have hne : base.digits n ≠ [] := Nat.digits_ne_nil_iff_ne_zero.mpr hzero
      rw [List.getLast?_eq_some_getLast hne] at hhead
      exact absurd (Option.some.inj hhead) (Nat.getLast_digit_ne_zero base hzero)
    · rw [List.reverse_reverse, Nat.ofDigits_digits]

end

end Digits

/-- **When numbers are printed**: in the bases 10 and 16 always, and in base 2 if the number has no
more than 50 digits. -/
theorem number_printed_iff {base : ℕ} (hbase : base = 2 ∨ base = 10 ∨ base = 16)
    (number : BitVec 64) :
    (∃ out, sprintPrintNumber number base = some out ∧ Numeral base number.toNat out) ∧
        (∃ out, serialPrintNumber number base = some out ∧ Numeral base number.toNat out) ↔
      base ≠ 2 ∨ number.toNat < 2 ^ 50 := by
  have hlt := number.isLt
  have hone : 1 < base := by omega
  have hfits : number.toNat < base ^ 64 := hlt.trans_le (Nat.pow_le_pow_left hone 64)
  have hnumeral := numeral_numberDigits hone hfits (by omega)
  have hroom : (numberDigits base 64 number.toNat).length ≤ 50 ↔
      base ≠ 2 ∨ number.toNat < 2 ^ 50 := by
    rw [length_numberDigits_le_iff hone hfits (by omega) (by omega)]
    rcases hbase with rfl | rfl | rfl <;> omega
  rw [← hroom]
  unfold sprintPrintNumber serialPrintNumber
  dsimp only
  split_ifs with hle
  · exact iff_of_true ⟨⟨_, rfl, hnumeral⟩, _, rfl, hnumeral⟩ hle
  · exact iff_of_false (fun h => absurd h.1.choose_spec.1 (by simp)) hle

theorem number_printed_iff_ten :
    ∃ out, sprintPrintNumber 10#64 10 = some out ∧ Numeral 10 10 out :=
  ((number_printed_iff (Or.inr (Or.inl rfl)) 10#64).mpr (Or.inl (by decide))).1

/-- **The array is too short** for the 51 binary digits of `2 ^ 50`. -/
theorem binary_number_overruns : numberDigits 2 64 (2 ^ 50) = List.replicate 50 0 ++ [1] ∧
    sprintPrintNumber (BitVec.ofNat 64 (2 ^ 50)) 2 = none ∧
    serialPrintNumber (BitVec.ofNat 64 (2 ^ 50)) 2 = none := by
  decide +kernel

end Pastoral
