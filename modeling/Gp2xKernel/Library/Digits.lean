import Mathlib.Data.Nat.Bitwise
import Mathlib.Tactic

/-!
# Digits of an index in a power-of-two base

A tree of fan-out `2 ^ s` routes an index by its digits in base `2 ^ s`, the
level-`k` digit being read with a shift and a mask.  The residue of the index
modulo `2 ^ (k * s)` is what the `k` lowest levels see of it.

## Main definitions

* `digit s k i`: digit number `k` of `i` in base `2 ^ s`, as a shift and a mask

## Main results

* `mod_succ_eq_iff`: two indices agree below level `k + 1` iff they have the
  same digit `k` and agree below level `k`
-/

namespace Gp2xKernel.Library

open Nat

/-- Digit number `k` of `i` in base `2 ^ s`: shift the lower digits out, mask
the higher ones off. -/
def digit (s k i : ℕ) : ℕ := (i >>> (k * s)) &&& (2 ^ s - 1)

theorem digit_eq (s k i : ℕ) : digit s k i = i / 2 ^ (k * s) % 2 ^ s := by
  rw [digit, shiftRight_eq_div_pow, and_two_pow_sub_one_eq_mod]

theorem digit_lt (s k i : ℕ) : digit s k i < 2 ^ s := by
  rw [digit_eq]
  exact Nat.mod_lt _ (Nat.two_pow_pos s)

theorem two_pow_succ_mul (s k : ℕ) : 2 ^ ((k + 1) * s) = 2 ^ (k * s) * 2 ^ s := by
  rw [add_mul, one_mul, pow_add]

/-- A number has one quotient and one lowest digit. -/
theorem eq_and_eq_of_mul_add_eq {b p q o d : ℕ} (ho : o < b) (hd : d < b)
    (h : p * b + o = q * b + d) : p = q ∧ o = d := by
  have hdiv := congrArg (· / b) h
  have hmod := congrArg (· % b) h
  have hb : 0 < b := by omega
  simp only [mul_comm _ b, mul_add_div hb, div_eq_of_lt ho, div_eq_of_lt hd] at hdiv
  simp only [mul_comm _ b, mul_add_mod, mod_eq_of_lt ho, mod_eq_of_lt hd] at hmod
  exact ⟨hdiv, hmod⟩

/-- The residue below level `k + 1` splits into digit `k` and the residue below
level `k`. -/
theorem mod_succ_eq (s k i : ℕ) :
    i % 2 ^ ((k + 1) * s) = i % 2 ^ (k * s) + 2 ^ (k * s) * digit s k i := by
  rw [two_pow_succ_mul, mod_mul, digit_eq]

theorem mod_succ_eq_iff (s k i j : ℕ) :
    i % 2 ^ ((k + 1) * s) = j % 2 ^ ((k + 1) * s) ↔
      digit s k i = digit s k j ∧ i % 2 ^ (k * s) = j % 2 ^ (k * s) := by
  have hi : i % 2 ^ (k * s) < 2 ^ (k * s) := Nat.mod_lt _ (Nat.two_pow_pos _)
  have hj : j % 2 ^ (k * s) < 2 ^ (k * s) := Nat.mod_lt _ (Nat.two_pow_pos _)
  rw [mod_succ_eq, mod_succ_eq]
  constructor
  · intro h
    refine eq_and_eq_of_mul_add_eq hi hj ?_
    rw [mul_comm, add_comm, h, add_comm, mul_comm]
  · rintro ⟨hd, hm⟩
    rw [hd, hm]

variable {s k i : ℕ}

/-- An index below `2 ^ (k * s)` has digit `k` zero. -/
theorem digit_eq_zero_of_lt (h : i < 2 ^ (k * s)) : digit s k i = 0 := by
  rw [digit_eq, div_eq_of_lt h, zero_mod]

/-- An index below `2 ^ ((k + 1) * s)` with digit `k` zero is below
`2 ^ (k * s)`. -/
theorem lt_of_digit_eq_zero (h : i < 2 ^ ((k + 1) * s)) (hd : digit s k i = 0) :
    i < 2 ^ (k * s) := by
  have hsplit := mod_succ_eq s k i
  rw [mod_eq_of_lt h, hd] at hsplit
  rw [hsplit]
  exact Nat.mod_lt _ (Nat.two_pow_pos _)

/-- Digit `k` is the quotient by `2 ^ (k * s)` reduced to its lowest digit. -/
theorem div_eq_digit_add (s k i : ℕ) :
    i / 2 ^ (k * s) = i / 2 ^ ((k + 1) * s) * 2 ^ s + digit s k i := by
  rw [digit_eq, two_pow_succ_mul, ← Nat.div_div_eq_div_mul]
  exact (div_add_mod' (i / 2 ^ (k * s)) (2 ^ s)).symm

end Gp2xKernel.Library
