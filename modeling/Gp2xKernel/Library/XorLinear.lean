import Mathlib.Data.BitVec

/-!
# Functions that are linear in exclusive or

Bit vectors with exclusive or form a vector space over the field of two elements.  A linear
function is determined by its values on the vectors with a single bit, so that two of them
are compared by finitely many evaluations.

## Main definitions

* `XorLinear`: linear functions between bit vectors

## Main results

* `XorLinear.ext`: linear functions that agree on single bits are equal
* `ofNat_two_pow_mul_add`: a sum without carries is an exclusive or
* `foldl_zipWith_xor`: folding a linear step over two lists at once
-/

namespace Gp2xKernel.Library

open BitVec Nat

variable {u v w : ℕ}

/-- The function is linear in exclusive or. -/
def XorLinear (f : BitVec v → BitVec w) : Prop := ∀ x y, f (x ^^^ y) = f x ^^^ f y

namespace XorLinear

variable {f g : BitVec v → BitVec w}

theorem map_zero (hf : XorLinear f) : f 0#v = 0#w := by
  have h := hf 0#v 0#v
  rwa [BitVec.xor_self, BitVec.xor_self] at h

theorem id : XorLinear (fun x : BitVec w => x) := fun _ _ => rfl

theorem zero : XorLinear (fun _ : BitVec v => 0#w) := fun _ _ => xor_self.symm

theorem comp {g : BitVec u → BitVec v} (hf : XorLinear f) (hg : XorLinear g) :
    XorLinear fun x => f (g x) := by
  intro x y
  show f (g (x ^^^ y)) = f (g x) ^^^ f (g y)
  rw [hg, hf]

theorem xor (hf : XorLinear f) (hg : XorLinear g) : XorLinear fun x => f x ^^^ g x := by
  intro x y
  show f (x ^^^ y) ^^^ g (x ^^^ y) = f x ^^^ g x ^^^ (f y ^^^ g y)
  rw [hf, hg]
  ac_rfl

theorem iterate {f : BitVec w → BitVec w} (hf : XorLinear f) (n : ℕ) : XorLinear f^[n] := by
  induction n with
  | zero => exact fun _ _ => rfl
  | succ n ih =>
    intro x y
    rw [Function.iterate_succ_apply', Function.iterate_succ_apply', Function.iterate_succ_apply',
      ih, hf]

theorem ushiftRight (n : ℕ) : XorLinear fun x : BitVec w => x >>> n :=
  fun x y => ushiftRight_xor_distrib x y n

theorem shiftLeft (n : ℕ) : XorLinear fun x : BitVec w => x <<< n :=
  fun x y => shiftLeft_xor_distrib x y n

theorem and_right (m : BitVec w) : XorLinear fun x : BitVec w => x &&& m := by
  intro x y
  refine eq_of_getLsbD_eq fun i _ => ?_
  simp [Bool.and_xor_distrib_right]

/-- A mask may also be applied before a second word is added. -/
theorem and_xor_and (x y m : BitVec w) : ((x &&& m) ^^^ y) &&& m = (x ^^^ y) &&& m := by
  refine eq_of_getLsbD_eq fun i _ => ?_
  simp only [getLsbD_and, getLsbD_xor]
  cases m.getLsbD i <;> simp

theorem setWidth : XorLinear fun x : BitVec v => x.setWidth w :=
  fun _ _ => setWidth_xor

theorem reverse : XorLinear fun x : BitVec w => x.reverse := by
  intro x y
  refine eq_of_getLsbD_eq fun i _ => ?_
  simp [getLsbD_reverse]

/-- A constant that is added if a fixed bit is set. -/
theorem ite_getLsbD (i : ℕ) (c : BitVec w) :
    XorLinear fun x : BitVec v => if x.getLsbD i then c else 0 := by
  intro x y
  show (if (x ^^^ y).getLsbD i then c else 0) =
    (if x.getLsbD i then c else 0) ^^^ (if y.getLsbD i then c else 0)
  rw [getLsbD_xor]
  cases x.getLsbD i <;> cases y.getLsbD i <;> simp

/-- **Single bits determine a linear function.** -/
theorem ext (hf : XorLinear f) (hg : XorLinear g)
    (h : ∀ i, i < v → f (twoPow v i) = g (twoPow v i)) (x : BitVec v) :
    f x = g x := by
  -- by induction on the number of low bits that may be set
  suffices hlow : ∀ n ≤ v, ∀ x : BitVec v, (∀ i, n ≤ i → x.getLsbD i = false) → f x = g x from
    hlow v le_rfl x fun i hi => getLsbD_of_ge x i hi
  intro n
  induction n with
  | zero =>
    intro _ x hx
    obtain rfl : x = 0#v := eq_of_getLsbD_eq fun i _ => (hx i i.zero_le).trans getLsbD_zero.symm
    rw [hf.map_zero, hg.map_zero]
  | succ n ih =>
    intro hn x hx
    cases hbit : x.getLsbD n with
    | false =>
      refine ih (by omega) x fun i hi => ?_
      rcases eq_or_lt_of_le hi with rfl | hlt
      · exact hbit
      · exact hx i hlt
    | true =>
      -- take the bit `n` out
      have hx' : x = x ^^^ twoPow v n ^^^ twoPow v n := by
        rw [BitVec.xor_assoc, BitVec.xor_self, BitVec.xor_zero]
      rw [hx', hf, hg, ih (by omega) _ fun i hi => ?_, h n (by omega)]
      rcases eq_or_lt_of_le hi with rfl | hlt
      · simp [hbit]
        omega
      · simp [hx i hlt]
        omega

end XorLinear

/-- A number whose low bits are added to a multiple of a power of two. -/
theorem ofNat_two_pow_mul_add {k b : ℕ} (hb : b < 2 ^ k) (a : ℕ) :
    BitVec.ofNat w (2 ^ k * a + b) = BitVec.ofNat w (2 ^ k * a) ^^^ BitVec.ofNat w b := by
  rw [← ofNat_xor]
  congr 1
  refine eq_of_testBit_eq fun i => ?_
  rw [testBit_xor, testBit_two_pow_mul_add a hb, testBit_two_pow_mul]
  by_cases hi : i < k
  · simp [not_le.mpr hi]
  · have hbit : b.testBit i = false :=
      Nat.testBit_lt_two_pow (hb.trans_le (Nat.pow_le_pow_right (by decide) (not_lt.mp hi)))
    simp [hbit, not_lt.mp hi]

/-- Folding a step that is linear in state and input over two lists at once. -/
theorem foldl_zipWith_xor {β : Type*} {step : BitVec w → β → BitVec w} {add : β → β → β}
    (hstep : ∀ x y a b, step (x ^^^ y) (add a b) = step x a ^^^ step y b) (as bs : List β)
    (hlen : as.length = bs.length) (x y : BitVec w) :
    (List.zipWith add as bs).foldl step (x ^^^ y) = as.foldl step x ^^^ bs.foldl step y := by
  induction as generalizing bs x y with
  | nil =>
    obtain rfl := List.length_eq_zero_iff.mp hlen.symm
    rfl
  | cons a as ih =>
    cases bs with
    | nil => simp at hlen
    | cons b bs =>
      rw [List.zipWith_cons_cons, List.foldl_cons, hstep]
      exact ih bs (by simpa using hlen) _ _

end Gp2xKernel.Library
