import Mathlib.Data.Finset.Card
import Mathlib.Data.Fintype.Basic

/-!
# Words with bit errors

A word is known by its bits, and each bit can be flipped.  A received word differs from the word
that was sent at the positions of its errors; with one error it is the sent word with one bit
flipped, with two errors it has two different bits flipped.

## Main definitions

* `BitWords`: words, their bits, and flipping a bit
* `BitWords.errors`: the positions where two words differ

## Main results

* `BitWords.exists_flip_of_card_one`, `BitWords.exists_flip_of_card_two`
-/

namespace Gp2xKernel.Library

/-- Words `W` with bits at the positions `P`. -/
structure BitWords (W P : Type*) [DecidableEq P] where
  bit : W → P → Bool
  flip : P → W → W
  ext : ∀ w w', (∀ p, bit w p = bit w' p) → w = w'
  bit_flip : ∀ p w q, bit (flip p w) q = (bit w q ^^ decide (q = p))

namespace BitWords

variable {W P : Type*} [DecidableEq P] [Fintype P] (B : BitWords W P)

/-- The positions where two words differ. -/
def errors (w w' : W) : Finset P := Finset.univ.filter fun p => B.bit w p ≠ B.bit w' p

variable {B} {w w' : W}

theorem mem_errors {p : P} : p ∈ B.errors w w' ↔ B.bit w p ≠ B.bit w' p := by
  simp [errors]

theorem bit_eq_xor (p : P) : B.bit w' p = (B.bit w p ^^ decide (p ∈ B.errors w w')) := by
  by_cases hp : p ∈ B.errors w w'
  · have hne := mem_errors.mp hp
    rw [decide_eq_true hp, Bool.xor_true]
    exact (Bool.eq_not.mpr hne.symm)
  · have heq : B.bit w p = B.bit w' p := by
      by_contra hne
      exact hp (mem_errors.mpr hne)
    rw [decide_eq_false hp, Bool.xor_false, heq]

/-- **One error** is one flipped bit. -/
theorem exists_flip_of_card_one (h : (B.errors w w').card = 1) : ∃ p, w' = B.flip p w := by
  obtain ⟨p, hp⟩ := Finset.card_eq_one.mp h
  refine ⟨p, B.ext _ _ fun q => ?_⟩
  rw [bit_eq_xor (w := w), B.bit_flip, hp]
  simp

/-- **Two errors** are two different flipped bits. -/
theorem exists_flip_of_card_two (h : (B.errors w w').card = 2) :
    ∃ p q, p ≠ q ∧ w' = B.flip q (B.flip p w) := by
  obtain ⟨p, q, hne, hpq⟩ := Finset.card_eq_two.mp h
  refine ⟨p, q, hne, B.ext _ _ fun r => ?_⟩
  rw [bit_eq_xor (w := w), B.bit_flip, B.bit_flip, hpq]
  by_cases hrp : r = p
  · subst hrp
    simp [hne]
  · simp [hrp]

end BitWords

end Gp2xKernel.Library
