import Mathlib.Data.BitVec
import Mathlib.Tactic.Ring

/-!
# Reciprocal division

`reciprocal_value` of `lib/reciprocal_div.c` rounds `2 ^ 32 / B` up, and `reciprocal_divide`
multiplies by it instead of dividing by `B`.  The slab allocator finds the index of an object in
this way.  The product exceeds the multiple of `2 ^ 32` that it stands for by `A` times the
rounding error, which is less than `B`.

## Main definitions

* `reciprocalValue`, `reciprocalDivide`: the two functions
* `KmemCache`, `indexToObj`, `objToIndex`: the objects of a slab

## Main results

* `reciprocalDivide_lt_iff`: when the quotient is not too large
* `reciprocal_exact`: the quotient is right or too large by one, and right for objects
-/

namespace Gp2xKernel.Division

open BitVec Nat

/-- `reciprocal_value`; `do_div` divides by a 32-bit number. -/
def reciprocalValue (k : BitVec 32) : BitVec 32 :=
  (((1#64 <<< 32) + (k - 1).setWidth 64) / k.setWidth 64).setWidth 32

def reciprocalDivide (a r : BitVec 32) : BitVec 32 :=
  ((a.setWidth 64 * r.setWidth 64) >>> 32).setWidth 32

/-- The fields of `struct kmem_cache` that are read here. -/
structure KmemCache where
  bufferSize : BitVec 32
  reciprocalBufferSize : BitVec 32

/-- The cache that `kmem_cache_create` makes for objects of a size. -/
def KmemCache.create (size : BitVec 32) : KmemCache := ⟨size, reciprocalValue size⟩

variable {w : ℕ}

/-- `index_to_obj`, for pointers of width `w` -/
def indexToObj (cache : KmemCache) (sMem : BitVec w) (idx : BitVec 32) : BitVec w :=
  sMem + (cache.bufferSize * idx).setWidth w

def objToIndex (cache : KmemCache) (sMem obj : BitVec w) : BitVec 32 :=
  reciprocalDivide ((obj - sMem).setWidth 32) cache.reciprocalBufferSize

variable {b : BitVec 32}

/-- The reciprocal is `2 ^ 32 / b`, rounded up by less than one. -/
theorem reciprocalValue_mul (hb : 2 ≤ b.toNat) :
    ∃ e < b.toNat, (reciprocalValue b).toNat * b.toNat = 2 ^ 32 + e := by
  have hone : 1#32 ≤ b := le_def.mpr (le_of_succ_le hb)
  have hpred : (b - 1).toNat = b.toNat - 1 := toNat_sub_of_le hone
  have hsum : ((1#64 <<< 32) + (b - 1).setWidth 64).toNat = 2 ^ 32 + (b.toNat - 1) := by
    rw [toNat_add, toNat_setWidth, show (1#64 <<< 32).toNat = 2 ^ 32 from rfl]
    omega
  have hdiv : (2 ^ 32 + (b.toNat - 1)) / b.toNat < 2 ^ 32 :=
    Nat.div_lt_of_lt_mul (by omega)
  have hvalue : (reciprocalValue b).toNat = (2 ^ 32 + (b.toNat - 1)) / b.toNat := by
    rw [reciprocalValue, toNat_setWidth, toNat_udiv, hsum, toNat_setWidth,
      mod_eq_of_lt (by omega : b.toNat < 2 ^ 64), mod_eq_of_lt hdiv]
  have hmod := mod_lt (2 ^ 32 + (b.toNat - 1)) (by omega : b.toNat > 0)
  have hsplit := div_add_mod' (2 ^ 32 + (b.toNat - 1)) b.toNat
  rw [hvalue]
  exact ⟨_ - 2 ^ 32, by omega, (add_sub_of_le (by omega)).symm⟩

theorem toNat_reciprocalDivide (a r : BitVec 32) :
    (reciprocalDivide a r).toNat = a.toNat * r.toNat / 2 ^ 32 := by
  have hprod : a.toNat * r.toNat < 2 ^ 32 * 2 ^ 32 := mul_lt_mul'' a.isLt r.isLt
  rw [reciprocalDivide, toNat_setWidth, toNat_ushiftRight, toNat_mul, toNat_setWidth,
    toNat_setWidth, shiftRight_eq_div_pow, mod_eq_of_lt (by omega : a.toNat < 2 ^ 64),
    mod_eq_of_lt (by omega : r.toNat < 2 ^ 64),
    mod_eq_of_lt (by omega : a.toNat * r.toNat < 2 ^ 64),
    Nat.mod_eq_of_lt (Nat.div_lt_of_lt_mul hprod)]

/-- The quotient is too large by less than a bound `n` as long as the remainder and the rounding
error together are less than `n` times the divisor. -/
theorem reciprocalDivide_lt_iff (a : BitVec 32) {e : ℕ}
    (he : (reciprocalValue b).toNat * b.toNat = 2 ^ 32 + e) (hb : 0 < b.toNat) (n : ℕ) :
    (reciprocalDivide a (reciprocalValue b)).toNat < a.toNat / b.toNat + n ↔
      e * a.toNat + a.toNat % b.toNat * 2 ^ 32 < b.toNat * (2 ^ 32 * n) := by
  rw [toNat_reciprocalDivide]
  have ha := div_add_mod a.toNat b.toNat
  generalize a.toNat / b.toNat = d at ha ⊢
  generalize a.toNat % b.toNat = m at ha ⊢
  generalize (reciprocalValue b).toNat = r at he ⊢
  -- the product is `2 ^ 32` times the quotient, and a rest
  have hprod : a.toNat * r = 2 ^ 32 * d + (d * e + m * r) := by
    rw [← ha, Nat.add_mul, Nat.mul_right_comm, Nat.mul_comm b.toNat r, he]
    ring
  have hrest : e * a.toNat + m * 2 ^ 32 = b.toNat * (d * e + m * r) := by
    have hr : b.toNat * (m * r) = m * (2 ^ 32 + e) := by
      rw [← he]
      ring
    rw [Nat.mul_add, hr, ← ha]
    ring
  rw [hprod, mul_add_div (by decide), add_lt_add_iff_left, div_lt_iff_lt_mul (by decide),
    hrest, Nat.mul_lt_mul_left hb, Nat.mul_comm n]

/-- **Reciprocal division is exact where the slab allocator relies on it**, and never too large by
more than one. -/
theorem reciprocal_exact (hb : 2 ≤ b.toNat) (hw : 32 ≤ w) :
    (∀ a : BitVec 32,
      ((reciprocalDivide a (reciprocalValue b)).toNat = a.toNat / b.toNat ∨
        (reciprocalDivide a (reciprocalValue b)).toNat = a.toNat / b.toNat + 1) ∧
      (b.toNat ∣ a.toNat ∨ a.toNat * (b.toNat - 1) < 2 ^ 32 →
        (reciprocalDivide a (reciprocalValue b)).toNat = a.toNat / b.toNat)) ∧
    ∀ (sMem : BitVec w) (i : BitVec 32), i.toNat * b.toNat < 2 ^ 32 →
      objToIndex (.create b) sMem (indexToObj (.create b) sMem i) = i := by
  obtain ⟨e, heb, he⟩ := reciprocalValue_mul hb
  have hpos : 0 < b.toNat := by omega
  have hlow : ∀ a : BitVec 32, a.toNat / b.toNat ≤
      (reciprocalDivide a (reciprocalValue b)).toNat := by
    intro a
    have h := (reciprocalDivide_lt_iff a he hpos 0).not.mpr (by simp)
    omega
  -- the quotient is right if remainder and rounding error stay below the divisor
  have hexact : ∀ a : BitVec 32, b.toNat ∣ a.toNat ∨ a.toNat * (b.toNat - 1) < 2 ^ 32 →
      (reciprocalDivide a (reciprocalValue b)).toNat = a.toNat / b.toNat := by
    intro a ha
    refine le_antisymm (le_of_lt_succ ((reciprocalDivide_lt_iff a he hpos 1).mpr ?_)) (hlow a)
    rcases ha with hdvd | hsmall
    · rw [Nat.mod_eq_zero_of_dvd hdvd]
      exact mul_lt_mul'' heb a.isLt
    · have hmod := mod_lt a.toNat hpos
      calc e * a.toNat + a.toNat % b.toNat * 2 ^ 32
          ≤ a.toNat * (b.toNat - 1) + (b.toNat - 1) * 2 ^ 32 := by
            rw [mul_comm e]
            gcongr <;> omega
        _ < 2 ^ 32 + (b.toNat - 1) * 2 ^ 32 := by omega
        _ = b.toNat * (2 ^ 32 * 1) := by omega
  refine ⟨fun a => ⟨?_, hexact a⟩, fun sMem i hi => ?_⟩
  · have hmod := mod_lt a.toNat hpos
    have herr : e * a.toNat < b.toNat * 2 ^ 32 := mul_lt_mul'' heb a.isLt
    have hlt := (reciprocalDivide_lt_iff a he hpos 2).mpr (by omega)
    have := hlow a
    omega
  · -- the offset of the object is a multiple of the size
    have hoffset : ((sMem + (b * i).setWidth w - sMem).setWidth 32).toNat = b.toNat * i.toNat := by
      rw [add_sub_cancel_left, setWidth_setWidth_of_le _ hw, setWidth_eq, toNat_mul,
        mul_comm, mod_eq_of_lt hi]
    apply eq_of_toNat_eq
    have hindex := hexact ((sMem + (b * i).setWidth w - sMem).setWidth 32)
      (.inl (hoffset ▸ dvd_mul_right _ _))
    rwa [hoffset, Nat.mul_div_cancel_left _ hpos] at hindex

/-- The last object of a slab of four objects of 1024 bytes. -/
theorem reciprocal_exact_third :
    objToIndex (.create 1024) 0x80001000#32 (indexToObj (.create 1024) 0x80001000#32 3) = 3 :=
  (reciprocal_exact (by decide) le_rfl).2 _ 3 (by decide)

end Gp2xKernel.Division
