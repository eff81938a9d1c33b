import Gp2xKernel.Library.Writes
import Mathlib.Data.BitVec
import Mathlib.Data.Nat.Bitwise
import Mathlib.Tactic.Ring

/-!
# Shifts of bitmaps

A bitmap of `bits` bits is an array of words, the last of which may be used in part.  The shifts of
`lib/bitmap.c` write the words of the result one by one, each from two neighbouring words of the
source, in an order that allows the result to replace the source.

## Main definitions

* `testBit`: a bit of the bitmap at an address
* `bitmapShiftRight`, `bitmapShiftLeft`: `__bitmap_shift_right` and `__bitmap_shift_left`

## Main results

* `bitmapShift_exact`: every bit of both results
-/

namespace Gp2xKernel.Bitmap

open Library Function BitVec Nat List

/-- Memory, by words of `BITS_PER_LONG = W` bits. -/
abbrev Mem (W : ℕ) := ℕ → BitVec W

variable {W : ℕ}

/-- `BITS_TO_LONGS`, where the sum is an `int`; if it overflows, the quotient is not positive, and
there are no words. -/
def bitsToLongs (W bits : ℕ) : ℕ := ((Int.bmod (bits + W - 1) (2 ^ 32)).tdiv W).toNat

/-- Bit `i` of the bitmap at `p`. -/
def testBit (m : Mem W) (p i : ℕ) : Bool := (m (p + i / W)).getLsbD (i % W)

/-- Word `q` of a bitmap without the bits that are not used, where it is the last word and `left`
of its bits are used. -/
def maskLast (bits q : ℕ) (word : BitVec W) : BitVec W :=
  if bits % W ≠ 0 ∧ q = bitsToLongs W bits - 1 then word &&& ((1#W <<< (bits % W)) - 1#W) else word

/-- `memset(p, 0, n * sizeof(unsigned long))` -/
def zeroWords (m : Mem W) (p n : ℕ) : Mem W := fun a => if p ≤ a ∧ a < p + n then 0#W else m a

/-- The value of `dst[k]` in `__bitmap_shift_right`. -/
def rightWord (src bits off rem : ℕ) (m : Mem W) (k : ℕ) : BitVec W :=
  let upper := if rem = 0 ∨ bitsToLongs W bits ≤ off + k + 1 then 0#W
    else maskLast bits (off + k + 1) (m (src + (off + k + 1)))
  let lower := maskLast bits (off + k) (m (src + (off + k)))
  maskLast bits k (upper <<< (W - rem) ||| lower >>> rem)

/-- The value of `dst[k + off]` in `__bitmap_shift_left`. -/
def leftWord (src bits off rem : ℕ) (m : Mem W) (k : ℕ) : BitVec W :=
  let lower := if rem ≠ 0 ∧ 0 < k then m (src + (k - 1)) else 0#W
  let upper := maskLast bits k (m (src + k))
  maskLast bits (k + off) (lower >>> (W - rem) ||| upper <<< rem)

/-- `__bitmap_shift_right` -/
def bitmapShiftRight (m : Mem W) (dst src shift bits : ℕ) : Mem W :=
  let lim := bitsToLongs W bits
  let off := shift / W
  -- `for (k = 0; off + k < lim; ++k)`
  let m := writeCells (dst + ·) (rightWord src bits off (shift % W)) m (List.range (lim - off))
  if off ≠ 0 then zeroWords m (dst + (lim - off)) off else m

/-- `__bitmap_shift_left` -/
def bitmapShiftLeft (m : Mem W) (dst src shift bits : ℕ) : Mem W :=
  let off := shift / W
  -- `for (k = lim - off - 1; k >= 0; --k)`
  let m := writeCells (fun k => dst + (k + off)) (leftWord src bits off (shift % W)) m
    (List.range (bitsToLongs W bits - off)).reverse
  if off ≠ 0 then zeroWords m dst off else m

/-! ## Words and bits -/

section Words

variable (hW : 0 < W) {bits q b : ℕ} (hbits : bits + W ≤ 2 ^ 31) (m : Mem W) (p : ℕ)

include hW

include hbits in
theorem lt_bitsToLongs (q : ℕ) : q < bitsToLongs W bits ↔ q * W < bits := by
  -- the sum does not overflow
  have hsum : Int.bmod (bits + W - 1) (2 ^ 32) = (bits + W - 1 : ℕ) := by
    rw [Int.bmod_eq_of_le] <;> omega
  have hlongs : bitsToLongs W bits = (bits + W - 1) / W := by rw [bitsToLongs, hsum]; rfl
  rw [hlongs, ← Nat.succ_le_iff, Nat.le_div_iff_mul_le hW, Nat.succ_mul]
  omega

theorem testBit_word (hb : b < W) : testBit m p (q * W + b) = (m (p + q)).getLsbD b := by
  rw [testBit, mul_comm, mul_add_div hW, div_eq_of_lt hb, add_zero, mul_add_mod, mod_eq_of_lt hb]

omit hW in
theorem toNat_bit {left : ℕ} (hleft : left < W) : (1#W <<< left).toNat = 2 ^ left := by
  rw [toNat_shiftLeft, toNat_ofNat, Nat.mod_eq_of_lt (Nat.one_lt_two_pow (by omega)),
    Nat.shiftLeft_eq, Nat.one_mul, Nat.mod_eq_of_lt (Nat.pow_lt_pow_right (by omega) hleft)]

omit hW in
theorem toNat_bit_sub_one {left : ℕ} (hleft : left < W) :
    ((1#W <<< left) - 1#W).toNat = 2 ^ left - 1 := by
  have hone : (1#W).toNat = 1 := Nat.mod_eq_of_lt (Nat.one_lt_two_pow (by omega))
  have hle : 1#W ≤ 1#W <<< left := by
    rw [le_def, hone, toNat_bit hleft]
    exact Nat.one_le_two_pow
  rw [toNat_sub_of_le hle, hone, toNat_bit hleft]

include hbits in
theorem getLsbD_maskLast (hq : q * W < bits) (hb : b < W) (word : BitVec W) :
    (maskLast bits q word).getLsbD b = (word.getLsbD b && decide (q * W + b < bits)) := by
  have hsucc := Nat.add_one_mul q W
  have hlast := lt_bitsToLongs hW hbits (q + 1)
  have hlt := (lt_bitsToLongs hW hbits q).mpr hq
  have hdiv := div_add_mod bits W
  rw [mul_comm] at hdiv
  have hmod := mod_lt bits hW
  unfold maskLast
  split_ifs with hmask
  · -- the last word, of which a part is used
    have hne : bits ≠ (q + 1) * W := by
      rintro rfl
      exact hmask.1 (mul_mod_left _ _)
    rw [Nat.div_eq_of_lt_le (k := q) (by omega) (by omega)] at hdiv
    rw [getLsbD_and, getLsbD, getLsbD, toNat_bit_sub_one hmod, testBit_two_pow_sub_one]
    congr 2
    rw [eq_iff_iff]
    omega
  · rw [decide_eq_true, Bool.and_true]
    by_cases hend : q + 1 < bitsToLongs W bits
    · omega
    · have hzero : bits % W = 0 := by
        by_contra h
        exact hmask ⟨h, by omega⟩
      rw [hzero] at hdiv
      have hfull : (q + 1) * W ≤ bits / W * W :=
        Nat.mul_le_mul_right W (Nat.lt_of_mul_lt_mul_right (hdiv.symm ▸ hq))
      omega

end Words

/-! ## The words of the results -/

section Results

variable (hW : 0 < W) {bits off rem k b src : ℕ} (hbits : bits + W ≤ 2 ^ 31) (m : Mem W)

include hW hbits

theorem getLsbD_rightWord (hk : (off + k) * W < bits) (hrem : rem < W) (hb : b < W) :
    (rightWord src bits off rem m k).getLsbD b =
      (decide (k * W + b + (off * W + rem) < bits) &&
        testBit m src (k * W + b + (off * W + rem))) := by
  have hmul := add_mul off k W
  have hnext := Nat.add_one_mul (off + k) W
  have hlim := lt_bitsToLongs hW hbits (off + k + 1)
  rw [rightWord, getLsbD_maskLast hW hbits (by omega) hb, getLsbD_or, getLsbD_shiftLeft,
    getLsbD_ushiftRight]
  by_cases hlow : rem + b < W
  · -- the bit is in the lower of the two words
    have hshift : b < W - rem := by omega
    rw [show k * W + b + (off * W + rem) = (off + k) * W + (rem + b) by omega,
      testBit_word hW m src hlow, getLsbD_maskLast hW hbits hk hlow]
    by_cases hin : (off + k) * W + (rem + b) < bits
    · have hout : k * W + b < bits := by omega
      simp [hshift, hin, hout]
    · simp [hshift, hin]
  · have hshift : ¬ b < W - rem := by omega
    have hrem0 : rem ≠ 0 := by omega
    rw [show k * W + b + (off * W + rem) = (off + k + 1) * W + (rem + b - W) by omega,
      testBit_word hW m src (by omega), getLsbD_of_ge _ _ (not_lt.mp hlow)]
    by_cases hend : bitsToLongs W bits ≤ off + k + 1
    · have hin : ¬ (off + k + 1) * W + (rem + b - W) < bits := by omega
      simp [hend, hin]
    · rw [if_neg (by simp [hrem0, hend]), show b - (W - rem) = rem + b - W by omega,
        getLsbD_maskLast hW hbits (by omega) (by omega)]
      by_cases hin : (off + k + 1) * W + (rem + b - W) < bits
      · have hout : k * W + b < bits := by omega
        simp [hb, hshift, hin, hout]
      · simp [hin]

theorem getLsbD_leftWord (hk : (k + off) * W < bits) (hrem : rem < W) (hb : b < W) :
    (leftWord src bits off rem m k).getLsbD b =
      (decide (off * W + rem ≤ (k + off) * W + b ∧ (k + off) * W + b < bits) &&
        testBit m src ((k + off) * W + b - (off * W + rem))) := by
  have hmul := add_mul k off W
  rw [leftWord, getLsbD_maskLast hW hbits hk hb, getLsbD_or, getLsbD_shiftLeft, getLsbD_ushiftRight]
  by_cases hhigh : rem ≤ b
  · -- the bit is in the upper of the two words
    rw [show (k + off) * W + b - (off * W + rem) = k * W + (b - rem) by omega,
      testBit_word hW m src (by omega), getLsbD_maskLast hW hbits (by omega) (by omega),
      getLsbD_of_ge _ (W - rem + b) (by omega)]
    by_cases hin : (k + off) * W + b < bits
    · have hfrom : k * W + (b - rem) < bits := by omega
      have hge : off * W + rem ≤ (k + off) * W + b := by omega
      simp [hb, not_lt.mpr hhigh, hin, hfrom, hge]
    · simp [hin]
  · have hrem0 : rem ≠ 0 := by omega
    rw [decide_eq_true (not_le.mp hhigh)]
    rcases Nat.eq_zero_or_pos k with rfl | hpos
    · simp [hhigh]
    · obtain ⟨j, rfl⟩ := exists_eq_add_one.mpr hpos
      have hj := Nat.add_one_mul j W
      have hge : off * W + rem ≤ (j + 1 + off) * W + b := by omega
      rw [show (j + 1 + off) * W + b - (off * W + rem) = j * W + (W - rem + b) by omega,
        testBit_word hW m src (by omega)]
      simp [hrem0, hge, Bool.and_comm]

end Results

/-! ## The shifts -/

theorem ite_zeroWords_apply (m : Mem W) (p n a : ℕ) :
    (if n ≠ 0 then zeroWords m p n else m) a = if p ≤ a ∧ a < p + n then 0#W else m a := by
  by_cases hn : n = 0
  · rw [if_neg (not_not.mpr hn), if_neg (by omega)]
  · rw [if_pos hn, zeroWords]

section Shifts

variable {bits off dst src : ℕ}
  (hdst : dst = src ∨ dst + bitsToLongs W bits ≤ src ∨ src + bitsToLongs W bits ≤ dst)

include hdst

/-- No turn of the right shift writes a word that a later turn reads. -/
theorem rightWord_pairwise (rem : ℕ) : (range (bitsToLongs W bits - off)).Pairwise fun j k =>
    dst + k ≠ dst + j ∧ ∀ (m : Mem W) (v : BitVec W),
      rightWord src bits off rem (update m (dst + j) v) k = rightWord src bits off rem m k := by
  refine pairwise_lt_range.imp_of_mem fun {j k} _ hk hjk => ⟨by omega, fun m v => ?_⟩
  have hk := mem_range.mp hk
  have hlower : update m (dst + j) v (src + (off + k)) = m (src + (off + k)) :=
    update_of_ne (by omega) _ _
  by_cases hend : rem = 0 ∨ bitsToLongs W bits ≤ off + k + 1
  · simp only [rightWord, hlower, if_pos hend]
  · have hupper : update m (dst + j) v (src + (off + k + 1)) = m (src + (off + k + 1)) :=
      update_of_ne (by omega) _ _
    simp only [rightWord, hlower, hupper]

/-- No turn of the left shift writes a word that a later turn reads. -/
theorem leftWord_pairwise (rem : ℕ) : (range (bitsToLongs W bits - off)).reverse.Pairwise fun j k =>
    dst + (k + off) ≠ dst + (j + off) ∧ ∀ (m : Mem W) (v : BitVec W),
      leftWord src bits off rem (update m (dst + (j + off)) v) k =
        leftWord src bits off rem m k := by
  refine pairwise_reverse.mpr (pairwise_lt_range.imp_of_mem
    fun {k j} _ hj hkj => ⟨by omega, fun m v => ?_⟩)
  have hj := mem_range.mp hj
  have hupper : update m (dst + (j + off)) v (src + k) = m (src + k) :=
    update_of_ne (by omega) _ _
  have hlower : update m (dst + (j + off)) v (src + (k - 1)) = m (src + (k - 1)) :=
    update_of_ne (by omega) _ _
  simp only [leftWord, hlower, hupper]

/-- **Shifts are exact**, as long as the number of words does not overflow.  Whether the result is
written beside the source or over it, every bit of its words is the one the shift moves there, or
zero. -/
theorem bitmapShift_exact (hW : 0 < W) (hbits : bits + W ≤ 2 ^ 31) {shift : ℕ}
    (hshift : shift < bits) (m : Mem W) {i : ℕ} (hi : i < bitsToLongs W bits * W) :
    testBit (bitmapShiftRight m dst src shift bits) dst i =
        (decide (i + shift < bits) && testBit m src (i + shift)) ∧
      testBit (bitmapShiftLeft m dst src shift bits) dst i =
        (decide (shift ≤ i ∧ i < bits) && testBit m src (i - shift)) := by
  have hrem := mod_lt shift hW
  have hb := mod_lt i hW
  have hq := Nat.div_lt_of_lt_mul (Nat.mul_comm _ W ▸ hi)
  have hs := div_add_mod' shift W
  have hqb := div_add_mod' i W
  simp only [bitmapShiftRight, bitmapShiftLeft]
  generalize i / W = q, i % W = b, shift / W = off, shift % W = rem at *
  subst hs hqb
  rw [testBit_word hW _ _ hb, testBit_word hW _ _ hb, ite_zeroWords_apply, ite_zeroWords_apply]
  constructor
  · have hlim := lt_bitsToLongs hW hbits (off + q)
    have hmul := add_mul off q W
    by_cases hk : q < bitsToLongs W bits - off
    · have hword := writeCells_of_mem (rightWord_pairwise hdst rem) m
        (mem_range.mpr hk)
      rw [if_neg (by omega), hword]
      exact getLsbD_rightWord hW hbits m (hlim.mp (by omega)) hrem hb
    · rw [if_pos (by omega), decide_eq_false (by omega), Bool.false_and, getLsbD_zero]
  · have hlim := lt_bitsToLongs hW hbits q
    by_cases hk : q < off
    · have hle := mul_le_mul_right W hk
      have hsucc := succ_mul q W
      rw [if_pos (by omega), decide_eq_false (by omega), Bool.false_and, getLsbD_zero]
    · obtain ⟨k, rfl⟩ := Nat.exists_eq_add_of_le' (not_lt.mp hk)
      have hword := writeCells_of_mem (leftWord_pairwise hdst rem) m
        (mem_reverse.mpr (mem_range.mpr (by omega : k < bitsToLongs W bits - off)))
      rw [if_neg (by omega), hword]
      exact getLsbD_leftWord hW hbits m (hlim.mp hq) hrem hb

end Shifts

theorem bitmapShift_exact_inPlace :
    testBit (bitmapShiftRight (fun _ => 8#32) 7 7 3 40) 7 0 = true := by
  refine (bitmapShift_exact (.inl rfl) (by decide) (by decide) (by decide) _ ?_).1.trans ?_
  · decide
  · decide

end Gp2xKernel.Bitmap
