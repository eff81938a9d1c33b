import Mathlib.Data.List.Basic
import Mathlib.Data.Nat.ModEq

/-!
# Ring buffers

A list of cells is used as a ring: position `pos` is the cell `pos % length`.  A sequence that
is written to or read from the ring is cut in two where the list ends.

## Main definitions

* `slice`, `splice`: read and overwrite a stretch of cells that does not wrap
* `wrapOut`, `wrapIn`: the same for a stretch that may wrap, in two pieces
* `Stored`: the ring holds a sequence, from a position on

## Main results

* `Stored.wrapIn`: writing behind a stored sequence appends to it
* `Stored.wrapOut`: reading gives back the front of a stored sequence
-/

namespace Gp2xKernel.Library

open List Nat

variable {β : Type*}

/-- The cells from `pos` to `pos + n`. -/
def slice (buf : List β) (pos n : ℕ) : List β := (buf.drop pos).take n

/-- The list with `src` written over the cells from `pos` on. -/
def splice (buf : List β) (pos : ℕ) (src : List β) : List β :=
  buf.take pos ++ src ++ buf.drop (pos + src.length)

/-- How many of `n` cells from position `pos` on lie in front of the end of the list. -/
def beforeEnd (size pos n : ℕ) : ℕ := min n (size - pos % size)

/-- Reading `n` cells of the ring, in two pieces. -/
def wrapOut (buf : List β) (pos n : ℕ) : List β :=
  slice buf (pos % buf.length) (beforeEnd buf.length pos n) ++
    slice buf 0 (n - beforeEnd buf.length pos n)

/-- Writing to the ring, in two pieces. -/
def wrapIn (buf : List β) (pos : ℕ) (src : List β) : List β :=
  splice (splice buf (pos % buf.length) (src.take (beforeEnd buf.length pos src.length))) 0
    (src.drop (beforeEnd buf.length pos src.length))

/-- The ring holds the sequence from position `pos` on. -/
def Stored (buf : List β) (pos : ℕ) (xs : List β) : Prop :=
  ∀ i, i < xs.length → buf[(pos + i) % buf.length]? = xs[i]?

variable {buf src xs ys : List β} {pos n i : ℕ}

theorem length_splice (h : pos + src.length ≤ buf.length) :
    (splice buf pos src).length = buf.length := by
  simp only [splice, length_append, length_take, length_drop]
  omega

theorem getElem?_slice (i : ℕ) : (slice buf pos n)[i]? = if i < n then buf[pos + i]? else none := by
  rw [slice, getElem?_take, getElem?_drop]

theorem getElem?_splice (h : pos + src.length ≤ buf.length) (i : ℕ) :
    (splice buf pos src)[i]? =
      if pos ≤ i ∧ i < pos + src.length then src[i - pos]? else buf[i]? := by
  have hlen : (buf.take pos).length = pos := by
    rw [length_take]
    omega
  rw [splice, append_assoc]
  by_cases hlow : i < pos
  · rw [getElem?_append_left (by omega), getElem?_take, if_pos hlow, if_neg (by omega)]
  · rw [getElem?_append_right (by omega), hlen]
    by_cases hhigh : i < pos + src.length
    · rw [getElem?_append_left (by omega), if_pos ⟨by omega, hhigh⟩]
    · rw [getElem?_append_right (by omega), getElem?_drop, if_neg (by omega)]
      congr 1
      omega

/-- Two writes, the second right behind the first, at the front of a list. -/
theorem splice_splice {dst : List β} (hn : src.length = n) (hlen : n + ys.length ≤ dst.length) :
    splice (splice dst 0 src) n ys = src ++ ys ++ dst.drop (n + ys.length) := by
  subst hn
  simp only [splice, take_zero, nil_append, take_left', drop_append, drop_drop]
  rw [drop_eq_nil_of_le (by omega), nil_append]
  congr 2
  omega

theorem beforeEnd_le (size pos n : ℕ) : beforeEnd size pos n ≤ n := Nat.min_le_left _ _

variable {size pos' : ℕ}

/-- The first piece ends with the list at the latest. -/
theorem mod_add_beforeEnd_le (hsize : 0 < size) (pos n : ℕ) :
    pos % size + beforeEnd size pos n ≤ size := by
  have := mod_lt pos hsize
  rw [beforeEnd]
  omega

/-- The cell of the `i`-th element: in the first piece or, from the start of the list, in the
second one. -/
theorem add_mod_eq (hsize : 0 < size) (hn : n ≤ size) (hi : i < n) :
    (pos + i) % size = if i < beforeEnd size pos n then pos % size + i
      else i - beforeEnd size pos n := by
  have hpos := mod_lt pos hsize
  rw [add_mod, mod_eq_of_lt (show i < size by omega), beforeEnd]
  split
  · exact mod_eq_of_lt (by omega)
  · rw [mod_eq_sub_mod (by omega), mod_eq_of_lt (by omega)]
    omega

theorem wrapIn_congr (h : pos % buf.length = pos' % buf.length) (src : List β) :
    wrapIn buf pos src = wrapIn buf pos' src := by
  simp only [wrapIn, beforeEnd, h]

theorem wrapIn_lengths (pos : ℕ) (hsize : 0 < buf.length) (h : src.length ≤ buf.length) :
    pos % buf.length + (src.take (beforeEnd buf.length pos src.length)).length ≤ buf.length ∧
      0 + (src.drop (beforeEnd buf.length pos src.length)).length ≤ (splice buf (pos % buf.length)
          (src.take (beforeEnd buf.length pos src.length))).length := by
  have hle := mod_add_beforeEnd_le hsize pos src.length
  have hfirst : pos % buf.length + (src.take (beforeEnd buf.length pos src.length)).length ≤
      buf.length := by
    rw [length_take]
    omega
  rw [length_splice hfirst, length_drop]
  omega

section

variable (hsize : 0 < buf.length)
include hsize

section

variable (h : src.length ≤ buf.length)
include h

theorem length_wrapIn : (wrapIn buf pos src).length = buf.length := by
  obtain ⟨h1, h2⟩ := wrapIn_lengths pos hsize h
  rw [wrapIn, length_splice h2, length_splice h1]

/-- What a cell holds after a write. -/
theorem getElem?_wrapIn (j : ℕ) :
    (wrapIn buf pos src)[j]? =
      if j < src.length - beforeEnd buf.length pos src.length then
        src[beforeEnd buf.length pos src.length + j]?
      else if pos % buf.length ≤ j ∧ j < pos % buf.length + beforeEnd buf.length pos src.length
      then src[j - pos % buf.length]? else buf[j]? := by
  obtain ⟨h1, h2⟩ := wrapIn_lengths pos hsize h
  have hle := beforeEnd_le buf.length pos src.length
  have htake : (src.take (beforeEnd buf.length pos src.length)).length =
      beforeEnd buf.length pos src.length := by
    rw [length_take]
    omega
  rw [wrapIn, getElem?_splice h2, getElem?_splice h1, length_drop, htake]
  by_cases hj : j < src.length - beforeEnd buf.length pos src.length
  · rw [if_pos ⟨Nat.zero_le _, by omega⟩, if_pos hj, getElem?_drop, Nat.sub_zero]
  · rw [if_neg (by omega), if_neg hj]
    by_cases hp : pos % buf.length ≤ j ∧ j < pos % buf.length + beforeEnd buf.length pos src.length
    · rw [if_pos hp, if_pos hp, getElem?_take, if_pos (by omega)]
    · rw [if_neg hp, if_neg hp]

/-- A write leaves all other cells alone. -/
theorem getElem?_wrapIn_of_ne {j : ℕ}
    (hj : ∀ d, d < src.length → (pos + d) % buf.length ≠ j) :
    (wrapIn buf pos src)[j]? = buf[j]? := by
  have hle := beforeEnd_le buf.length pos src.length
  rw [getElem?_wrapIn hsize h]
  split
  · -- the cell would be one of the second piece
    refine absurd ?_ (hj (beforeEnd buf.length pos src.length + j) (by omega))
    rw [add_mod_eq hsize h (by omega), if_neg (by omega)]
    omega
  · split
    · refine absurd ?_ (hj (j - pos % buf.length) (by omega))
      rw [add_mod_eq hsize h (by omega), if_pos (by omega)]
      omega
    · rfl

end

/-- **Writing** behind a stored sequence appends to it, as long as the ring is large enough
for both. -/
theorem Stored.wrapIn (h : Stored buf pos xs)
    (hlen : xs.length + ys.length ≤ buf.length) :
    Stored (wrapIn buf (pos + xs.length) ys) pos (xs ++ ys) := by
  intro i hi
  rw [length_append] at hi
  have hys : ys.length ≤ buf.length := by omega
  rw [length_wrapIn hsize hys]
  by_cases hold : i < xs.length
  · -- the cells of the old sequence are not written
    rw [getElem?_append_left hold, ← h i hold]
    refine getElem?_wrapIn_of_ne hsize hys fun d hd heq => ?_
    rw [add_assoc] at heq
    have hmod : xs.length + d ≡ i [MOD buf.length] := Nat.ModEq.add_left_cancel' pos heq
    have := hmod.eq_of_lt_of_lt (by omega) (by omega)
    omega
  · -- a cell of the new sequence
    obtain ⟨d, rfl⟩ := Nat.exists_eq_add_of_le (Nat.le_of_not_lt hold)
    have hd : d < ys.length := by omega
    rw [getElem?_append_right (by omega), ← add_assoc, add_mod_eq hsize hys hd,
      Nat.add_sub_cancel_left, getElem?_wrapIn hsize hys]
    by_cases hfirst : d < beforeEnd buf.length (pos + xs.length) ys.length
    · rw [if_pos hfirst, if_neg (by simp only [beforeEnd] at *; omega), if_pos ⟨by omega, by omega⟩,
        Nat.add_sub_cancel_left]
    · rw [if_neg hfirst, if_pos (by omega), Nat.add_sub_cancel' (by omega)]

theorem length_wrapOut (hn : n ≤ buf.length) : (wrapOut buf pos n).length = n := by
  have hb := mod_add_beforeEnd_le hsize pos n
  have hle := beforeEnd_le buf.length pos n
  simp only [Library.wrapOut, slice, length_append, length_take, length_drop]
  omega

/-- **Reading** gives back the front of a stored sequence. -/
theorem Stored.wrapOut (h : Stored buf pos xs) (hn : n ≤ xs.length)
    (hlen : xs.length ≤ buf.length) : wrapOut buf pos n = xs.take n := by
  have hb := mod_add_beforeEnd_le hsize pos n
  have hslice : (slice buf (pos % buf.length) (beforeEnd buf.length pos n)).length =
      beforeEnd buf.length pos n := by
    simp only [slice, length_take, length_drop]
    omega
  refine ext_getElem? fun i => ?_
  rw [getElem?_take]
  by_cases hi : i < n
  · rw [if_pos hi, ← h i (by omega), add_mod_eq hsize (show n ≤ buf.length by omega) hi,
      Library.wrapOut]
    by_cases hfirst : i < beforeEnd buf.length pos n
    · rw [if_pos hfirst, getElem?_append_left (by omega), getElem?_slice, if_pos hfirst]
    · rw [if_neg hfirst, getElem?_append_right (by omega), hslice, getElem?_slice,
        if_pos (by omega), zero_add]
  · rw [if_neg hi]
    refine getElem?_eq_none ?_
    rw [length_wrapOut hsize (by omega)]
    omega

end

/-- The rest of a stored sequence. -/
theorem Stored.drop (h : Stored buf pos xs) (n : ℕ) : Stored buf (pos + n) (xs.drop n) := by
  intro i hi
  rw [length_drop] at hi
  rw [getElem?_drop, ← h (n + i) (by omega), add_assoc]

/-- Positions count modulo the length of the list. -/
theorem Stored.of_mod (h : Stored buf pos xs)
    (heq : pos' % buf.length = pos % buf.length) : Stored buf pos' xs := by
  intro i hi
  rw [add_mod, heq, ← add_mod]
  exact h i hi

end Gp2xKernel.Library
