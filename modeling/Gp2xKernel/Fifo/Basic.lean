import Gp2xKernel.Library.Ring
import Mathlib.Data.BitVec
import Mathlib.Data.Nat.Size
import Mathlib.Tactic.Ring

/-!
# The FIFO of `kernel/kfifo.c`

A `kfifo` is a buffer of a power of two of bytes with two counters that run freely and wrap at
`2 ^ 32`: data goes in at `in % size` and comes out at `out % size`.  A `memcpy` that leaves
the memory it is given makes an operation fail (`none`), as does a `BUG_ON`.

## Main definitions

* `Kfifo`: the structure.
* `kfifoInit`, `kfifoAlloc`: a new FIFO.
* `kfifoPut`, `kfifoGet`: `__kfifo_put` and `__kfifo_get`.
-/

namespace Gp2xKernel.Fifo

open Library BitVec

/-- `struct kfifo`, without its lock; `inPos` and `outPos` are the fields `in` and `out`. -/
structure Kfifo (β : Type) where
  buffer : List β
  size : BitVec 32
  inPos : BitVec 32
  outPos : BitVec 32

variable {β : Type}

/-- `min(x, y)` of `unsigned int`s. -/
def minOf (x y : BitVec 32) : BitVec 32 := if x < y then x else y

/-- `memcpy(dst + pos, src, n)` for `n` bytes `src`. -/
def memcpyTo (dst : List β) (pos : ℕ) (src : List β) : Option (List β) :=
  if pos + src.length ≤ dst.length then some (splice dst pos src) else none

/-- The bytes that `memcpy(dst, src + pos, n)` reads. -/
def memcpyFrom (src : List β) (pos n : ℕ) : Option (List β) :=
  if pos + n ≤ src.length then some (slice src pos n) else none

/-! ## New FIFOs -/

def isPowerOf2 (n : BitVec 32) : Bool := n ≠ 0 ∧ n &&& (n - 1) = 0

/-- `kfifo_init`; it fails with the `BUG_ON`, and returns an error if there is not `enough` memory
for the `struct kfifo`. -/
def kfifoInit (enough : Bool) (buffer : List β) (size : BitVec 32) : Option (Option (Kfifo β)) :=
  if isPowerOf2 size then some (if enough then some ⟨buffer, size, 0, 0⟩ else none) else none

/-- `roundup_pow_of_two`, for a number that is not 0; `fls_long` counts bits. -/
def roundupPowOfTwo (n : BitVec 32) : BitVec 32 := 1#32 <<< (n - 1).toNat.size

/-- `kfifo_alloc` once it has rounded the size; `kmalloc` gives memory of the size it is asked
for, or NULL. -/
def kfifoAllocRounded (kmalloc : ℕ → Option (List β)) (enough : Bool) (size : BitVec 32) :
    Option (Option (Kfifo β)) :=
  match kmalloc size.toNat with
  | none => some none
  | some buffer => kfifoInit enough buffer size

def kfifoAlloc (kmalloc : ℕ → Option (List β)) (enough : Bool) (size : BitVec 32) :
    Option (Option (Kfifo β)) :=
  if size &&& (size - 1) ≠ 0 then
    if size > 0x80000000 then none else kfifoAllocRounded kmalloc enough (roundupPowOfTwo size)
  else kfifoAllocRounded kmalloc enough size

/-! ## Putting and getting -/

/-- `__kfifo_put`: the FIFO afterwards and the number of bytes it took from `buffer`. -/
def kfifoPut (fifo : Kfifo β) (buffer : List β) (len : BitVec 32) :
    Option (Kfifo β × BitVec 32) := do
  let len := minOf len (fifo.size - fifo.inPos + fifo.outPos)
  let pos := fifo.inPos &&& (fifo.size - 1)
  let l := minOf len (fifo.size - pos)
  let data ← memcpyTo fifo.buffer pos.toNat (← memcpyFrom buffer 0 l.toNat)
  let data ← memcpyTo data 0 (← memcpyFrom buffer l.toNat (len - l).toNat)
  return ({ fifo with buffer := data, inPos := fifo.inPos + len }, len)

/-- `__kfifo_get`: the FIFO and the destination `buffer` afterwards, and the number of bytes
copied there. -/
def kfifoGet (fifo : Kfifo β) (buffer : List β) (len : BitVec 32) :
    Option (Kfifo β × List β × BitVec 32) := do
  let len := minOf len (fifo.inPos - fifo.outPos)
  let pos := fifo.outPos &&& (fifo.size - 1)
  let l := minOf len (fifo.size - pos)
  let buffer ← memcpyTo buffer 0 (← memcpyFrom fifo.buffer pos.toNat l.toNat)
  let buffer ← memcpyTo buffer l.toNat (← memcpyFrom fifo.buffer 0 (len - l).toNat)
  return ({ fifo with outPos := fifo.outPos + len }, buffer, len)

/-! ## The invariant -/

/-- The FIFO has `2 ^ k` bytes and holds `xs`. -/
structure Holds (fifo : Kfifo β) (k : ℕ) (xs : List β) : Prop where
  size_eq : fifo.size.toNat = 2 ^ k
  length_buffer : fifo.buffer.length = 2 ^ k
  used_eq : (fifo.inPos - fifo.outPos).toNat = xs.length
  used_le : xs.length ≤ 2 ^ k
  stored : Stored fifo.buffer fifo.outPos.toNat xs

variable {fifo : Kfifo β} {k : ℕ} {xs : List β}

theorem toNat_minOf (x y : BitVec 32) : (minOf x y).toNat = min x.toNat y.toNat := by
  rw [minOf]
  split
  · rename_i h
    have := lt_def.mp h
    omega
  · rename_i h
    have := mt lt_def.mpr h
    omega

theorem toNat_and_mask {size : BitVec 32} (hsize : size.toNat = 2 ^ k) (x : BitVec 32) :
    (x &&& (size - 1)).toNat = x.toNat % 2 ^ k := by
  have hpos : 0 < 2 ^ k := Nat.two_pow_pos k
  have hmask : (size - 1).toNat = 2 ^ k - 1 := by
    bv_omega
  rw [toNat_and, hmask, Nat.and_two_pow_sub_one_eq_mod]

namespace Holds

section

variable (h : Holds fifo k xs)
include h

theorem k_lt : k < 32 := by
  have hlt := fifo.size.isLt
  rw [h.size_eq] at hlt
  exact (Nat.pow_lt_pow_iff_right (by decide)).mp hlt

theorem buffer_pos : 0 < fifo.buffer.length := by
  rw [h.length_buffer]
  exact Nat.two_pow_pos k

/-- The free space, computed with wrapping counters. -/
theorem free_eq : (fifo.size - fifo.inPos + fifo.outPos).toNat = 2 ^ k - xs.length := by
  have hsize := h.size_eq
  have hused := h.used_eq
  have hle := h.used_le
  rw [show fifo.size - fifo.inPos + fifo.outPos = fifo.size - (fifo.inPos - fifo.outPos) by ring,
    toNat_sub_of_le (le_def.mpr (by omega)), hsize, hused]

/-- The counters agree with the position modulo the size, whatever wraps. -/
theorem inPos_mod :
    fifo.inPos.toNat % fifo.buffer.length =
      (fifo.outPos.toNat + xs.length) % fifo.buffer.length := by
  have hsum : fifo.inPos = fifo.outPos + (fifo.inPos - fifo.outPos) := by ring
  have hdvd : 2 ^ k ∣ 2 ^ 32 := Nat.pow_dvd_pow 2 h.k_lt.le
  rw [h.length_buffer, hsum, toNat_add, h.used_eq, Nat.mod_mod_of_dvd _ hdvd]

end

end Holds

end Gp2xKernel.Fifo
