import Gp2xKernel.Fifo.Basic
import Gp2xKernel.Library.Run

/-!
# Runs of a FIFO

Every put appends to the bytes that the FIFO holds and every get takes from their front, so
along a whole run the bytes that come out are a prefix of the bytes that went in.

## Main definitions

* `Event`, `system`: sequences of puts and gets.
* `accepted`, `returned`: the bytes that went in and came out.

## Main results

* `kfifoPut_spec`, `kfifoGet_spec`: the effect of one call.
* `kfifo_fifo`: what holds along every run.
-/

namespace Gp2xKernel.Fifo

open Library BitVec Option Nat List

variable {β : Type} {fifo fifo' : Kfifo β} {k : ℕ} {xs : List β}

/-! ## One call -/

variable {src buffer : List β} {pos : ℕ} {len n size : BitVec 32} {kmalloc : ℕ → Option (List β)}

theorem memcpyTo_spec {dst : List β} (h : pos + src.length ≤ dst.length) :
    memcpyTo dst pos src = some (splice dst pos src) := if_pos h

theorem memcpyFrom_spec {n : ℕ} (h : pos + n ≤ src.length) :
    memcpyFrom src pos n = some (slice src pos n) := if_pos h

theorem length_slice {n : ℕ} (h : pos + n ≤ src.length) : (slice src pos n).length = n := by
  rw [slice, length_take, length_drop]
  omega

/-- The two pieces of a copy: the first ends with the buffer. -/
theorem Holds.pieces (h : Holds fifo k xs) {l pos len : BitVec 32}
    (hl : l = minOf len (fifo.size - (pos &&& (fifo.size - 1)))) :
    l.toNat = beforeEnd fifo.buffer.length pos.toNat len.toNat ∧ l.toNat ≤ len.toNat ∧
      (len - l).toNat = len.toNat - l.toNat ∧
      (pos &&& (fifo.size - 1)).toNat = pos.toNat % fifo.buffer.length := by
  have hmask := toNat_and_mask h.size_eq pos
  have hsize := h.size_eq
  have hfirst : l.toNat = beforeEnd fifo.buffer.length pos.toNat len.toNat := by
    rw [hl, toNat_minOf, toNat_sub_of_le (le_def.mpr (by omega)), hmask, hsize, beforeEnd,
      h.length_buffer]
  have hle : l.toNat ≤ len.toNat := hfirst.trans_le (beforeEnd_le ..)
  rw [← h.length_buffer] at hmask
  exact ⟨hfirst, hle, toNat_sub_of_le (le_def.mpr hle), hmask⟩

/-- **`__kfifo_put`** takes as many bytes as fit and appends them. -/
theorem kfifoPut_spec (h : Holds fifo k xs) (hlen : len.toNat ≤ buffer.length) :
    ∃ fifo' n, kfifoPut fifo buffer len = some (fifo', n) ∧
      n.toNat = min len.toNat (2 ^ k - xs.length) ∧
      Holds fifo' k (xs ++ buffer.take n.toNat) := by
  set n := minOf len (fifo.size - fifo.inPos + fifo.outPos) with hn
  have hnNat : n.toNat = min len.toNat (2 ^ k - xs.length) := by
    rw [toNat_minOf, h.free_eq]
  set l := minOf n (fifo.size - (fifo.inPos &&& (fifo.size - 1))) with hl
  obtain ⟨hlNat, hle, hsub, hpos⟩ := h.pieces hl
  have hused := h.used_le
  -- the two pieces of the source make up its first `n` bytes
  have hsrc : (buffer.take n.toNat).length = n.toNat := by
    rw [length_take]
    omega
  have hfirst : slice buffer 0 l.toNat = (buffer.take n.toNat).take l.toNat := by
    rw [slice, drop_zero, take_take, min_eq_left hle]
  have hsecond : slice buffer l.toNat (n.toNat - l.toNat) = (buffer.take n.toNat).drop l.toNat := by
    rw [slice, drop_take]
  have hbuf : (buffer.take n.toNat).length ≤ fifo.buffer.length := by
    rw [h.length_buffer]
    omega
  obtain ⟨hin1, hin2⟩ := wrapIn_lengths fifo.inPos.toNat h.buffer_pos hbuf
  rw [hsrc, ← hlNat] at hin1 hin2
  refine ⟨⟨wrapIn fifo.buffer fifo.inPos.toNat (buffer.take n.toNat), fifo.size, fifo.inPos + n,
    fifo.outPos⟩, n, ?_, hnNat, ?_⟩
  · -- both copies stay inside
    simp only [kfifoPut, ← hn, ← hl]
    rw [memcpyFrom_spec (by omega), hfirst, hsub, hpos, memcpyFrom_spec (by omega), hsecond]
    simp only [bind_eq_bind, bind_some]
    rw [memcpyTo_spec hin1, bind_some, memcpyTo_spec hin2, wrapIn, hsrc, ← hlNat]
    rfl
  · constructor
    · exact h.size_eq
    · exact (length_wrapIn h.buffer_pos hbuf).trans h.length_buffer
    · have hsum : fifo.inPos + n - fifo.outPos = fifo.inPos - fifo.outPos + n := by ring
      have h32 : (2 : ℕ) ^ k < 2 ^ 32 := Nat.pow_lt_pow_right (by decide) h.k_lt
      rw [hsum, toNat_add, h.used_eq, length_append, hsrc, mod_eq_of_lt (by omega)]
    · rw [length_append]
      omega
    · show Stored (wrapIn _ _ _) _ _
      rw [wrapIn_congr h.inPos_mod]
      refine h.stored.wrapIn h.buffer_pos ?_
      rw [h.length_buffer]
      omega

/-- **`__kfifo_get`** returns as many bytes as there are, from the front. -/
theorem kfifoGet_spec (h : Holds fifo k xs) (hlen : len.toNat ≤ buffer.length) :
    ∃ fifo' buffer' n, kfifoGet fifo buffer len = some (fifo', buffer', n) ∧
      n.toNat = min len.toNat xs.length ∧
      buffer' = xs.take n.toNat ++ buffer.drop n.toNat ∧
      Holds fifo' k (xs.drop n.toNat) := by
  set n := minOf len (fifo.inPos - fifo.outPos) with hn
  have hnNat : n.toNat = min len.toNat xs.length := by
    rw [toNat_minOf, h.used_eq]
  set l := minOf n (fifo.size - (fifo.outPos &&& (fifo.size - 1))) with hl
  obtain ⟨hlNat, hle, hsub, hpos⟩ := h.pieces hl
  have hused := h.used_le
  have hlength := h.length_buffer
  have hend := mod_add_beforeEnd_le h.buffer_pos fifo.outPos.toNat n.toNat
  rw [← hlNat] at hend
  -- what the two copies read
  have hread := h.stored.wrapOut (n := n.toNat) h.buffer_pos (by omega) (by omega)
  rw [wrapOut, ← hlNat] at hread
  have hlen1 : (slice fifo.buffer (fifo.outPos.toNat % fifo.buffer.length) l.toNat).length =
      l.toNat := length_slice hend
  have hlen2 : (slice fifo.buffer 0 (n.toNat - l.toNat)).length = n.toNat - l.toNat :=
    length_slice (by omega)
  refine ⟨{ fifo with outPos := fifo.outPos + n }, xs.take n.toNat ++ buffer.drop n.toNat, n, ?_,
    hnNat, rfl, ?_⟩
  · simp only [kfifoGet, ← hn, ← hl]
    rw [hpos, hsub, memcpyFrom_spec hend, memcpyFrom_spec (by omega)]
    simp only [bind_eq_bind, bind_some]
    rw [memcpyTo_spec (by omega), bind_some, memcpyTo_spec (by
      rw [length_splice (by omega)]
      omega), splice_splice hlen1 (by omega), hlen2, hread]
    simp [Nat.add_sub_cancel' hle]
  · constructor
    · exact h.size_eq
    · exact hlength
    · have hsum : fifo.inPos - (fifo.outPos + n) = fifo.inPos - fifo.outPos - n := by ring
      rw [hsum, toNat_sub_of_le (le_def.mpr (by rw [h.used_eq]; omega)), h.used_eq,
        length_drop]
    · rw [length_drop]
      omega
    · show Stored fifo.buffer (fifo.outPos + n).toNat _
      refine (h.stored.drop n.toNat).of_mod ?_
      rw [toNat_add, hlength, mod_mod_of_dvd _ (pow_dvd_pow 2 h.k_lt.le)]

/-! ## Every run -/

/-- A put of bytes from `buffer`, `n` of which were accepted, or a get that returned `data`. -/
inductive Event (β : Type)
  | put (buffer : List β) (len n : BitVec 32)
  | get (len : BitVec 32) (data : List β)

/-- Any sequence of puts and gets on a FIFO of `2 ^ k` bytes.  The caller's buffers are as long
as the caller says, and the counters start anywhere. -/
def system (β : Type) (k : ℕ) : System (Kfifo β) (Event β) where
  init fifo := fifo.size.toNat = 2 ^ k ∧ fifo.buffer.length = 2 ^ k ∧ fifo.inPos = fifo.outPos
  step
    | _, fifo, .put buffer len n, fifo' =>
      len.toNat ≤ buffer.length ∧ kfifoPut fifo buffer len = some (fifo', n)
    | _, fifo, .get len data, fifo' => ∃ buffer buffer' n,
      len.toNat ≤ buffer.length ∧ kfifoGet fifo buffer len = some (fifo', buffer', n) ∧
        data = buffer'.take n.toNat

/-- The bytes that the puts of a run accepted, in order. -/
def accepted : List (Event β) → List β
  | [] => []
  | .put buffer _ n :: tr => accepted tr ++ buffer.take n.toNat
  | .get _ _ :: tr => accepted tr

/-- The bytes that the gets of a run returned, in order. -/
def returned : List (Event β) → List β
  | [] => []
  | .put _ _ _ :: tr => returned tr
  | .get _ data :: tr => returned tr ++ data

/-- The FIFO holds the bytes that were accepted and not yet returned. -/
def Agrees (k : ℕ) (tr : List (Event β)) (fifo : Kfifo β) : Prop :=
  ∃ xs, Holds fifo k xs ∧ accepted tr = returned tr ++ xs

variable {tr : List (Event β)}

theorem agrees_init (h : (system β k).init fifo) : Agrees k ([] : List (Event β)) fifo := by
  obtain ⟨hsize, hlength, heq⟩ := h
  refine ⟨[], ⟨hsize, hlength, ?_, zero_le _, fun i hi => absurd hi (by simp)⟩, rfl⟩
  simp [heq]

theorem agrees_step {e : Event β} (h : Agrees k tr fifo)
    (hstep : (system β k).step tr fifo e fifo') :
    Agrees k (e :: tr) fifo' := by
  obtain ⟨xs, H, htr⟩ := h
  cases e with
  | put buffer len n =>
    obtain ⟨hlen, hrun⟩ := hstep
    obtain ⟨fifo1, n1, hrun1, -, H1⟩ := kfifoPut_spec H hlen
    obtain ⟨rfl, rfl⟩ := Prod.mk.inj (some.inj (hrun.symm.trans hrun1))
    refine ⟨_, H1, ?_⟩
    rw [accepted, returned, htr, List.append_assoc]
  | get len data =>
    obtain ⟨buffer, buffer', n, hlen, hrun, rfl⟩ := hstep
    obtain ⟨fifo1, buffer1, n1, hrun1, hn, hdata, H1⟩ := kfifoGet_spec H hlen
    obtain ⟨rfl, hrest⟩ := Prod.mk.inj (some.inj (hrun.symm.trans hrun1))
    obtain ⟨rfl, rfl⟩ := Prod.mk.inj hrest
    refine ⟨_, H1, ?_⟩
    have htake : buffer'.take n.toNat = xs.take n.toNat := by
      rw [hdata, take_append_of_le_length (by rw [length_take]; omega), take_take,
        min_self]
    rw [accepted, returned, htr, htake, List.append_assoc, List.take_append_drop]

theorem reach_agrees (h : (system β k).Reach tr fifo) : Agrees k tr fifo :=
  h.invariant (fun _ hinit => agrees_init hinit)
    fun _ _ _ _ hagree hstep => agrees_step hagree hstep

/-- **A `kfifo` is a FIFO.**  In every state a run reaches, from whatever value the counters
started at:

* the bytes returned are a prefix of the bytes accepted;
* the difference of the counters is the number of bytes accepted and not yet returned, and is
  at most the size;
* a put of `len` bytes accepts as many as are free, a get of `len` bytes returns as many as
  are there, and neither copies anything outside of the buffers. -/
theorem kfifo_fifo (h : (system β k).Reach tr fifo) :
    returned tr <+: accepted tr ∧
    (accepted tr).length = (returned tr).length + (fifo.inPos - fifo.outPos).toNat ∧
    (fifo.inPos - fifo.outPos).toNat ≤ fifo.size.toNat ∧
    (∀ (buffer : List β) (len : BitVec 32), len.toNat ≤ buffer.length → ∃ fifo' n,
      kfifoPut fifo buffer len = some (fifo', n) ∧
      (system β k).Reach (.put buffer len n :: tr) fifo' ∧
      n.toNat = min len.toNat (fifo.size.toNat - (fifo.inPos - fifo.outPos).toNat)) ∧
    (∀ (buffer : List β) (len : BitVec 32), len.toNat ≤ buffer.length → ∃ fifo' buffer' n,
      kfifoGet fifo buffer len = some (fifo', buffer', n) ∧
      (system β k).Reach (.get len (buffer'.take n.toNat) :: tr) fifo' ∧
      n.toNat = min len.toNat (fifo.inPos - fifo.outPos).toNat ∧
      buffer'.drop n.toNat = buffer.drop n.toNat) := by
  obtain ⟨xs, H, htr⟩ := reach_agrees h
  refine ⟨⟨xs, htr.symm⟩, ?_, ?_, fun buffer len hlen => ?_, fun buffer len hlen => ?_⟩
  · rw [htr, length_append, H.used_eq]
  · rw [H.used_eq, H.size_eq]
    exact H.used_le
  · obtain ⟨fifo', n, hrun, hn, -⟩ := kfifoPut_spec H hlen
    refine ⟨fifo', n, hrun, .step h ⟨hlen, hrun⟩, ?_⟩
    rw [H.size_eq, H.used_eq, hn]
  · obtain ⟨fifo', buffer', n, hrun, hn, hdata, -⟩ := kfifoGet_spec H hlen
    refine ⟨fifo', buffer', n, hrun, .step h ⟨buffer, buffer', n, hlen, hrun, rfl⟩, ?_, ?_⟩
    · rw [H.used_eq, hn]
    · have hlength : (xs.take n.toNat).length = n.toNat := by
        rw [length_take]
        omega
      rw [hdata, drop_left' hlength]

/-- A FIFO of two bytes whose counters are about to wrap. -/
theorem kfifo_fifo_wraps :
    ∃ fifo, (system ℕ 1).Reach [.put [7, 8, 9] 3 2] fifo ∧
      fifo.inPos.toNat = 1 ∧ (fifo.inPos - fifo.outPos).toNat ≤ fifo.size.toNat := by
  have hstart : (system ℕ 1).Reach [] ⟨[0, 0], 2, 0xffffffff, 0xffffffff⟩ :=
    .init ⟨rfl, rfl, rfl⟩
  obtain ⟨fifo, n, hrun, hreach, -⟩ := (kfifo_fifo hstart).2.2.2.1 [7, 8, 9] 3 (by decide)
  obtain ⟨rfl, rfl⟩ : fifo = ⟨[8, 7], 2, 1, 0xffffffff⟩ ∧ n = 2 :=
    Prod.mk.inj (some.inj (hrun.symm.trans rfl))
  exact ⟨_, hreach, rfl, (kfifo_fifo hreach).2.2.1⟩

theorem toNat_sub_one (h : n ≠ 0) : (n - 1).toNat = n.toNat - 1 := by
  bv_omega

/-! ## New FIFOs -/

theorem isPowerOf2_iff (h : n ≠ 0) : n &&& (n - 1) = 0 ↔ ∃ k, n.toNat = 2 ^ k := by
  have hnat : n.toNat ≠ 0 := fun h' => h (eq_of_toNat_eq h')
  rw [← toNat_inj, toNat_and, toNat_sub_one h]
  exact and_sub_one_eq_zero_iff_isPowerOfTwo hnat

/-- Rounding up gives the least power of two that is large enough. -/
theorem toNat_roundupPowOfTwo (h : n ≠ 0) (hle : n.toNat ≤ 2 ^ 31) :
    ∃ k, (roundupPowOfTwo n).toNat = 2 ^ k ∧ n.toNat ≤ 2 ^ k ∧ 2 ^ k < 2 * n.toNat := by
  have hpos : n.toNat ≠ 0 := fun h' => h (eq_of_toNat_eq h')
  have hsize : (n.toNat - 1).size ≤ 31 := size_le.mpr (by omega)
  have hlt := lt_size_self (n.toNat - 1)
  refine ⟨(n.toNat - 1).size, ?_, by omega, ?_⟩
  · rw [roundupPowOfTwo, toNat_sub_one h, toNat_shiftLeft, Nat.shiftLeft_eq]
    have : 2 ^ (n.toNat - 1).size ≤ 2 ^ 31 := Nat.pow_le_pow_right (by decide) hsize
    rw [show (1#32).toNat = 1 from rfl, one_mul, mod_eq_of_lt (by omega)]
  · cases hs : (n.toNat - 1).size with
    | zero => omega
    | succ s =>
      have hge : 2 ^ s ≤ n.toNat - 1 := lt_size.mp (hs ▸ lt_succ_self s)
      omega

section

variable (hmalloc : ∀ n buffer, kmalloc n = some buffer → buffer.length = n) (enough : Bool)
include hmalloc

theorem kfifoAllocRounded_spec (hsize : size.toNat = 2 ^ k) :
    ∃ out, kfifoAllocRounded kmalloc enough size = some out ∧
      (out = none ↔ kmalloc (2 ^ k) = none ∨ enough = false) ∧
      ∀ fifo, out = some fifo → (system β k).init fifo := by
  have hne : size ≠ 0 := by
    rintro rfl
    exact absurd hsize (Nat.two_pow_pos k).ne
  have hpow : isPowerOf2 size = true :=
    decide_eq_true ⟨hne, (isPowerOf2_iff hne).mpr ⟨k, hsize⟩⟩
  rw [kfifoAllocRounded, hsize]
  cases hbuf : kmalloc (2 ^ k) with
  | none => exact ⟨none, rfl, by simp⟩
  | some buffer =>
    refine ⟨_, if_pos hpow, by simp, fun fifo hfifo => ?_⟩
    obtain ⟨-, ⟨⟩⟩ := Option.ite_none_right_eq_some.mp hfifo
    exact ⟨hsize, hmalloc _ _ hbuf, rfl⟩

/-- **`kfifo_alloc`** rounds the size up to a power of two, less than twice as large, and returns
an empty FIFO of that size unless an allocation fails. -/
theorem kfifoAlloc_spec (h : size ≠ 0) (hle : size.toNat ≤ 2 ^ 31) :
    ∃ k out, size.toNat ≤ 2 ^ k ∧ 2 ^ k < 2 * size.toNat ∧
      kfifoAlloc kmalloc enough size = some out ∧
      (out = none ↔ kmalloc (2 ^ k) = none ∨ enough = false) ∧
      ∀ fifo, out = some fifo → (system β k).init fifo := by
  rw [kfifoAlloc]
  by_cases hpow : size &&& (size - 1) = 0
  · obtain ⟨k, hk⟩ := (isPowerOf2_iff h).mp hpow
    rw [if_neg (not_not.mpr hpow)]
    have hpos := Nat.two_pow_pos k
    exact ⟨k, _, hk.le, by omega, (kfifoAllocRounded_spec hmalloc enough hk).choose_spec⟩
  · obtain ⟨k, hround, hge, hlt⟩ := toNat_roundupPowOfTwo h hle
    have hbug : ¬ size > 0x80000000 := by
      intro hgt
      exact absurd (lt_def.mp hgt) (by simpa using hle)
    rw [if_pos hpow, if_neg hbug]
    exact ⟨k, _, hge, hlt, (kfifoAllocRounded_spec hmalloc enough hround).choose_spec⟩

end

/-- Five bytes are asked for. -/
theorem kfifoAlloc_spec_five :
    ∃ k out, 2 ^ k < 10 ∧ out ≠ none ∧
      kfifoAlloc (fun n => some (List.replicate n 0#8)) true 5 = some out := by
  have hmalloc (n : ℕ) (buffer : List (BitVec 8)) (h : some (List.replicate n 0#8) = some buffer) :
      buffer.length = n := Option.some.inj h ▸ List.length_replicate
  obtain ⟨k, out, -, hlt, hrun, hnone, -⟩ :=
    kfifoAlloc_spec hmalloc true (show (5 : BitVec 32) ≠ 0 by decide) (by decide)
  exact ⟨k, out, hlt, by simp [hnone], hrun⟩

end Gp2xKernel.Fifo
