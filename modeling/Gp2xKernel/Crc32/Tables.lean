import Mathlib.Tactic.Ring
import Mathlib.Tactic.Positivity
import Gp2xKernel.Library.XorLinear
import Gp2xKernel.Crc32.Basic

/-!
# The generated tables

The generator computes one division per bit of the index and combines the entries found so
far by exclusive or.  As the division is linear, every entry is the division of its index.

## Main results

* `stepLe_linear`, `stepBe_linear`: one bit of the division is linear
* `getD_crc32initLe`, `getD_crc32initBe`: the entries of the tables
-/

namespace Gp2xKernel.Crc32

open Library List BitVec

/-! ## The division is linear -/

variable {i bits k x : ℕ} {table : List (BitVec 32)}

/-- A test of one bit by a mask, as the source writes it. -/
private theorem and_twoPow_ne_zero_iff (x : BitVec 32) (hi : i < 32) :
    x &&& twoPow 32 i ≠ 0 ↔ x.getLsbD i = true := by
  rw [and_twoPow]
  have htwo : twoPow 32 i ≠ 0#32 := by
    intro h
    have hbit := congrArg (fun y : BitVec 32 => y.getLsbD i) h
    simp [hi] at hbit
  cases x.getLsbD i <;> simp [htwo]

theorem twoPow_eq_ofNat (k : ℕ) : BitVec.twoPow 32 k = BitVec.ofNat 32 (2 ^ k) :=
  eq_of_toNat_eq (by rw [toNat_twoPow, toNat_ofNat])

theorem stepLe_linear : XorLinear stepLe := by
  have heq : stepLe = fun x : BitVec 32 =>
      (x >>> 1) ^^^ (if x.getLsbD 0 then crcPolyLe else 0) := by
    funext x
    have h := and_twoPow_ne_zero_iff x (i := 0) (by decide)
    exact congrArg (x >>> 1 ^^^ ·) (if_congr h rfl rfl)
  rw [heq]
  exact (XorLinear.ushiftRight 1).xor (XorLinear.ite_getLsbD 0 crcPolyLe)

theorem stepBe_linear : XorLinear stepBe := by
  have heq : stepBe = fun x : BitVec 32 =>
      (x <<< 1) ^^^ (if x.getLsbD 31 then crcPolyBe else 0) := by
    funext x
    have h := and_twoPow_ne_zero_iff x (i := 31) (by decide)
    exact congrArg (x <<< 1 ^^^ ·) (if_congr h rfl rfl)
  rw [heq]
  exact (XorLinear.shiftLeft 1).xor (XorLinear.ite_getLsbD 31 crcPolyBe)

/-- A single bit moves down until it is the next one to be divided. -/
theorem stepLe_iterate_twoPow : ∀ k < 32, stepLe^[k] (twoPow 32 k) = 1 := by
  decide

/-- A single bit moves up until it is the next one to be divided. -/
theorem stepBe_iterate_twoPow : ∀ k < 32, stepBe^[k] (twoPow 32 (31 - k)) = 0x80000000#32 := by
  decide

/-! ## The inner loop -/

@[simp] theorem length_fill (i : ℕ) (crc : BitVec 32) (js : List ℕ) (table : List (BitVec 32)) :
    (fill i crc js table).length = table.length := by
  induction js generalizing table with
  | nil => rfl
  | cons j js ih => exact (ih _).trans (length_set ..)

/-- **The inner loop**, when no entry that it writes is one that it reads. -/
theorem getD_fill {js : List ℕ} (hread : ∀ j ∈ js, ∀ j' ∈ js, i + j' ≠ j) (crc : BitVec 32)
    (table : List (BitVec 32)) (hwrite : ∀ j ∈ js, i + j < table.length) (x : ℕ) :
    (fill i crc js table).getD x 0 =
      if i ≤ x ∧ x - i ∈ js then crc ^^^ table.getD (x - i) 0 else table.getD x 0 := by
  induction js generalizing table with
  | nil => simp [fill]
  | cons j js ih =>
    have hj : i + j < table.length := hwrite j mem_cons_self
    have hrest := ih (fun a ha b hb => hread a (mem_cons_of_mem _ ha) b (mem_cons_of_mem _ hb))
      (table.set (i + j) (crc ^^^ table.getD j 0))
      (fun a ha => by simpa using hwrite a (mem_cons_of_mem _ ha))
    refine hrest.trans ?_
    -- entry `i + j` is new, and every other entry is as it was
    have hset : ∀ y, (table.set (i + j) (crc ^^^ table.getD j 0)).getD y 0 =
        if y = i + j then crc ^^^ table.getD j 0 else table.getD y 0 := by
      intro y
      by_cases hy : i + j = y
      · subst hy
        simp [hj]
      · simp [hy, Ne.symm hy]
    by_cases hx : i ≤ x ∧ x - i ∈ js
    · -- a later turn writes `x`, from an entry that this one left alone
      have hne : x - i ≠ i + j := fun h =>
        hread _ (mem_cons_of_mem _ hx.2) j mem_cons_self h.symm
      rw [if_pos hx, if_pos ⟨hx.1, mem_cons_of_mem _ hx.2⟩, hset, if_neg hne]
    · rw [if_neg hx, hset]
      by_cases hxj : x = i + j
      · have hsub : x - i = j := by omega
        rw [if_pos hxj, if_pos ⟨by omega, hsub ▸ mem_cons_self⟩, hsub]
      · have hnot : ¬(i ≤ x ∧ x - i ∈ j :: js) := by
          rintro ⟨hle, hmem⟩
          rcases mem_cons.mp hmem with heq | hmem
          · exact hxj (by omega)
          · exact hx ⟨hle, hmem⟩
        rw [if_neg hxj, if_neg hnot]

/-! ## The table of `crc32init_le` -/

/-- The entries at the multiples of `2 ^ k` are right. -/
structure FilledLe (bits k : ℕ) (table : List (BitVec 32)) : Prop where
  length_eq : table.length = 2 ^ bits
  getD_eq : ∀ m, 2 ^ k * m < 2 ^ bits →
    table.getD (2 ^ k * m) 0 = stepLe^[bits] (BitVec.ofNat 32 (2 ^ k * m))

/-- The entry at a power of two is the division that the outer loop has reached. -/
theorem stepLe_iterate_two_pow (hk : k ≤ bits) (hbits : k < 32) :
    stepLe^[bits] (BitVec.ofNat 32 (2 ^ k)) = stepLe^[bits - k] 1 := by
  have hsplit : bits = bits - k + k := by omega
  rw [← stepLe_iterate_twoPow k hbits, ← Function.iterate_add_apply, ← hsplit, twoPow_eq_ofNat]

/-- The indices that a turn of `crc32init_le` reads are the even multiples of `2 ^ k`. -/
theorem mem_range'_iff (hk : k < bits) (j : ℕ) :
    j ∈ List.range' 0 (2 ^ bits / (2 * 2 ^ k)) (2 * 2 ^ k) ↔
      ∃ m, j = 2 ^ k * (2 * m) ∧ 2 ^ k * (2 * m + 1) < 2 ^ bits := by
  have hpow : 2 ^ bits = 2 * 2 ^ k * 2 ^ (bits - (k + 1)) := by
    rw [← Nat.pow_succ', ← Nat.pow_add, show k + 1 + (bits - (k + 1)) = bits by omega]
  have hdiv : 2 ^ bits / (2 * 2 ^ k) = 2 ^ (bits - (k + 1)) := by
    rw [hpow, Nat.mul_div_cancel_left _ (by positivity)]
  have hlt : ∀ m, 2 ^ k * (2 * m + 1) < 2 ^ bits ↔ m < 2 ^ (bits - (k + 1)) := by
    intro m
    rw [hpow, Nat.mul_comm 2 (2 ^ k), Nat.mul_assoc, Nat.mul_lt_mul_left (by positivity)]
    omega
  rw [hdiv, mem_range']
  constructor
  · rintro ⟨m, hm, rfl⟩
    exact ⟨m, by ring, (hlt m).mpr hm⟩
  · rintro ⟨m, rfl, hm⟩
    exact ⟨m, (hlt m).mp hm, by ring⟩

/-- One turn of the outer loop adds the odd multiples of `2 ^ k`. -/
theorem FilledLe.fill (h : FilledLe bits (k + 1) table) (hk : k < bits) (hbits : bits ≤ 32) :
    FilledLe bits k (Crc32.fill (2 ^ k) (stepLe^[bits - k] 1)
      (List.range' 0 (2 ^ bits / (2 * 2 ^ k)) (2 * 2 ^ k)) table) := by
  have hpos : 0 < 2 ^ k := by positivity
  have hodd : ∀ m, 2 ^ k + 2 ^ k * (2 * m) = 2 ^ k * (2 * m + 1) := fun m => by ring
  have heven : ∀ m, 2 ^ k * (2 * m) = 2 ^ (k + 1) * m := fun m => by ring
  have hparity : ∀ m n, 2 ^ k * (2 * m + 1) ≠ 2 ^ k * (2 * n) := fun m n heq => by
    have := Nat.eq_of_mul_eq_mul_left hpos heq
    omega
  refine ⟨by rw [length_fill, h.length_eq], fun m hm => ?_⟩
  rw [getD_fill]
  · rcases Nat.even_or_odd' m with ⟨n, rfl | rfl⟩
    · -- an even multiple is right already and is not written
      rw [if_neg, heven]
      · exact h.getD_eq n (by rwa [← heven])
      · rintro ⟨hle, hmem⟩
        obtain ⟨n', heq, -⟩ := (mem_range'_iff hk _).mp hmem
        exact hparity n' n (by rw [← hodd, ← heq]; omega)
    · have hsub : 2 ^ k * (2 * n + 1) - 2 ^ k = 2 ^ k * (2 * n) := by
        rw [← hodd, Nat.add_sub_cancel_left]
      rw [hsub, if_pos ⟨by rw [← hodd]; omega, (mem_range'_iff hk _).mpr ⟨n, rfl, hm⟩⟩, ← hodd,
        Nat.add_comm, heven, ofNat_two_pow_mul_add (Nat.pow_lt_pow_succ (by decide)) n,
        stepLe_linear.iterate, stepLe_iterate_two_pow hk.le (by omega), BitVec.xor_comm,
        h.getD_eq n (by rw [← heven]; rw [← hodd] at hm; omega)]
  · intro j hj j' hj' heq
    obtain ⟨n, rfl, -⟩ := (mem_range'_iff hk _).mp hj
    obtain ⟨n', rfl, -⟩ := (mem_range'_iff hk _).mp hj'
    exact hparity n' n (by rw [← hodd, heq])
  · intro j hj
    obtain ⟨n, rfl, hlt⟩ := (mem_range'_iff hk _).mp hj
    rwa [h.length_eq, hodd]

/-- The outer loop, by induction on the turns to go. -/
theorem FilledLe.initLeLoop (h : FilledLe bits k table) (hk : k ≤ bits) (hbits : bits ≤ 32) :
    FilledLe bits 0 (Crc32.initLeLoop bits k (stepLe^[bits - k] 1) table) := by
  induction k generalizing table with
  | zero => exact h
  | succ k ih =>
    have hcrc : stepLe (stepLe^[bits - (k + 1)] 1) = stepLe^[bits - k] 1 := by
      rw [← Function.iterate_succ_apply' stepLe, show (bits - (k + 1)).succ = bits - k by omega]
    simp only [Crc32.initLeLoop, hcrc, Nat.one_shiftLeft]
    exact ih (h.fill (by omega) hbits) (by omega)

/-- **The table of `crc32init_le`**: each entry is the division of its index. -/
theorem getD_crc32initLe (hbits : bits ≤ 32) (hx : x < 2 ^ bits) :
    (crc32initLe bits).getD x 0 = stepLe^[bits] (BitVec.ofNat 32 x) := by
  have hstart : FilledLe bits bits ((List.replicate (1 <<< bits) 0).set 0 0) := by
    refine ⟨by simp [Nat.one_shiftLeft], fun m hm => ?_⟩
    obtain rfl : m = 0 := by
      by_contra hne
      exact absurd hm (not_lt.mpr (Nat.le_mul_of_pos_right _ (Nat.pos_of_ne_zero hne)))
    have hzero : stepLe^[bits] 0#32 = 0#32 := (stepLe_linear.iterate bits).map_zero
    simp [Nat.one_shiftLeft, hzero]
  have hfilled := hstart.initLeLoop le_rfl hbits
  simpa [crc32initLe] using hfilled.getD_eq x (by simpa using hx)

/-! ## The table of `crc32init_be` -/

/-- The division that an entry of the table of `crc32init_be` holds. -/
def entryBe (bits x : ℕ) : BitVec 32 := stepBe^[bits] (BitVec.ofNat 32 x <<< (32 - bits))

/-- The entry at a power of two is the division that the outer loop has reached. -/
theorem entryBe_two_pow (hk : k < bits) (hbits : bits ≤ 32) :
    entryBe bits (2 ^ k) = stepBe^[k + 1] 0x80000000#32 := by
  have hshift : BitVec.ofNat 32 (2 ^ k) <<< (32 - bits) = twoPow 32 (31 - (bits - (k + 1))) := by
    rw [← twoPow_eq_ofNat, twoPow_eq, ← shiftLeft_add]
    congr 1
    omega
  rw [entryBe, hshift, ← stepBe_iterate_twoPow (bits - (k + 1)) (by omega),
    ← Function.iterate_add_apply, show k + 1 + (bits - (k + 1)) = bits by omega]

/-- The outer loop of `crc32init_be`: after `k` turns the entries below `2 ^ k` are right. -/
theorem initBeLoop_spec (hk : k ≤ bits) (hbits : bits ≤ 32) :
    (initBeLoop bits k).1 = stepBe^[k] 0x80000000#32 ∧
      (initBeLoop bits k).2.length = 2 ^ bits ∧
      ∀ x < 2 ^ k, (initBeLoop bits k).2.getD x 0 = entryBe bits x := by
  induction k with
  | zero =>
    refine ⟨rfl, by simp [initBeLoop, Nat.one_shiftLeft], fun x hx => ?_⟩
    obtain rfl : x = 0 := by simpa using hx
    have hzero : stepBe^[bits] 0#32 = 0#32 := (stepBe_linear.iterate bits).map_zero
    simp [initBeLoop, entryBe, Nat.one_shiftLeft, hzero]
  | succ k ih =>
    obtain ⟨hcrc, hlen, hget⟩ := ih (by omega)
    have hle : 2 ^ (k + 1) ≤ 2 ^ bits := Nat.pow_le_pow_right (by decide) hk
    have hcrc' : stepBe (initBeLoop bits k).1 = stepBe^[k + 1] 0x80000000#32 := by
      rw [hcrc, Function.iterate_succ_apply']
    refine ⟨hcrc', (length_fill ..).trans hlen, fun x hx => ?_⟩
    simp only [initBeLoop, Nat.one_shiftLeft, hcrc']
    rw [getD_fill (fun j hj j' _ => by rw [mem_range] at hj; omega) _ _
      (fun j hj => by rw [mem_range] at hj; omega)]
    by_cases hxk : x < 2 ^ k
    · rw [if_neg (by omega), hget x hxk]
    · have hlow : x - 2 ^ k < 2 ^ k := by omega
      have hsum : x = 2 ^ k * 1 + (x - 2 ^ k) := by omega
      rw [if_pos ⟨by omega, mem_range.mpr hlow⟩, hget _ hlow, ← entryBe_two_pow hk hbits]
      conv_rhs => rw [hsum]
      rw [entryBe, entryBe, entryBe, ofNat_two_pow_mul_add hlow, Nat.mul_one,
        shiftLeft_xor_distrib, stepBe_linear.iterate]

/-- **The table of `crc32init_be`**: each entry is the division of its index, moved to the top. -/
theorem getD_crc32initBe (hbits : bits ≤ 32) (hx : x < 2 ^ bits) :
    (crc32initBe bits).getD x 0 = stepBe^[bits] (BitVec.ofNat 32 x <<< (32 - bits)) :=
  (initBeLoop_spec le_rfl hbits).2.2 x hx

end Gp2xKernel.Crc32
