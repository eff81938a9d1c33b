import Gp2xKernel.Rtime.Lossless

/-!
# The buffers of rtime

The compressor stops at `dstlen - 2`, an unsigned number, and leaves its buffer if it has less than
two bytes.  The decompressor checks neither the end of its input nor that a run ends with the
output: it stays inside exactly if some number of pairs makes up the output.

## Main definitions

* `written`: the number of bytes that the first pairs make up

## Main results

* `decompressLoop_inside_iff`: the loop, from any pair on
* `rtime_inside_iff`: when the buffers are not left
-/

namespace Gp2xKernel.Rtime

open Option List Nat
open BitVec (ofNat)

/-- The compressor returns, and has written to its buffer only. -/
def CompressInside (dataIn : List Byte) (dstlen : BitVec 32) : Prop :=
  ∃ r ∈ compressLoop dataIn dstlen (dataIn.length + 1) noPositions 0 0, r.2.length ≤ dstlen.toNat

/-- The decompressor returns, has read its input only, and has written to its buffer only. -/
def DecompressInside (dataIn : List Byte) (destlen : ℕ) : Prop :=
  ∃ r ∈ rtimeDecompress dataIn destlen, r.1.length ≤ destlen

/-- The number of bytes that the first `n` pairs make up. -/
def written (dataIn : List Byte) : ℕ → ℕ
  | 0 => 0
  | n + 1 => written dataIn n + 1 + (dataIn.getD (2 * n + 1) 0).toNat

variable {dataIn : List Byte} {dstlen : BitVec 32} {positions : Positions}

/-! ## Compression -/

/-- A pair is written only where two bytes are free. -/
theorem compressLoop_length (hdst : 2 ≤ dstlen.toNat) {turns pos outpos : ℕ} {r : ℕ × List Byte}
    (hout : outpos ≤ dstlen.toNat)
    (h : compressLoop dataIn dstlen turns positions pos outpos = some r) :
    outpos + r.2.length ≤ dstlen.toNat := by
  induction turns generalizing positions pos outpos r with
  | zero => cases h
  | succ turns ih =>
    rw [compressLoop] at h
    split_ifs at h with hgo
    · obtain ⟨value, -, h⟩ := bind_eq_some_iff.mp h
      obtain ⟨run, -, h⟩ := bind_eq_some_iff.mp h
      obtain ⟨rest, hrest, rfl⟩ := map_eq_some_iff.mp h
      have hsub : (dstlen - 2).toNat = dstlen.toNat - 2 := BitVec.toNat_sub_of_le hdst
      have hle := ih (by omega) hrest
      simp only [length_cons]
      omega
    · obtain rfl := some.inj h
      exact hout

theorem compressInside_iff (hne : dataIn ≠ []) (hlen : dataIn.length ≤ 4096) :
    CompressInside dataIn dstlen ↔ 2 ≤ dstlen.toNat := by
  obtain ⟨last, out, hloop, -⟩ := compressLoop_spec hlen dstlen (dataIn.length + 1) 0 (zero_le _)
    bounded_noPositions (lt_succ_self _)
  constructor
  · -- the first pair is always written
    rintro ⟨r, hr, hle⟩
    rw [compressLoop, if_pos ⟨length_pos_iff.mpr hne, zero_le _⟩] at hr
    obtain ⟨value, -, hr⟩ := bind_eq_some_iff.mp hr
    obtain ⟨run, -, hr⟩ := bind_eq_some_iff.mp hr
    obtain ⟨rest, -, rfl⟩ := map_eq_some_iff.mp hr
    simp only [length_cons] at hle
    omega
  · intro hdst
    refine ⟨_, hloop, ?_⟩
    have := compressLoop_length hdst (zero_le _) hloop
    omega

/-! ## Decompression -/

/-- A copy from what has been written succeeds. -/
theorem copyBytes_length (n : ℕ) {back : ℕ} {out : List Byte} (hback : back < out.length) :
    ∃ out', copyBytes n back out = some out' ∧ out'.length = out.length + n := by
  induction n generalizing back out with
  | zero => exact ⟨out, rfl, rfl⟩
  | succ n ih =>
    obtain ⟨out', hrest, hlen⟩ := ih (by simpa : back + 1 < (out ++ [out[back]]).length)
    refine ⟨out', ?_, by rw [hlen, length_append, length_singleton]; omega⟩
    rw [copyBytes, readAt_natCast, getElem?_eq_getElem hback]
    exact hrest

theorem copyRun_length (n : ℕ) {back : ℕ} {out : List Byte} (hback : back < out.length) :
    ∃ out', copyRun n back out = some out' ∧ out'.length = out.length + n := by
  rw [copyRun]
  split_ifs with hzero hover
  · exact ⟨out, rfl, by rw [hzero, add_zero]⟩
  · exact copyBytes_length n hback
  · refine ⟨_, if_pos ⟨Int.natCast_nonneg back, by omega⟩, ?_⟩
    simp only [Int.toNat_natCast, length_append, length_take, length_drop]
    omega

theorem written_strictMono (dataIn : List Byte) : StrictMono (written dataIn) :=
  strictMono_nat_of_lt_succ fun n => by
    rw [written]
    omega

/-- **The loop**, by induction on the turns, after `k` pairs. -/
theorem decompressLoop_inside_iff {destlen : ℕ} (hdest : destlen ≤ 4096) {turns k : ℕ}
    {out : List Byte} (hk : 2 * k ≤ dataIn.length) (hout : out.length = written dataIn k)
    (hbounded : Bounded positions out.length) (hturns : destlen < turns + out.length) :
    (∃ r ∈ decompressLoop dataIn destlen turns positions (2 * k) out, r.1.length ≤ destlen) ↔
      ∃ n ≥ k, 2 * n ≤ dataIn.length ∧ written dataIn n = destlen := by
  induction turns generalizing k out positions with
  | zero =>
    refine iff_of_false (by rintro ⟨r, hr, -⟩; cases hr) ?_
    rintro ⟨n, hn, -, heq⟩
    have := (written_strictMono dataIn).monotone hn
    omega
  | succ turns ih =>
    rw [decompressLoop]
    by_cases hgo : out.length < destlen
    · rw [if_pos hgo]
      have hnext : (∃ n ≥ k, 2 * n ≤ dataIn.length ∧ written dataIn n = destlen) ↔
          ∃ n ≥ k + 1, 2 * n ≤ dataIn.length ∧ written dataIn n = destlen := by
        refine exists_congr fun n => and_congr_left fun h => ?_
        have hne : n ≠ k := fun heq => by
          rw [heq] at h
          omega
        omega
      rw [hnext]
      by_cases hin : 2 * k + 1 < dataIn.length
      · have hval : readAt dataIn (2 * k : ℕ) = some dataIn[2 * k] := by
          rw [readAt_natCast, getElem?_eq_getElem]
        have hrep : readAt dataIn ((2 * k : ℕ) + 1) = some dataIn[2 * k + 1] := by
          rw [← Int.natCast_succ, readAt_natCast, getElem?_eq_getElem]
        obtain ⟨back, hback, hentry⟩ := hbounded dataIn[2 * k]
        obtain ⟨out', hcopy, hlen⟩ := copyRun_length dataIn[2 * k + 1].toNat
          (by rw [length_append, length_singleton]; omega : back < (out ++ [dataIn[2 * k]]).length)
        rw [hval, bind_some, hrep, bind_some, hentry, toInt_ofNat (by omega), hcopy]
        rw [length_append, length_singleton] at hlen
        refine ih (by omega : 2 * (k + 1) ≤ dataIn.length) ?_
          (hbounded.update out'.length (by omega) _) (by omega)
        rw [hlen, hout, written, getD_eq_getElem?_getD, getElem?_eq_getElem hin, getD_some]
      · -- a byte of the pair lies behind the input
        refine iff_of_false ?_ ?_
        · rintro ⟨r, hr, -⟩
          obtain ⟨value, -, hr⟩ := bind_eq_some_iff.mp hr
          obtain ⟨rep, hread, -⟩ := bind_eq_some_iff.mp hr
          rw [← Int.natCast_succ, readAt_natCast, getElem?_eq_none (not_lt.mp hin)] at hread
          cases hread
        · omega
    · rw [if_neg hgo]
      constructor
      · rintro ⟨r, hr, hle⟩
        obtain rfl := some.inj hr
        exact ⟨k, le_rfl, hk, hout.symm.trans (le_antisymm hle (not_lt.mp hgo))⟩
      · rintro ⟨n, hn, -, heq⟩
        have := (written_strictMono dataIn).monotone hn
        refine ⟨_, rfl, ?_⟩
        show out.length ≤ destlen
        omega

/-- **The buffers.**  The compressor stays inside exactly if its buffer has room for a pair; the
decompressor does exactly if a number of pairs of its input makes up the output. -/
theorem rtime_inside_iff (dataIn : List Byte) :
    (∀ dstlen : BitVec 32, dataIn ≠ [] → dataIn.length ≤ 4096 →
        (CompressInside dataIn dstlen ↔ 2 ≤ dstlen.toNat)) ∧
      ∀ destlen ≤ 4096, (DecompressInside dataIn destlen ↔
        ∃ n, 2 * n ≤ dataIn.length ∧ written dataIn n = destlen) := by
  refine ⟨fun dstlen => compressInside_iff, fun destlen hdest => ?_⟩
  show (∃ r ∈ decompressLoop dataIn destlen (destlen + 1) noPositions (2 * 0) [], _) ↔ _
  refine Iff.trans (decompressLoop_inside_iff hdest (zero_le _) rfl bounded_noPositions
    (lt_succ_self _)) ?_
  simp only [ge_iff_le, zero_le, true_and]

theorem rtime_inside_iff_pair :
    CompressInside [0x61, 0x61, 0x61] 2 ∧ DecompressInside [0x61, 2] 3 :=
  ⟨((rtime_inside_iff _).1 _ (by decide) (by decide)).mpr (by decide),
    ((rtime_inside_iff _).2 _ (by decide)).mpr ⟨1, by decide⟩⟩

/-- A buffer of one byte; a run that crosses the end of the output; and an input that is too
short. -/
theorem rtime_leaves_buffers :
    ¬ CompressInside [0] 1 ∧ ¬ DecompressInside [0, 5] 3 ∧ ¬ DecompressInside [0] 1 := by
  unfold CompressInside DecompressInside
  decide

end Gp2xKernel.Rtime
