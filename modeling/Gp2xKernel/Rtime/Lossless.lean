import Gp2xKernel.Rtime.Basic

/-!
# rtime compression is lossless

The compressor and the decompressor take the same steps: when the compressor is at a position of
its input, the decompressor has written the input up to that position and has the same table.  A
run repeats bytes that lie before its start, so the decompressor has written each byte of it
before it has to copy it, whether it copies byte by byte or at once.

## Main definitions

* `Repeats`: a run of bytes that repeats the bytes from an earlier position
* `Bounded`: a table of positions that have been passed

## Main results

* `matchRun_spec`: the inner loop finds a run
* `copyRun_spec`: copying a run extends a prefix of the input
* `compressLoop_spec`: the two loops follow each other
* `rtime_lossless`: decompression reproduces what was compressed
-/

namespace Gp2xKernel.Rtime

open Option List Nat
open BitVec (ofNat toNat_ofNat)

variable {dataIn : List Byte}

@[simp] theorem readAt_natCast (buf : List Byte) (i : ℕ) : readAt buf (i : ℤ) = buf[i]? := by
  simp [readAt]

/-- A position of the input, in 16 bits and back. -/
theorem toInt_ofNat {q : ℕ} (h : q ≤ 4096) : (ofNat 16 q).toInt = (q : ℤ) := by
  rw [BitVec.toInt_eq_toNat_of_lt, toNat_ofNat, mod_eq_of_lt (by omega)]
  rw [toNat_ofNat]
  omega

/-! ## Runs -/

/-- The `n` bytes from `pos` on repeat the bytes from `back` on. -/
structure Repeats (dataIn : List Byte) (back pos n : ℕ) : Prop where
  lt : back < pos
  le : pos + n ≤ dataIn.length
  eq : ∀ k < n, dataIn[back + k]? = dataIn[pos + k]?

variable {back pos n : ℕ} {positions : Positions}

theorem Repeats.zero (hlt : back < pos) (hle : pos ≤ dataIn.length) : Repeats dataIn back pos 0 :=
  ⟨hlt, hle, fun _ hk => absurd hk (not_lt_zero _)⟩

/-- A run that is one byte longer. -/
theorem Repeats.succ (hlt : back < pos) (hfirst : dataIn[back]? = dataIn[pos]?)
    (h : Repeats dataIn (back + 1) (pos + 1) n) : Repeats dataIn back pos (n + 1) := by
  refine ⟨hlt, by have := h.le; omega, fun k hk => ?_⟩
  cases k with
  | zero => exact hfirst
  | succ k =>
    have hk := h.eq k (lt_of_succ_lt_succ hk)
    rwa [add_right_comm, add_right_comm pos] at hk

/-- **The inner loop** finds a run of at most 255 bytes. -/
theorem matchRun_spec (turns runlen : ℕ) (hlt : back < pos) (hpos : pos ≤ dataIn.length)
    (hrun : runlen ≤ 255) (hturns : 255 < turns + runlen) :
    ∃ n, matchRun dataIn turns back pos runlen = some (pos + n, runlen + n) ∧
      runlen + n ≤ 255 ∧ Repeats dataIn back pos n := by
  induction turns generalizing back pos runlen with
  | zero => omega
  | succ turns ih =>
    have hstop : ∃ n, some (pos, runlen) = some (pos + n, runlen + n) ∧ runlen + n ≤ 255 ∧
        Repeats dataIn back pos n := ⟨0, rfl, hrun, .zero hlt hpos⟩
    rw [matchRun]
    by_cases hin : pos < dataIn.length
    · rw [if_pos ⟨by exact_mod_cast hlt, hin⟩, readAt_natCast, readAt_natCast,
        getElem?_eq_getElem hin, getElem?_eq_getElem (hlt.trans hin), bind_some,
        bind_some]
      by_cases hsame : dataIn[pos] = dataIn[back] ∧ runlen < 255
      · -- one more byte, and the run from the next position
        obtain ⟨n, hrest, hle, hrep⟩ :=
          ih (runlen + 1) (succ_lt_succ hlt) hin (by omega) (by omega)
        refine ⟨n + 1, ?_, by omega, hrep.succ hlt ?_⟩
        · rw [if_pos hsame, ← Int.natCast_succ, hrest, some.injEq, Prod.mk.injEq]
          omega
        · rw [getElem?_eq_getElem hin, getElem?_eq_getElem (hlt.trans hin), hsame.1]
      · rw [if_neg hsame]
        exact hstop
    · rw [if_neg fun h => hin h.2]
      exact hstop

/-! ## Copies -/

/-- One more byte of a prefix. -/
theorem take_append_getElem? {p : ℕ} {b : Byte} (h : dataIn[p]? = some b) :
    dataIn.take p ++ [b] = dataIn.take (p + 1) := by
  rw [take_add_one, h]
  rfl

section

variable (h : Repeats dataIn back pos n)
include h

/-- **Copying byte by byte** extends a prefix of the input, also where the copy reads what it has
written. -/
theorem copyBytes_spec : copyBytes n back (dataIn.take pos) = some (dataIn.take (pos + n)) := by
  induction n generalizing back pos with
  | zero => rfl
  | succ n ih =>
    have hlt := h.lt
    have hle := h.le
    have hfirst : dataIn[back]? = dataIn[pos]? := h.eq 0 (succ_pos n)
    have hnext : dataIn[pos]? = some dataIn[pos] := getElem?_eq_getElem (by omega)
    -- what is left is a run from the next position
    have hrest : Repeats dataIn (back + 1) (pos + 1) n := by
      refine ⟨by omega, by omega, fun k hk => ?_⟩
      have hk := h.eq (k + 1) (succ_lt_succ hk)
      rwa [add_right_comm, add_right_comm pos]
    rw [copyBytes, readAt_natCast, getElem?_take_of_lt hlt, hfirst, hnext, bind_some,
      take_append_getElem? hnext, ← Int.natCast_succ, ih hrest, add_right_comm]
    rfl

/-- **Copying at once** gives the same. -/
theorem copyBlock_spec (hdisj : back + n ≤ pos) :
    copyBlock n back (dataIn.take pos) = some (dataIn.take (pos + n)) := by
  have hle := h.le
  have hlen : (dataIn.take pos).length = pos := length_take_of_le (by omega)
  rw [copyBlock, if_pos ⟨Int.natCast_nonneg back, by rw [hlen]; exact hdisj⟩, take_add, some.injEq]
  congr 1
  -- byte by byte, the source of the copy is the input from `pos` on
  refine ext_getElem? fun k => ?_
  by_cases hk : k < n
  · rw [getElem?_take_of_lt hk, getElem?_take_of_lt hk, getElem?_drop,
      getElem?_drop, getElem?_take_of_lt (by omega)]
    exact h.eq k hk
  · rw [getElem?_eq_none, getElem?_eq_none]
    · rw [length_take]
      omega
    · rw [length_take]
      omega

theorem copyRun_spec : copyRun n back (dataIn.take pos) = some (dataIn.take (pos + n)) := by
  have hle := h.le
  have hlen : (dataIn.take pos).length = pos := length_take_of_le (by omega)
  rw [copyRun]
  split_ifs with hzero hover
  · rw [hzero, add_zero]
  · exact copyBytes_spec h
  · exact copyBlock_spec h (by omega)

end

/-! ## The two loops -/

/-- The table holds positions up to `pos`. -/
def Bounded (positions : Positions) (pos : ℕ) : Prop :=
  ∀ value, ∃ q ≤ pos, positions value = BitVec.ofNat 16 q

theorem bounded_noPositions : Bounded noPositions 0 := fun _ => ⟨0, le_rfl, rfl⟩

theorem Bounded.update (h : Bounded positions pos) (pos' : ℕ) (hlt : pos < pos') (value : Byte) :
    Bounded (Function.update positions value (ofNat 16 (pos + 1))) pos' := by
  intro v
  by_cases hv : v = value
  · subst hv
    exact ⟨pos + 1, hlt, Function.update_self ..⟩
  · obtain ⟨q, hq, he⟩ := h v
    exact ⟨q, hq.trans hlt.le, (Function.update_of_ne hv ..).trans he⟩

/-- **The two loops follow each other.**  From a position that both have reached with the same
table, the decompressor reads what the compressor writes from there on, and reproduces the input
up to the position where the compressor stops. -/
theorem compressLoop_spec (hlen : dataIn.length ≤ 4096) (dstlen : BitVec 32) (turns outpos : ℕ)
    (hpos : pos ≤ dataIn.length) (hbounded : Bounded positions pos)
    (hturns : dataIn.length < turns + pos) :
    ∃ last out, compressLoop dataIn dstlen turns positions pos outpos = some (last, out) ∧
      pos ≤ last ∧ last ≤ dataIn.length ∧
      ∀ (before : List Byte) (turns' : ℕ), last < turns' + pos →
        decompressLoop (before ++ out) last turns' positions before.length (dataIn.take pos) =
          some (dataIn.take last, (before ++ out).length) := by
  induction turns generalizing pos outpos positions with
  | zero => omega
  | succ turns ih =>
    have htake : (dataIn.take pos).length = pos := length_take_of_le hpos
    rw [compressLoop]
    by_cases hgo : pos < dataIn.length ∧ outpos ≤ (dstlen - 2).toNat
    · -- one pair of bytes, for the run behind the byte at `pos`
      set value := dataIn[pos]
      have hget : dataIn[pos]? = some value := getElem?_eq_getElem hgo.1
      obtain ⟨back, hback, hentry⟩ := hbounded value
      obtain ⟨n, hrun, hn, hrep⟩ := matchRun_spec 256 0
        (lt_succ_of_le hback) hgo.1 (zero_le _) (by omega)
      rw [zero_add] at hrun hn
      have hle := hrep.le
      obtain ⟨last, out, hloop, hfirst, hlast, hfollow⟩ :=
        ih (outpos + 2) hle (hbounded.update (pos + 1 + n) (by omega) value) (by omega)
      have hint : (positions value).toInt = (back : ℤ) := by
        rw [hentry, toInt_ofNat (by omega)]
      refine ⟨last, value :: ofNat 8 n :: out, ?_, by omega, hlast, ?_⟩
      · rw [if_pos hgo, readAt_natCast, hget, bind_some, hint, hrun, bind_some, hloop]
        rfl
      · intro before turns' hturns'
        obtain ⟨turns', rfl⟩ : ∃ t, turns' = t + 1 := ⟨turns' - 1, by omega⟩
        have hread : readAt (before ++ value :: ofNat 8 n :: out) (before.length : ℤ) =
            some value := by
          simp
        have hread' : readAt (before ++ value :: ofNat 8 n :: out)
            ((before.length : ℤ) + 1) = some (ofNat 8 n) := by
          rw [← Int.natCast_succ, readAt_natCast]
          simp
        have hcount : (ofNat 8 n).toNat = n := by
          rw [toNat_ofNat, mod_eq_of_lt (by omega)]
        have hrest := hfollow (before ++ [value, ofNat 8 n]) turns' (by omega)
        rw [append_assoc, length_append] at hrest
        rw [decompressLoop, if_pos (by rw [htake]; omega), hread, bind_some, hread', bind_some,
          take_append_getElem? hget, hcount, hint, copyRun_spec hrep, htake]
        exact hrest
    · refine ⟨pos, [], if_neg hgo, le_rfl, hpos, ?_⟩
      intro before turns' hturns'
      obtain ⟨turns', rfl⟩ : ∃ t, turns' = t + 1 := ⟨turns' - 1, by omega⟩
      rw [decompressLoop, if_neg (by rw [htake]; exact lt_irrefl pos), append_nil]

/-- **Main theorem.** Compression of at most 4096 bytes always returns; and when it returns 0, it
has compressed a part of the input to fewer bytes, and decompression reads all of these and
reproduces that part. -/
theorem rtime_lossless (dataIn : List Byte) (hlen : dataIn.length ≤ 4096) (dstlen : BitVec 32) :
    ∃ r, rtimeCompress dataIn dstlen = some r ∧
      ∀ sourcelen cpageOut, r = .done sourcelen cpageOut →
        sourcelen ≤ dataIn.length ∧ cpageOut.length < sourcelen ∧
          rtimeDecompress cpageOut sourcelen =
            some (dataIn.take sourcelen, cpageOut.length) := by
  obtain ⟨last, out, hloop, -, hlast, hfollow⟩ :=
    compressLoop_spec hlen dstlen (dataIn.length + 1) 0 (zero_le _) bounded_noPositions
    (lt_succ_self _)
  refine ⟨if last ≤ out.length then .failed else .done last out,
    by rw [rtimeCompress, hloop]; rfl, ?_⟩
  intro sourcelen cpageOut hdone
  split_ifs at hdone with hfail
  obtain ⟨rfl, rfl⟩ := Compressed.done.inj hdone
  exact ⟨hlast, not_le.mp hfail, hfollow [] (last + 1) (lt_succ_self _)⟩

/-- Eight equal bytes are compressed to one pair. -/
theorem rtime_lossless_equal :
    rtimeCompress (List.replicate 8 0x61) 8 = some (.done 8 [0x61, 7]) ∧
      ∃ r, rtimeCompress (List.replicate 8 0x61) 8 = some r ∧
        ∀ sourcelen cpageOut, r = .done sourcelen cpageOut →
          sourcelen ≤ (List.replicate 8 0x61#8).length ∧ cpageOut.length < sourcelen ∧
            rtimeDecompress cpageOut sourcelen =
              some ((List.replicate 8 0x61).take sourcelen, cpageOut.length) :=
  ⟨by decide, rtime_lossless (replicate 8 0x61) (by decide) 8⟩

end Gp2xKernel.Rtime
