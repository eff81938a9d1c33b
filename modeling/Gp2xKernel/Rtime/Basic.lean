import Mathlib.Data.BitVec

/-!
# The rtime compressor of JFFS2

The compressor writes pairs of bytes: one byte verbatim, and the number of bytes that follow it
and that also followed its last occurrence.  Both sides keep a table of the position behind the
last occurrence of each byte value; the table is of type `short`, so a position is stored in 16
bits and read back as a signed number.

A read outside of a buffer makes the model fail.

## Main definitions

* `rtimeCompress`: `jffs2_rtime_compress`
* `rtimeDecompress`: `jffs2_rtime_decompress`
-/

namespace Gp2xKernel.Rtime

/-- The bytes of the buffers. -/
abbrev Byte := BitVec 8

/-- `short positions[256]` -/
abbrev Positions := Byte → BitVec 16

/-- The table after `memset(positions, 0, sizeof(positions))`. -/
def noPositions : Positions := fun _ => 0

/-- Read a buffer at an index that may be negative. -/
def readAt (buf : List Byte) (i : ℤ) : Option Byte := if 0 ≤ i then buf[i.toNat]? else none

/-! ## Compression -/

/-- The inner loop of `jffs2_rtime_compress`: the position and the length of the run.  The loop
ends after 255 bytes at the latest. -/
def matchRun (dataIn : List Byte) :
    (turns : ℕ) → (backpos : ℤ) → (pos runlen : ℕ) → Option (ℕ × ℕ)
  | 0, _, _, _ => none
  | turns + 1, backpos, pos, runlen =>
    if backpos < pos ∧ pos < dataIn.length then
      (readAt dataIn pos).bind fun next => (readAt dataIn backpos).bind fun back =>
        if next = back ∧ runlen < 255 then
          matchRun dataIn turns (backpos + 1) (pos + 1) (runlen + 1)
        else some (pos, runlen)
    else some (pos, runlen)

/-- The outer loop of `jffs2_rtime_compress`: the final position, and the bytes written from
`outpos` on. -/
def compressLoop (dataIn : List Byte) (dstlen : BitVec 32) :
    (turns : ℕ) → Positions → (pos outpos : ℕ) → Option (ℕ × List Byte)
  | 0, _, _, _ => none
  | turns + 1, positions, pos, outpos =>
    if pos < dataIn.length ∧ outpos ≤ (dstlen - 2).toNat then
      (readAt dataIn pos).bind fun value =>
        (matchRun dataIn 256 (positions value).toInt (pos + 1) 0).bind fun run =>
          (compressLoop dataIn dstlen turns
            (Function.update positions value (BitVec.ofNat 16 (pos + 1))) run.1 (outpos + 2)).map
              fun rest => (rest.1, value :: BitVec.ofNat 8 run.2 :: rest.2)
    else some (pos, [])

/-- What `jffs2_rtime_compress` returns: -1, or 0 with the number of bytes compressed and the
output. -/
inductive Compressed
  | failed
  | done (sourcelen : ℕ) (cpageOut : List Byte)
  deriving DecidableEq, Repr

/-- `jffs2_rtime_compress` -/
def rtimeCompress (dataIn : List Byte) (dstlen : BitVec 32) : Option Compressed :=
  (compressLoop dataIn dstlen (dataIn.length + 1) noPositions 0 0).map fun r =>
    if r.1 ≤ r.2.length then .failed else .done r.1 r.2

/-! ## Decompression -/

/-- The copy byte by byte, which may read what it has written. -/
def copyBytes : (repeat' : ℕ) → (backoffs : ℤ) → List Byte → Option (List Byte)
  | 0, _, out => some out
  | repeat' + 1, backoffs, out =>
    (readAt out backoffs).bind fun b => copyBytes repeat' (backoffs + 1) (out ++ [b])

/-- `memcpy` from earlier output to its end. -/
def copyBlock (repeat' : ℕ) (backoffs : ℤ) (out : List Byte) : Option (List Byte) :=
  if 0 ≤ backoffs ∧ backoffs.toNat + repeat' ≤ out.length then
    some (out ++ (out.drop backoffs.toNat).take repeat')
  else none

/-- One turn of `jffs2_rtime_decompress` after the verbatim byte has been written to `out`. -/
def copyRun (repeat' : ℕ) (backoffs : ℤ) (out : List Byte) : Option (List Byte) :=
  if repeat' = 0 then some out
  else if backoffs + repeat' ≥ out.length then copyBytes repeat' backoffs out
  else copyBlock repeat' backoffs out

/-- The loop of `jffs2_rtime_decompress`: the output, and the number of bytes read.  Every turn
writes a byte. -/
def decompressLoop (dataIn : List Byte) (destlen : ℕ) :
    (turns : ℕ) → Positions → (pos : ℕ) → (out : List Byte) → Option (List Byte × ℕ)
  | 0, _, _, _ => none
  | turns + 1, positions, pos, out =>
    if out.length < destlen then
      (readAt dataIn pos).bind fun value => (readAt dataIn (pos + 1)).bind fun repeat' =>
        (copyRun repeat'.toNat (positions value).toInt (out ++ [value])).bind fun out' =>
          decompressLoop dataIn destlen turns
            (Function.update positions value (BitVec.ofNat 16 (out.length + 1))) (pos + 2) out'
    else some (out, pos)

/-- `jffs2_rtime_decompress` -/
def rtimeDecompress (dataIn : List Byte) (destlen : ℕ) : Option (List Byte × ℕ) :=
  decompressLoop dataIn destlen (destlen + 1) noPositions 0 []

end Gp2xKernel.Rtime
