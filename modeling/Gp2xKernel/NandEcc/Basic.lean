import Mathlib.Data.BitVec
import Mathlib.Data.Fin.VecNotation

/-!
# Error correction for NAND flash

A block of 256 bytes is stored with three bytes of code.  The code holds the parities of the
columns (the bits of the bytes) and of the lines (the bytes), each together with the parity of its
complement.  On reading, the code is calculated again; where the two codes differ, the difference
tells the position of a single flipped bit.

## Main definitions

* `nandCalculateEcc`: `nand_calculate_ecc`
* `syndrome`: the difference of the two codes
* `nandCorrectData`: `nand_correct_data`

The option `CONFIG_MTD_NAND_ECC_SMC` swaps the first two bytes of the code; it is the parameter
`smc`.
-/

namespace Gp2xKernel.NandEcc

/-- A block of data. -/
abbrev Block := Fin 256 → BitVec 8

/-- The code of a block. -/
abbrev Code := Fin 3 → BitVec 8

set_option maxRecDepth 2000 in
def nandEccPrecalcTable : List (BitVec 8) := [
  0x00, 0x55, 0x56, 0x03, 0x59, 0x0c, 0x0f, 0x5a, 0x5a, 0x0f, 0x0c, 0x59, 0x03, 0x56, 0x55, 0x00,
  0x65, 0x30, 0x33, 0x66, 0x3c, 0x69, 0x6a, 0x3f, 0x3f, 0x6a, 0x69, 0x3c, 0x66, 0x33, 0x30, 0x65,
  0x66, 0x33, 0x30, 0x65, 0x3f, 0x6a, 0x69, 0x3c, 0x3c, 0x69, 0x6a, 0x3f, 0x65, 0x30, 0x33, 0x66,
  0x03, 0x56, 0x55, 0x00, 0x5a, 0x0f, 0x0c, 0x59, 0x59, 0x0c, 0x0f, 0x5a, 0x00, 0x55, 0x56, 0x03,
  0x69, 0x3c, 0x3f, 0x6a, 0x30, 0x65, 0x66, 0x33, 0x33, 0x66, 0x65, 0x30, 0x6a, 0x3f, 0x3c, 0x69,
  0x0c, 0x59, 0x5a, 0x0f, 0x55, 0x00, 0x03, 0x56, 0x56, 0x03, 0x00, 0x55, 0x0f, 0x5a, 0x59, 0x0c,
  0x0f, 0x5a, 0x59, 0x0c, 0x56, 0x03, 0x00, 0x55, 0x55, 0x00, 0x03, 0x56, 0x0c, 0x59, 0x5a, 0x0f,
  0x6a, 0x3f, 0x3c, 0x69, 0x33, 0x66, 0x65, 0x30, 0x30, 0x65, 0x66, 0x33, 0x69, 0x3c, 0x3f, 0x6a,
  0x6a, 0x3f, 0x3c, 0x69, 0x33, 0x66, 0x65, 0x30, 0x30, 0x65, 0x66, 0x33, 0x69, 0x3c, 0x3f, 0x6a,
  0x0f, 0x5a, 0x59, 0x0c, 0x56, 0x03, 0x00, 0x55, 0x55, 0x00, 0x03, 0x56, 0x0c, 0x59, 0x5a, 0x0f,
  0x0c, 0x59, 0x5a, 0x0f, 0x55, 0x00, 0x03, 0x56, 0x56, 0x03, 0x00, 0x55, 0x0f, 0x5a, 0x59, 0x0c,
  0x69, 0x3c, 0x3f, 0x6a, 0x30, 0x65, 0x66, 0x33, 0x33, 0x66, 0x65, 0x30, 0x6a, 0x3f, 0x3c, 0x69,
  0x03, 0x56, 0x55, 0x00, 0x5a, 0x0f, 0x0c, 0x59, 0x59, 0x0c, 0x0f, 0x5a, 0x00, 0x55, 0x56, 0x03,
  0x66, 0x33, 0x30, 0x65, 0x3f, 0x6a, 0x69, 0x3c, 0x3c, 0x69, 0x6a, 0x3f, 0x65, 0x30, 0x33, 0x66,
  0x65, 0x30, 0x33, 0x66, 0x3c, 0x69, 0x6a, 0x3f, 0x3f, 0x6a, 0x69, 0x3c, 0x66, 0x33, 0x30, 0x65,
  0x00, 0x55, 0x56, 0x03, 0x59, 0x0c, 0x0f, 0x5a, 0x5a, 0x0f, 0x0c, 0x59, 0x03, 0x56, 0x55, 0x00]

/-- The entry of the table for a byte. -/
def precalc (x : BitVec 8) : BitVec 8 := nandEccPrecalcTable.getD x.toNat 0

/-! ## The code -/

/-- The registers of `nand_calculate_ecc`. -/
structure Regs where
  reg1 : BitVec 8
  reg2 : BitVec 8
  reg3 : BitVec 8
  deriving DecidableEq, Repr

/-- One turn of the loop over the block, for the byte `x` with number `i`. -/
def column (r : Regs) (x : BitVec 8) (i : Fin 256) : Regs where
  reg1 := r.reg1 ^^^ (precalc x &&& 0x3f#8)
  reg2 := if precalc x &&& 0x40#8 ≠ 0 then r.reg2 ^^^ ~~~BitVec.ofNat 8 i else r.reg2
  reg3 := if precalc x &&& 0x40#8 ≠ 0 then r.reg3 ^^^ BitVec.ofNat 8 i else r.reg3

/-- The registers after the loop. -/
def registers (dat : Block) : Regs :=
  (List.finRange 256).foldl (fun r i => column r (dat i) i) ⟨0, 0, 0⟩

/-- `tmp1`: the upper halves of the line parities, interleaved. -/
def upperLines (reg3 reg2 : BitVec 8) : BitVec 8 :=
  (reg3 &&& 0x80#8) >>> 0 ||| (reg2 &&& 0x80#8) >>> 1 |||
    (reg3 &&& 0x40#8) >>> 1 ||| (reg2 &&& 0x40#8) >>> 2 |||
    (reg3 &&& 0x20#8) >>> 2 ||| (reg2 &&& 0x20#8) >>> 3 |||
    (reg3 &&& 0x10#8) >>> 3 ||| (reg2 &&& 0x10#8) >>> 4

/-- `tmp2`: the lower halves of the line parities, interleaved. -/
def lowerLines (reg3 reg2 : BitVec 8) : BitVec 8 :=
  (reg3 &&& 0x08#8) <<< 4 ||| (reg2 &&& 0x08#8) <<< 3 |||
    (reg3 &&& 0x04#8) <<< 3 ||| (reg2 &&& 0x04#8) <<< 2 |||
    (reg3 &&& 0x02#8) <<< 2 ||| (reg2 &&& 0x02#8) <<< 1 |||
    (reg3 &&& 0x01#8) <<< 1 ||| (reg2 &&& 0x01#8) <<< 0

/-- The code that the registers give. -/
def finalCode (smc : Bool) (r : Regs) : Code :=
  let tmp1 := upperLines r.reg3 r.reg2
  let tmp2 := lowerLines r.reg3 r.reg2
  ![if smc then ~~~tmp2 else ~~~tmp1, if smc then ~~~tmp1 else ~~~tmp2,
    (~~~r.reg1) <<< 2 ||| 0x03#8]

def nandCalculateEcc (smc : Bool) (dat : Block) : Code := finalCode smc (registers dat)

/-! ## Correction -/

/-- The locals `s0`, `s1` and `s2` of `nand_correct_data`. -/
structure Syndrome where
  s0 : BitVec 8
  s1 : BitVec 8
  s2 : BitVec 8
  deriving DecidableEq, Repr

/-- The difference of the two codes. -/
def syndrome (smc : Bool) (readEcc calcEcc : Code) : Syndrome where
  s0 := if smc then calcEcc 0 ^^^ readEcc 0 else calcEcc 1 ^^^ readEcc 1
  s1 := if smc then calcEcc 1 ^^^ readEcc 1 else calcEcc 0 ^^^ readEcc 0
  s2 := calcEcc 2 ^^^ readEcc 2

/-- The check for a single bit error: one of each pair of parities differs. -/
def singleBit (s : Syndrome) : Bool :=
  (s.s0 ^^^ s.s0 >>> 1) &&& 0x55#8 = 0x55#8 && (s.s1 ^^^ s.s1 >>> 1) &&& 0x55#8 = 0x55#8 &&
    (s.s2 ^^^ s.s2 >>> 1) &&& 0x54#8 = 0x54#8

/-- `byteoffs`, eight bits of a 32-bit word -/
def byteoffs (s0 s1 : BitVec 8) : BitVec 8 :=
  (s1 <<< 0) &&& 0x80#8 ||| (s1 <<< 1) &&& 0x40#8 ||| (s1 <<< 2) &&& 0x20#8 |||
  (s1 <<< 3) &&& 0x10#8 |||
    (s0 >>> 4) &&& 0x08#8 ||| (s0 >>> 3) &&& 0x04#8 ||| (s0 >>> 2) &&& 0x02#8 |||
    (s0 >>> 1) &&& 0x01#8

def bitnum (s2 : BitVec 8) : BitVec 8 :=
  (s2 >>> 5) &&& 0x04#8 ||| (s2 >>> 4) &&& 0x02#8 ||| (s2 >>> 3) &&& 0x01#8

/-- Flip the bit `j` of the byte `i`. -/
def flipBit (dat : Block) (i : Fin 256) (j : ℕ) : Block :=
  Function.update dat i (dat i ^^^ 1#8 <<< j)

/-- The loop of `countbits`; after as many shifts as the word has bits it is 0. -/
def countbitsLoop : (turns : ℕ) → BitVec 32 → (res : ℕ) → ℕ
  | 0, _, res => res
  | turns + 1, byte, res =>
    if byte = 0 then res else countbitsLoop turns (byte >>> 1) (res + (byte &&& 0x01#32).toNat)

def countbits (byte : BitVec 32) : ℕ := countbitsLoop 32 byte 0

/-- `s0 | ((uint32_t)s1 << 8) | ((uint32_t)s2 <<16)` -/
def syndromeWord (s : Syndrome) : BitVec 32 :=
  s.s0.setWidth 32 ||| s.s1.setWidth 32 <<< 8 ||| s.s2.setWidth 32 <<< 16

def EBADMSG : ℤ := 74

/-- `nand_correct_data` after the syndrome has been formed: the return value and the block. -/
def correctFrom (s : Syndrome) (dat : Block) : ℤ × Block :=
  if s.s0 ||| s.s1 ||| s.s2 = 0 then (0, dat)
  else if singleBit s then (1, flipBit dat (byteoffs s.s0 s.s1).toFin (bitnum s.s2).toNat)
  else if countbits (syndromeWord s) = 1 then (1, dat)
  else (-EBADMSG, dat)

def nandCorrectData (smc : Bool) (dat : Block) (readEcc calcEcc : Code) : ℤ × Block :=
  correctFrom (syndrome smc readEcc calcEcc) dat

end Gp2xKernel.NandEcc
