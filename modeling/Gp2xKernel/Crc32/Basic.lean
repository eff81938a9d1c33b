import Mathlib.Data.BitVec

/-!
# The CRC-32 routines

The checksum of `lib/crc32.c`, in the bit-by-bit form that is compiled with one bit at a time
and in the form with a table of 256 entries, and the generator of the tables from
`lib/gen_crc32table.c`.  A buffer is the list of its bytes together with the address of its
first byte; the machine has one of the two byte orders.

## Main definitions

* `stepLe`, `stepBe`: one bit of the division
* `crc32LeBitwise`, `crc32BeBitwise`: the bit-by-bit loops
* `crc32initLe`, `crc32initBe`: the tables, as the generator fills them
* `crc32Le`, `crc32Be`: the routines that use the tables of 256 entries
* `crc32LeParts`, `crc32BeParts`: the routines that use smaller tables
-/

namespace Gp2xKernel.Crc32

/-! ## One bit at a time -/

/-- `CRCPOLY_LE` -/
def crcPolyLe : BitVec 32 := 0xedb88320#32

/-- `CRCPOLY_BE` -/
def crcPolyBe : BitVec 32 := 0x04c11db7#32

/-- One bit of the division, the least significant bit first. -/
def stepLe (crc : BitVec 32) : BitVec 32 :=
  (crc >>> 1) ^^^ (if crc &&& 1#32 ≠ 0 then crcPolyLe else 0)

/-- One bit of the division, the most significant bit first. -/
def stepBe (crc : BitVec 32) : BitVec 32 :=
  (crc <<< 1) ^^^ (if crc &&& 0x80000000#32 ≠ 0 then crcPolyBe else 0)

/-- `crc32_le` with `CRC_LE_BITS == 1` -/
def crc32LeBitwise (crc : BitVec 32) (p : List (BitVec 8)) : BitVec 32 :=
  p.foldl (fun crc x => stepLe^[8] (crc ^^^ x.setWidth 32)) crc

/-- `crc32_be` with `CRC_BE_BITS == 1` -/
def crc32BeBitwise (crc : BitVec 32) (p : List (BitVec 8)) : BitVec 32 :=
  p.foldl (fun crc x => stepBe^[8] (crc ^^^ (x.setWidth 32 : BitVec 32) <<< 24)) crc

/-! ## The tables -/

/-- The inner loop of the generator: entry `i + j` becomes `crc ^ table[j]`, for each `j` in
turn. -/
def fill (i : ℕ) (crc : BitVec 32) (js : List ℕ) (table : List (BitVec 32)) : List (BitVec 32) :=
  js.foldl (fun table j => table.set (i + j) (crc ^^^ table.getD j 0)) table

/-- The outer loop of `crc32init_le`, with `k` turns to go: `i` is `1 << (k - 1)` in the next
one, and `j` runs through the multiples of `2 * i` below the size of the table. -/
def initLeLoop (bits : ℕ) : ℕ → BitVec 32 → List (BitVec 32) → List (BitVec 32)
  | 0, _, table => table
  | k + 1, crc, table =>
    let i := 1 <<< k
    let crc := stepLe crc
    initLeLoop bits k crc (fill i crc (List.range' 0 ((1 <<< bits) / (2 * i)) (2 * i)) table)

/-- `crc32init_le`, for `CRC_LE_BITS` equal to `bits` -/
def crc32initLe (bits : ℕ) : List (BitVec 32) :=
  initLeLoop bits bits 1 ((List.replicate (1 <<< bits) 0).set 0 0)

/-- The outer loop of `crc32init_be` after `k` turns: `i` is `1 << k` in the next one, and `j`
runs through the numbers below `i`. -/
def initBeLoop (bits : ℕ) : ℕ → BitVec 32 × List (BitVec 32)
  | 0 => (0x80000000#32, (List.replicate (1 <<< bits) 0).set 0 0)
  | k + 1 =>
    let (crc, table) := initBeLoop bits k
    let i := 1 <<< k
    let crc := stepBe crc
    (crc, fill i crc (List.range i) table)

/-- `crc32init_be`, for `CRC_BE_BITS` equal to `bits` -/
def crc32initBe (bits : ℕ) : List (BitVec 32) := (initBeLoop bits bits).2

/-! ## Byte order -/

/-- The byte order of the machine. -/
inductive Endian
  | little
  | big
  deriving DecidableEq, Repr

/-- `___swab32` -/
def swab32 (x : BitVec 32) : BitVec 32 :=
  x <<< 24 ||| x >>> 24 ||| (x &&& 0x0000ff00#32) <<< 8 ||| (x &&& 0x00ff0000#32) >>> 8

/-- `___constant_swab32` -/
def constantSwab32 (x : BitVec 32) : BitVec 32 :=
  (x &&& 0x000000ff#32) <<< 24 ||| (x &&& 0x0000ff00#32) <<< 8 |||
    (x &&& 0x00ff0000#32) >>> 8 ||| (x &&& 0xff000000#32) >>> 24

/-- `__cpu_to_le32`, which is also `__le32_to_cpu` -/
def cpuToLe32 : Endian → BitVec 32 → BitVec 32
  | .little, x => x
  | .big, x => swab32 x

/-- `__cpu_to_be32`, which is also `__be32_to_cpu` -/
def cpuToBe32 : Endian → BitVec 32 → BitVec 32
  | .little, x => swab32 x
  | .big, x => x

/-- `tole`, which the generator writes around each entry of `crc32table_le` -/
def tole : Endian → BitVec 32 → BitVec 32
  | .little, x => x
  | .big, x => constantSwab32 x

/-- `tobe`, which the generator writes around each entry of `crc32table_be` -/
def tobe : Endian → BitVec 32 → BitVec 32
  | .little, x => constantSwab32 x
  | .big, x => x

/-- `crc32table_le` of 256 entries -/
def crc32tableLe (e : Endian) : List (BitVec 32) := (crc32initLe 8).map (tole e)

/-- `crc32table_be` of 256 entries -/
def crc32tableBe (e : Endian) : List (BitVec 32) := (crc32initBe 8).map (tobe e)

/-- The word that the machine loads from four bytes in the order of their addresses. -/
def loadWord : Endian → BitVec 8 → BitVec 8 → BitVec 8 → BitVec 8 → BitVec 32
  | .little, x₀, x₁, x₂, x₃ => x₃ ++ x₂ ++ x₁ ++ x₀
  | .big, x₀, x₁, x₂, x₃ => x₀ ++ x₁ ++ x₂ ++ x₃

/-! ## The table-driven routines -/

/-- `DO_CRC` -/
def doCrc (e : Endian) (tab : List (BitVec 32)) (crc : BitVec 32) (x : BitVec 8) : BitVec 32 :=
  match e with
  | .little => tab.getD ((crc ^^^ x.setWidth 32) &&& 255#32).toNat 0 ^^^ (crc >>> 8)
  | .big => tab.getD ((crc >>> 24 ^^^ x.setWidth 32) &&& 255#32).toNat 0 ^^^ (crc <<< 8)

/-- The loop that takes single bytes until the address is a multiple of four. -/
def alignLoop (e : Endian) (tab : List (BitVec 32)) :
    ℕ → BitVec 32 → List (BitVec 8) → BitVec 32 × List (BitVec 8)
  | _, crc, [] => (crc, [])
  | b, crc, x :: p =>
    if b &&& 3 ≠ 0 then alignLoop e tab (b + 1) (doCrc e tab crc x) p else (crc, x :: p)

/-- The loop that takes `len` words.  The last case does not arise, as there are four bytes for
each word. -/
def wordLoop (e : Endian) (tab : List (BitVec 32)) :
    ℕ → BitVec 32 → List (BitVec 8) → BitVec 32 × List (BitVec 8)
  | 0, crc, p => (crc, p)
  | len + 1, crc, x₀ :: x₁ :: x₂ :: x₃ :: p =>
    let crc := crc ^^^ loadWord e x₀ x₁ x₂ x₃
    let crc := doCrc e tab crc 0
    let crc := doCrc e tab crc 0
    let crc := doCrc e tab crc 0
    let crc := doCrc e tab crc 0
    wordLoop e tab len crc p
  | _ + 1, crc, p => (crc, p)

/-- The part of `crc32_le` and `crc32_be` between the two conversions, which is the same in
both: bytes up to the alignment, words, and the last bytes. -/
def crc32Body (e : Endian) (tab : List (BitVec 32)) (b : ℕ) (crc : BitVec 32)
    (p : List (BitVec 8)) : BitVec 32 :=
  let (crc, p) := alignLoop e tab b crc p
  if p.length ≥ 4 then
    let saveLen := p.length &&& 3
    let (crc, p) := wordLoop e tab (p.length >>> 2) crc p
    (p.take saveLen).foldl (doCrc e tab) crc
  else p.foldl (doCrc e tab) crc

/-- `crc32_le` with `CRC_LE_BITS == 8`, for a buffer at address `b` -/
def crc32Le (e : Endian) (b : ℕ) (crc : BitVec 32) (p : List (BitVec 8)) : BitVec 32 :=
  cpuToLe32 e (crc32Body e (crc32tableLe e) b (cpuToLe32 e crc) p)

/-- `crc32_be` with `CRC_BE_BITS == 8`, for a buffer at address `b` -/
def crc32Be (e : Endian) (b : ℕ) (crc : BitVec 32) (p : List (BitVec 8)) : BitVec 32 :=
  cpuToBe32 e (crc32Body e (crc32tableBe e) b (cpuToBe32 e crc) p)

/-- One look-up of `crc32_le` in a table for `bits` bits. -/
def partLe (bits : ℕ) (crc : BitVec 32) : BitVec 32 :=
  (crc >>> bits) ^^^ (crc32initLe bits).getD (crc &&& BitVec.ofNat 32 (2 ^ bits - 1)).toNat 0

/-- One look-up of `crc32_be` in a table for `bits` bits. -/
def partBe (bits : ℕ) (crc : BitVec 32) : BitVec 32 :=
  (crc <<< bits) ^^^ (crc32initBe bits).getD (crc >>> (32 - bits)).toNat 0

/-- `crc32_le` with `CRC_LE_BITS` equal to `bits`, which is 4 or 2: as many look-ups for a byte as
it has parts of `bits` bits. -/
def crc32LeParts (bits : ℕ) (crc : BitVec 32) (p : List (BitVec 8)) : BitVec 32 :=
  p.foldl (fun crc x => (partLe bits)^[8 / bits] (crc ^^^ x.setWidth 32)) crc

/-- `crc32_be` with `CRC_BE_BITS` equal to `bits`, which is 4 or 2, if `tobe` does not swap. -/
def crc32BeParts (bits : ℕ) (crc : BitVec 32) (p : List (BitVec 8)) : BitVec 32 :=
  p.foldl (fun crc x => (partBe bits)^[8 / bits] (crc ^^^ (x.setWidth 32 : BitVec 32) <<< 24)) crc

/-- `store_le` of the unit test: the order in which `crc32_le` has its checksum sent -/
def storeLe (x : BitVec 32) : List (BitVec 8) :=
  [x.setWidth 8, (x >>> 8).setWidth 8, (x >>> 16).setWidth 8, (x >>> 24).setWidth 8]

/-- `store_be` of the unit test: the order in which `crc32_be` has its checksum sent -/
def storeBe (x : BitVec 32) : List (BitVec 8) :=
  [(x >>> 24).setWidth 8, (x >>> 16).setWidth 8, (x >>> 8).setWidth 8, x.setWidth 8]

end Gp2xKernel.Crc32
