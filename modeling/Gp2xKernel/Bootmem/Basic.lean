import Mathlib.Data.BitVec

/-!
# The boot memory allocator

`mm/bootmem.c`: the memory of a node, with one bit for each of its pages, which is set if the page
is reserved.  The allocator hands out runs of free pages, and remembers where in a page the last
allocation ended, so that the next one can use the rest of that page.

Numbers of type `unsigned long` are below `2 ^ bits`, and sums and differences wrap.  An address is
a physical one: `phys_to_virt` adds a constant.

## Main definitions

* `Config`: the sizes of words and pages
* `Bdata`: the state of a node
* `reserveBootmemCore`, `freeBootmemCore`, `allocBootmemCore`: the operations
-/

namespace Gp2xKernel.Bootmem

/-- The number of bits of an `unsigned long`, and `PAGE_SHIFT`. -/
structure Config where
  bits : ℕ
  pageShift : ℕ
  pos : 0 < pageShift
  lt : pageShift < bits

namespace Config

variable (c : Config)

/-- A sum of type `unsigned long`. -/
def word (x : ℕ) : ℕ := x % 2 ^ c.bits

/-- A difference of type `unsigned long`. -/
def sub (x y : ℕ) : ℕ := c.word (x + 2 ^ c.bits - y)

/-- `PAGE_SIZE` -/
def pageSize : ℕ := 2 ^ c.pageShift

/-- `PFN_UP` -/
def pfnUp (x : ℕ) : ℕ := c.word (x + c.pageSize - 1) / c.pageSize

/-- `PFN_DOWN` -/
def pfnDown (x : ℕ) : ℕ := x / c.pageSize

/-- `PFN_PHYS` -/
def pfnPhys (x : ℕ) : ℕ := c.word (x * c.pageSize)

/-- `ALIGN`, where `a` is a power of two. -/
def align (x a : ℕ) : ℕ := c.word (x + a - 1) / a * a

end Config

/-- `bootmem_data_t`.  Nodes without memory have no map. -/
structure Bdata where
  nodeBootStart : ℕ
  nodeLowPfn : ℕ
  hasMap : Bool
  nodeBootmemMap : ℕ → Bool
  lastOffset : ℕ
  lastPos : ℕ
  lastSuccess : ℕ

variable (c : Config)

/-! ## Loops over bits -/

/-- `n` bits from bit `i` on are set. -/
def setBits (map : ℕ → Bool) : ℕ → ℕ → ℕ → Bool
  | 0, _ => map
  | n + 1, i => setBits (Function.update map i true) n (i + 1)

/-- `n` bits from bit `i` on are set; that one of them was set is a bug. -/
def claimBits (map : ℕ → Bool) : ℕ → ℕ → Option (ℕ → Bool)
  | 0, _ => some map
  | n + 1, i => if map i then none else claimBits (Function.update map i true) n (i + 1)

/-- `n` bits from bit `i` on are cleared; that one of them was clear is a bug. -/
def clearBits (map : ℕ → Bool) : ℕ → ℕ → Option (ℕ → Bool)
  | 0, _ => some map
  | n + 1, i => if map i then clearBits (Function.update map i false) n (i + 1) else none

/-- The first of `n` bits from bit `i` on that is clear, or else the bit behind them. -/
def nextZeroBit (map : ℕ → Bool) : ℕ → ℕ → ℕ
  | 0, i => i
  | n + 1, i => if map i then nextZeroBit map n (i + 1) else i

def findNextZeroBit (map : ℕ → Bool) (size offset : ℕ) : ℕ :=
  if offset ≥ size then size else nextZeroBit map (size - offset) offset

/-! ## Reservation and release -/

def reserveBootmemCore (bdata : Bdata) (addr size : ℕ) : Option Bdata :=
  if size = 0 then none
  else if c.pfnDown addr ≥ bdata.nodeLowPfn then none
  else if c.pfnUp (c.word (addr + size)) > bdata.nodeLowPfn then none
  else
    let sidx := c.pfnDown (c.sub addr bdata.nodeBootStart)
    let eidx := c.pfnUp (c.sub (c.word (addr + size)) bdata.nodeBootStart)
    some { bdata with nodeBootmemMap := setBits bdata.nodeBootmemMap (eidx - sidx) sidx }

def freeBootmemCore (bdata : Bdata) (addr size : ℕ) : Option Bdata :=
  if size = 0 then none
  else if c.pfnDown (c.word (addr + size)) > bdata.nodeLowPfn then none
  else
    let bdata := if addr < bdata.lastSuccess then { bdata with lastSuccess := addr } else bdata
    let sidx := c.sub (c.pfnUp addr) (c.pfnDown bdata.nodeBootStart)
    let eidx := c.pfnDown (c.sub (c.word (addr + size)) bdata.nodeBootStart)
    (clearBits bdata.nodeBootmemMap (eidx - sidx) sidx).map fun map =>
      { bdata with nodeBootmemMap := map }

/-! ## Allocation -/

/-- The inner loop of the scan: the first of `n` pages from page `j` on that is not free, or is not
below `eidx`. -/
def failBlock (map : ℕ → Bool) (eidx : ℕ) : ℕ → ℕ → Option ℕ
  | 0, _ => none
  | n + 1, j => if j ≥ eidx ∨ map j = true then some j else failBlock map eidx n (j + 1)

/-- The scan from page `i` on for `areasize` free pages. -/
def scan (map : ℕ → Bool) (eidx incr areasize turns i : ℕ) : Option (Option ℕ) :=
  if i < eidx then
    match turns with
    | 0 => none
    | turns + 1 =>
      let i := c.align (findNextZeroBit map eidx i) incr
      if i ≥ eidx then some none
      else if map i then scan map eidx incr areasize turns (c.word (i + incr))
      else
        match failBlock map eidx (areasize - 1) (i + 1) with
        | none => some (some i)
        | some j => scan map eidx incr areasize turns (c.word (c.align j incr + incr))
  else some none

/-- The page at which the scan starts, and where it starts again. -/
def preferred (bdata : Bdata) (align goal limit endPfn offset : ℕ) : ℕ :=
  let preferred :=
    if goal ≠ 0 ∧ goal ≥ bdata.nodeBootStart ∧ c.pfnDown goal < endPfn then
      let preferred := c.sub goal bdata.nodeBootStart
      if bdata.lastSuccess ≥ preferred ∧ (limit = 0 ∨ limit > bdata.lastSuccess) then
        bdata.lastSuccess
      else preferred
    else 0
  c.word (c.pfnDown (c.align preferred align) + offset)

/-- `offset`: how many pages there are from the start of the node to the first aligned address. -/
def startOffset (bdata : Bdata) (align : ℕ) : ℕ :=
  c.pfnDown (if align ≠ 0 ∧ bdata.nodeBootStart % align ≠ 0 then
    align - bdata.nodeBootStart % align else 0)

/-- The allocation at page `start`, as far as it is known before the area is reserved: the address,
the state of the node, and how many pages are to be reserved. -/
def place (bdata : Bdata) (start size align areasize : ℕ) : Option (ℕ × Bdata × ℕ) :=
  if align < c.pageSize ∧ bdata.lastOffset ≠ 0 ∧ c.word (bdata.lastPos + 1) = start then
    let offset := c.align bdata.lastOffset align
    let ret := c.word (bdata.lastPos * c.pageSize + offset + bdata.nodeBootStart)
    if offset > c.pageSize then none
    else if size < c.pageSize - offset then
      some (ret, { bdata with lastOffset := c.word (offset + size) % c.pageSize }, 0)
    else
      let remainingSize := size - (c.pageSize - offset)
      let areasize := c.word (remainingSize + c.pageSize - 1) / c.pageSize
      some (ret, { bdata with
        lastPos := c.sub (c.word (start + areasize)) 1
        lastOffset := remainingSize % c.pageSize }, areasize)
  else
    some (c.word (start * c.pageSize + bdata.nodeBootStart), { bdata with
      lastPos := c.sub (c.word (start + areasize)) 1
      lastOffset := size % c.pageSize }, areasize)

/-- What `__alloc_bootmem_core` does from `found` on. -/
def found (bdata : Bdata) (start size align areasize : ℕ) : Option (ℕ × Bdata) := do
  let out ← place c { bdata with lastSuccess := c.pfnPhys start } start size align areasize
  let map ← claimBits out.2.1.nodeBootmemMap out.2.2 start
  some (out.1, { out.2.1 with nodeBootmemMap := map })

/-- The scan from page `preferred` on, and then from page `offset` on. -/
def search (map : ℕ → Bool) (eidx incr areasize turns preferred offset : ℕ) : Option (Option ℕ) :=
  (scan c map eidx incr areasize turns preferred).bind fun start =>
    if start.isNone ∧ preferred > offset then scan c map eidx incr areasize turns offset
    else some start

/-- What `__alloc_bootmem_core` does after the search. -/
def finish (bdata : Bdata) (size align areasize : ℕ) : Option ℕ → Option (Option ℕ × Bdata)
  | none => some (none, bdata)
  | some start => (found c bdata start size align areasize).map fun out => (some out.1, out.2)

/-- `__alloc_bootmem_core` -/
def allocBootmemCore (turns : ℕ) (bdata : Bdata) (size align goal limit : ℕ) :
    Option (Option ℕ × Bdata) :=
  if size = 0 then none
  else if align &&& (align - 1) ≠ 0 then none
  else if limit ≠ 0 ∧ bdata.nodeBootStart ≥ limit then some (none, bdata)
  else if bdata.hasMap = false then some (none, bdata)
  else
    let limit := c.pfnDown limit
    let endPfn := if limit ≠ 0 ∧ bdata.nodeLowPfn > limit then limit else bdata.nodeLowPfn
    let eidx := c.sub endPfn (c.pfnDown bdata.nodeBootStart)
    let offset := startOffset c bdata align
    let preferred := preferred c bdata align goal limit endPfn offset
    let areasize := c.word (size + c.pageSize - 1) / c.pageSize
    let incr := if align / c.pageSize ≠ 0 then align / c.pageSize else 1
    (search c bdata.nodeBootmemMap eidx incr areasize turns preferred offset).bind
      (finish c bdata size align areasize)

end Gp2xKernel.Bootmem
