import Mathlib.Data.BitVec
import Mathlib.Data.Int.Interval

/-!
# The SLOB allocator

`mm/slob.c`: pages with lists of free blocks, which are kept in the free units themselves.  A block
of more than one unit has its size in its first unit, and the offset of the next block in its
second; a block of one unit has that offset, negated.

A pointer to a unit is the number of the unit; the units of page `pg` are those from `pg *
pageUnits` on, and the pointer to the end of a page is that to the start of the next.

## Main definitions

* `Config`: the size of pages, and what follows from it
* `setSlob`, `slobUnits`, `slobNext`, `slobLast`: the encoding of free blocks
* `slobPageAlloc`, `slobAlloc`, `slobFree`: allocation and release
-/

namespace Gp2xKernel.Slob

/-- The size of pages, `1 << PAGE_SHIFT`. -/
structure Config where
  pageShift : ℕ
  two_le : 2 ≤ pageShift
  le : pageShift ≤ 32

namespace Config

variable (c : Config)

/-- `PAGE_SIZE` -/
def pageSize : ℕ := 2 ^ c.pageShift

/-- `SLOB_UNIT`: the size of `slobidx_t`, which is `s16` or `s32`. -/
def slobUnit : ℕ := if c.pageSize ≤ 32767 * 2 then 2 else 4

/-- A value of type `slobidx_t`. -/
def slobidx (x : ℤ) : ℤ := x.bmod (2 ^ (8 * c.slobUnit))

/-- `SLOB_UNITS` -/
def slobUnits (size : ℕ) : ℕ := (size + c.slobUnit - 1) / c.slobUnit

/-- `SLOB_UNITS(PAGE_SIZE)` -/
def pageUnits : ℕ := c.slobUnits c.pageSize

/-- The first unit of the page of a unit: `(unsigned long)s & PAGE_MASK`. -/
def base (s : ℕ) : ℕ := s / c.pageUnits * c.pageUnits

/-- `ALIGN((unsigned long)cur, align)`, as a pointer to a unit. -/
def alignUnit (cur align : ℕ) : ℕ :=
  (cur * c.slobUnit + align - 1) / align * align / c.slobUnit

end Config

/-- `struct slob_page`: whether it is a page of the allocator (`PG_active`), whether it is on the
list (`PG_private`), how many units are free, and the first free block. -/
structure SlobPage where
  slob : Bool
  onList : Bool
  units : ℤ
  free : ℕ

/-- The units of memory, the pages, and the list `free_slob_pages`. -/
structure Heap where
  mem : ℕ → ℤ
  pages : ℕ → SlobPage
  freeSlobPages : List ℕ

variable (c : Config)

/-! ## The encoding -/

def setSlob (mem : ℕ → ℤ) (s : ℕ) (size : ℤ) (next : ℕ) : ℕ → ℤ :=
  let offset := c.slobidx ((next : ℤ) - c.base s)
  if size > 1 then Function.update (Function.update mem s (c.slobidx size)) (s + 1) offset
  else Function.update mem s (c.slobidx (-offset))

def slobUnits (mem : ℕ → ℤ) (s : ℕ) : ℤ := if mem s > 0 then mem s else 1

def slobNext (mem : ℕ → ℤ) (s : ℕ) : ℕ :=
  let next := if mem s < 0 then -mem s else mem (s + 1)
  ((c.base s : ℤ) + next).toNat

def slobLast (mem : ℕ → ℤ) (s : ℕ) : Bool := slobNext c mem s % c.pageUnits == 0

/-! ## Pages -/

/-- Assignment to the record of a page. -/
def Heap.setPage (h : Heap) (pg : ℕ) (p : SlobPage) : Heap :=
  { h with pages := Function.update h.pages pg p }

@[simp] theorem Heap.setPage_self (h : Heap) (pg : ℕ) (p : SlobPage) :
    (h.setPage pg p).pages pg = p :=
  Function.update_self ..

theorem Heap.setPage_of_ne (h : Heap) {pg pg' : ℕ} (p : SlobPage) (hne : pg' ≠ pg) :
    (h.setPage pg p).pages pg' = h.pages pg' :=
  Function.update_of_ne hne _ _

def setSlobPageFree (h : Heap) (pg : ℕ) : Heap :=
  { h.setPage pg { h.pages pg with onList := true } with freeSlobPages := pg :: h.freeSlobPages }

def clearSlobPageFree (h : Heap) (pg : ℕ) : Heap :=
  { h.setPage pg { h.pages pg with onList := false } with
    freeSlobPages := h.freeSlobPages.erase pg }

/-! ## Allocation -/

/-- The link to a block, in the block before it or in the page. -/
def Heap.link (h : Heap) (pg : ℕ) (prev : Option ℕ) (target : ℕ) : Heap :=
  match prev with
  | some p => { h with mem := setSlob c h.mem p (slobUnits h.mem p) target }
  | none => h.setPage pg { h.pages pg with free := target }

/-- The head of a block is split off: the first branch in `slob_page_alloc`. -/
def fragmentHead (mem : ℕ → ℤ) (cur delta : ℕ) : ℕ → ℤ :=
  setSlob c (setSlob c mem (cur + delta) (slobUnits mem cur - delta) (slobNext c mem cur))
    cur delta (cur + delta)

/-- The block `cur` leaves the list of free blocks, or what is left of it takes its place. -/
def unlinkFront (h : Heap) (pg : ℕ) (prev : Option ℕ) (cur units : ℕ) : Heap :=
  let avail := slobUnits h.mem cur
  let next := slobNext c h.mem cur
  if avail = units then h.link c pg prev next
  else
    let h := h.link c pg prev (cur + units)
    { h with mem := setSlob c h.mem (cur + units) (avail - units) next }

/-- The free units of the page are counted down; a page without free units leaves the list. -/
def useUnits (h : Heap) (pg units : ℕ) : Heap :=
  let h := h.setPage pg
    { h.pages pg with units := c.slobidx ((h.pages pg).units - units) }
  if (h.pages pg).units = 0 then clearSlobPageFree h pg else h

/-- The first units of the block `cur` are taken. -/
def takeFront (h : Heap) (pg : ℕ) (prev : Option ℕ) (cur units : ℕ) : Heap :=
  useUnits c (unlinkFront c h pg prev cur units) pg units

/-- `delta` in `slob_page_alloc`. -/
def waste (cur align : ℕ) : ℕ := if align ≠ 0 then c.alignUnit cur align - cur else 0

/-- The loop of `slob_page_alloc`. -/
def pageAllocLoop (h : Heap) (pg units align turns : ℕ) (prev : Option ℕ) (cur : ℕ) :
    Option (Option ℕ × Heap) :=
  match turns with
  | 0 => none
  | turns + 1 =>
    let delta := waste c cur align
    if slobUnits h.mem cur ≥ units + delta then
      if delta ≠ 0 then
        some (some (cur + delta), takeFront c { h with mem := fragmentHead c h.mem cur delta } pg
          (some cur) (cur + delta) units)
      else some (some cur, takeFront c h pg prev cur units)
    else if slobLast c h.mem cur then some (none, h)
    else pageAllocLoop h pg units align turns (some cur) (slobNext c h.mem cur)

def slobPageAlloc (turns : ℕ) (h : Heap) (pg size align : ℕ) : Option (Option ℕ × Heap) :=
  pageAllocLoop c h pg (c.slobUnits size) align turns none (h.pages pg).free

/-- The search of `slob_alloc` through the pages on the list: the block, and the heap after it was
taken; also the page it is in.  `onNode` tells the pages that the caller can use. -/
def searchPages (turns : ℕ) (h : Heap) (onNode : ℕ → Bool) (size align : ℕ) :
    List ℕ → Option (Option (ℕ × ℕ) × Heap)
  | [] => some (none, h)
  | pg :: pgs =>
    if onNode pg = false then searchPages turns h onNode size align pgs
    else if (h.pages pg).units < c.slobUnits size then searchPages turns h onNode size align pgs
    else do
      let out ← slobPageAlloc c turns h pg size align
      match out.1 with
      | some b => some (some (b, pg), out.2)
      | none => searchPages turns h onNode size align pgs

/-- `list_move_tail(&free_slob_pages, prev->next)`: the next search starts at place `i`, unless that
is where it starts or ends. -/
def startAt (pgs : List ℕ) (i : ℕ) : List ℕ :=
  if i ≠ pgs.length ∧ i ≠ 0 then pgs.drop i ++ pgs.take i else pgs

/-- The new page in `slob_alloc`. -/
def newPage (h : Heap) (pg : ℕ) : Heap :=
  let b := pg * c.pageUnits
  let h := h.setPage pg
    { h.pages pg with slob := true, units := c.slobidx c.pageUnits, free := b }
  setSlobPageFree { h with mem := setSlob c h.mem b c.pageUnits (b + c.pageUnits) } pg

/-- `slob_alloc`, where `page` is the page that the page allocator has, if any.  A block that the
new page has no room for is a bug. -/
def slobAlloc (turns : ℕ) (h : Heap) (onNode : ℕ → Bool) (page : Option ℕ) (size align : ℕ) :
    Option (Option ℕ × Heap) := do
  let out ← searchPages c turns h onNode size align h.freeSlobPages
  match out.1 with
  | some found =>
    let i := h.freeSlobPages.idxOf found.2
    some (some found.1, { out.2 with freeSlobPages := startAt out.2.freeSlobPages i })
  | none =>
    match page with
    | none => some (none, out.2)
    | some pg => do
      let out ← slobPageAlloc c turns (newPage c out.2 pg) pg size align
      match out.1 with
      | none => none
      | some b => some (some b, out.2)

/-! ## Release -/

/-- The loop of `slob_free`: the last free block before `b`. -/
def freeLoop (mem : ℕ → ℤ) (b turns prev : ℕ) : Option ℕ :=
  if b > slobNext c mem prev then
    match turns with
    | 0 => none
    | turns + 1 => freeLoop mem b turns (slobNext c mem prev)
  else some prev

/-- The block `b` becomes a free block, and is joined with the free block that follows `prev`. -/
def joinNext (mem : ℕ → ℤ) (prev b : ℕ) (units : ℤ) : ℕ → ℤ :=
  let next := slobNext c mem prev
  if slobLast c mem prev = false ∧ (b : ℤ) + units = next then
    setSlob c mem b (c.slobidx (units + slobUnits mem next)) (slobNext c mem next)
  else setSlob c mem b units next

/-- The block `b` becomes free behind the free block `prev`, and is joined with its neighbours. -/
def insertBehind (mem : ℕ → ℤ) (prev b : ℕ) (units : ℤ) : ℕ → ℤ :=
  let mem := joinNext c mem prev b units
  if (prev : ℤ) + slobUnits mem prev = b then
    setSlob c mem prev (c.slobidx (slobUnits mem b + slobUnits mem prev)) (slobNext c mem b)
  else setSlob c mem prev (slobUnits mem prev) b

/-- The page goes back to the page allocator. -/
def returnPage (h : Heap) (pg : ℕ) : Heap :=
  let h := if (h.pages pg).onList then clearSlobPageFree h pg else h
  h.setPage pg { h.pages pg with slob := false }

/-- The block `b` becomes the only free block of its page. -/
def freeOnly (h : Heap) (pg b : ℕ) (units : ℤ) : Heap :=
  let h := h.setPage pg { h.pages pg with units, free := b }
  setSlobPageFree { h with mem := setSlob c h.mem b units (c.base (b + c.pageUnits)) } pg

/-- The block `b` goes to its place among the free blocks of its page. -/
def reinsert (turns : ℕ) (h : Heap) (pg b : ℕ) (units : ℤ) : Option Heap :=
  let h := h.setPage pg { h.pages pg with units := c.slobidx ((h.pages pg).units + units) }
  if b < (h.pages pg).free then
    some ({ h with mem := setSlob c h.mem b units (h.pages pg).free }.setPage pg
      { h.pages pg with free := b })
  else
    (freeLoop c h.mem b turns (h.pages pg).free).map fun prev =>
      { h with mem := insertBehind c h.mem prev b units }

/-- `slob_free` of a block that is not null.  A size of zero is a bug. -/
def slobFree (turns : ℕ) (h : Heap) (b size : ℕ) : Option Heap :=
  let pg := b / c.pageUnits
  let units := c.slobidx (c.slobUnits size)
  if size = 0 then none
  else if (h.pages pg).units + units = c.pageUnits then some (returnPage h pg)
  else if (h.pages pg).onList = false then some (freeOnly c h pg b units)
  else reinsert c turns h pg b units

end Gp2xKernel.Slob
