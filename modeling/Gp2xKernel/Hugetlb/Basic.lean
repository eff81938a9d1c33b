import Mathlib.Data.BitVec
import Mathlib.Algebra.Order.Ring.Int
import Gp2xKernel.Library.ListHead

/-!
# Reservations of huge pages

`mm/hugetlb.c`: the list of the reserved regions of a file, and the functions that reserve pages and
give reservations back.

The regions are nodes of a list in memory.  The iterators of the list follow its links, and the two
that start at a region have `rg->link.prev` for the head of their list, which is evaluated anew in
each turn, for the region that the turn is at.

## Main definitions

* `FileRegion`, `Regions`: the list
* `regionAdd`, `regionChg`, `regionTruncate`: the operations on it
* `hugetlbReservePages`, `hugetlbUnreservePages`: their callers
-/

namespace Gp2xKernel.Hugetlb

open Library

/-- `ENOMEM` -/
def enomem : ℤ := 12

/-- `ENOSPC` -/
def enospc : ℤ := 28

/-- A value of type `long`, which has `W` bits. -/
def long (W : ℕ) (x : ℤ) : ℤ := x.bmod (2 ^ W)

/-- The range of a `struct file_region`: the pages from `fromPage` to before `toPage`. -/
structure FileRegion where
  fromPage : ℤ
  toPage : ℤ
deriving DecidableEq

/-- The list: the links of its nodes, and the ranges of those that are allocated regions.  The head
of the list is no region. -/
structure Regions where
  links : Links ℕ
  range : ℕ → Option FileRegion

/-- `LIST_POISON1` and `LIST_POISON2` -/
def listPoison : ListHead ℕ := ⟨0x00100100, 0x00200200⟩

/-- `list_del` and `kfree` of a region. -/
def Regions.free (m : Regions) (rg : ℕ) : Regions :=
  ⟨m.links.listDel listPoison rg, Function.update m.range rg none⟩

/-- Assignment to the range of a region. -/
def Regions.setRange (m : Regions) (rg : ℕ) (r : FileRegion) : Regions :=
  { m with range := Function.update m.range rg (some r) }

/-- The first region whose end is not below `f`, or the head:
`list_for_each_entry(rg, head, link) if (f <= rg->to) break;` -/
def locate (m : Regions) (head : ℕ) (f : ℤ) (turns rg : ℕ) : Option ℕ :=
  if rg = head then some rg
  else match turns with
    | 0 => none
    | turns + 1 => do
      let r ← m.range rg
      if f ≤ r.toPage then some rg else locate m head f turns (m.links rg).next

/-- The loop of `region_add` from the region `rg`, with `trg` next. -/
def addLoop (head nrg : ℕ) (turns : ℕ) (m : Regions) (rg trg : ℕ) (t : ℤ) :
    Option (Regions × ℤ) :=
  if rg = (m.links rg).prev then some (m, t)
  else if rg = head then some (m, t)
  else match turns with
    | 0 => none
    | turns + 1 => do
      let r ← m.range rg
      if r.fromPage > t then some (m, t)
      else
        let t := if r.toPage > t then r.toPage else t
        let m := if rg ≠ nrg then m.free rg else m
        addLoop head nrg turns m trg (m.links trg).next t

def regionAdd (turns : ℕ) (m : Regions) (head : ℕ) (f t : ℤ) : Option Regions := do
  let rg ← locate m head f turns (m.links head).next
  let r ← m.range rg
  let f := if f > r.fromPage then r.fromPage else f
  let first := (m.links (m.links rg).prev).next
  let out ← addLoop head rg turns m first (m.links first).next t
  some (out.1.setRange rg ⟨f, out.2⟩)

/-- The loop of `region_chg` from the region `rg`. -/
def chgLoop (W : ℕ) (m : Regions) (head turns rg : ℕ) (t chg : ℤ) : Option ℤ :=
  if rg = (m.links rg).prev then some chg
  else if rg = head then some chg
  else match turns with
    | 0 => none
    | turns + 1 => do
      let r ← m.range rg
      if r.fromPage > t then some chg
      else
        let chg := if r.toPage > t then long W (chg + long W (r.toPage - t)) else chg
        let t := if r.toPage > t then r.toPage else t
        chgLoop W m head turns (m.links rg).next t (long W (chg - long W (r.toPage - r.fromPage)))

/-- A new region without pages, before `rg`. -/
def Regions.placeholder (m : Regions) (nrg rg : ℕ) (f : ℤ) : Regions :=
  let m := m.setRange nrg ⟨f, f⟩
  let links : Links ℕ := Function.update m.links nrg ⟨nrg, nrg⟩
  { m with links := links.listAdd nrg (links rg).prev (links (links rg).prev).next }

/-- Whether a new region is required: `&rg->link == head || t < rg->from`. -/
def isBelow (m : Regions) (head rg : ℕ) (t : ℤ) : Option Bool :=
  if rg = head then some true else (m.range rg).map fun r => decide (t < r.fromPage)

/-- `region_chg`, where `alloc` is the result of `kmalloc`. -/
def regionChg (W turns : ℕ) (m : Regions) (head : ℕ) (f t : ℤ) (alloc : Option ℕ) :
    Option (ℤ × Regions) := do
  let rg ← locate m head f turns (m.links head).next
  let new ← isBelow m head rg t
  if new then
    match alloc with
    | none => some (-enomem, m)
    | some nrg => some (long W (t - f), m.placeholder nrg rg f)
  else
    let r ← m.range rg
    let f := if f > r.fromPage then r.fromPage else f
    let chg ← chgLoop W m head turns (m.links (m.links rg).prev).next t (long W (t - f))
    some (chg, m)

/-- The loop of `region_truncate` from the region `rg`, with `trg` next. -/
def truncateLoop (W head turns : ℕ) (m : Regions) (rg trg : ℕ) (chg : ℤ) : Option (ℤ × Regions) :=
  if rg = (m.links rg).prev then some (chg, m)
  else if rg = head then some (chg, m)
  else match turns with
    | 0 => none
    | turns + 1 => do
      let r ← m.range rg
      let m := m.free rg
      truncateLoop W head turns m trg (m.links trg).next
        (long W (chg + long W (r.toPage - r.fromPage)))

/-- `region_truncate`, where `stop` is its argument `end`. -/
def regionTruncate (W turns : ℕ) (m : Regions) (head : ℕ) (stop : ℤ) : Option (ℤ × Regions) := do
  let rg ← locate m head stop turns (m.links head).next
  if rg = head then some (0, m)
  else
    let r ← m.range rg
    let chg := if stop > r.fromPage then long W (r.toPage - stop) else 0
    let m := if stop > r.fromPage then m.setRange rg { r with toPage := stop } else m
    let rg := if stop > r.fromPage then (m.links rg).next else rg
    let first := (m.links (m.links rg).prev).next
    truncateLoop W head turns m first (m.links first).next chg

/-- A file: its list of regions, what it took from the quota, and its part of `resv_huge_pages`. -/
structure Inode where
  regions : Regions
  quota : ℤ
  resvHugePages : ℤ

/-- `hugetlb_acct_memory`, where `enough` tells whether the pages that it asks for are there. -/
def hugetlbAcctMemory (inode : Inode) (delta : ℤ) (enough : Bool) : ℤ × Inode :=
  if delta > 0 ∧ enough = false then (-enomem, inode)
  else (0, { inode with resvHugePages := inode.resvHugePages + delta })

/-- `hugetlb_reserve_pages`: `alloc` is the result of `kmalloc`, `quota` tells whether
`hugetlb_get_quota` succeeds, and `enough` whether the pages are there. -/
def hugetlbReservePages (W turns : ℕ) (inode : Inode) (head : ℕ) (f t : ℤ) (alloc : Option ℕ)
    (quota enough : Bool) : Option (ℤ × Inode) := do
  let chg ← regionChg W turns inode.regions head f t alloc
  let inode := { inode with regions := chg.2 }
  if chg.1 < 0 then some (chg.1, inode)
  else if quota = false then some (-enospc, inode)
  else
    let inode := { inode with quota := inode.quota + chg.1 }
    let acct := hugetlbAcctMemory inode chg.1 enough
    if acct.1 < 0 then some (acct.1, { acct.2 with quota := acct.2.quota - chg.1 })
    else
      let regions ← regionAdd turns acct.2.regions head f t
      some (0, { acct.2 with regions })

/-- `hugetlb_unreserve_pages`, for a file of which `freed` pages were in use. -/
def hugetlbUnreservePages (W turns : ℕ) (inode : Inode) (head : ℕ) (offset freed : ℤ)
    (enough : Bool) : Option Inode := do
  let chg ← regionTruncate W turns inode.regions head offset
  let inode := { inode with
    regions := chg.2
    quota := inode.quota - (chg.1 - freed) }
  some (hugetlbAcctMemory inode (-(chg.1 - freed)) enough).2

end Gp2xKernel.Hugetlb
