import Mathlib.Data.BitVec

/-!
# The resource tree of `kernel/resource.c`

A resource is a range of addresses.  The resources inside a resource form a list: `child`
points at the first of them, `sibling` from each one to the next, and `parent` back to the
enclosing resource.  Ranges are closed, and all arithmetic on addresses wraps.

Following a pointer that is NULL or that points at no resource, and running a loop longer
than the given number of turns, make an operation fail (`none`).

## Main definitions

* `Resource`, `Mem`, `Loc`: resources, memory, and the targets of a `struct resource **`.
* `requestConflict`, `unlinkResource`: `__request_resource` and `__release_resource`.
* `requestResource`, `releaseResource`, `allocateResource`, `insertResource`,
  `adjustResource`, `requestRegion`, `releaseRegion`: the seven operations.
-/

namespace Gp2xKernel.ResourceTree

/-- `struct resource`, without the name; `stop` is the field `end`. -/
structure Resource (α : Type) (w : ℕ) where
  start : BitVec w
  stop : BitVec w
  flags : BitVec 32
  parent : Option α
  sibling : Option α
  child : Option α
  deriving DecidableEq

/-- Memory that holds resources. -/
abbrev Mem (α : Type) (w : ℕ) : Type := α → Option (Resource α w)

/-- The target of a `struct resource **`: the `child` or the `sibling` of a resource. -/
inductive Loc (α : Type)
  | child (a : α)
  | sibling (a : α)

/-- What an operation reports: 0, `-EBUSY` or `-EINVAL`. -/
inductive Status
  | ok
  | ebusy
  | einval
  deriving DecidableEq

/-- `IORESOURCE_BUSY`. -/
def ioresourceBusy : BitVec 32 := 0x80000000

variable {α : Type} {w : ℕ} [DecidableEq α]

namespace Mem

/-- Put a resource at an address, or free the address. -/
def set (m : Mem α w) (a : α) (r : Option (Resource α w)) : Mem α w :=
  fun b => if b = a then r else m b

/-- Assign to fields of the resource at `a`. -/
def assign (m : Mem α w) (a : α) (f : Resource α w → Resource α w) : Option (Mem α w) := do
  let r ← m a
  return m.set a (some (f r))

/-- `*p`. -/
def read (m : Mem α w) : Loc α → Option (Option α)
  | .child a => do return (← m a).child
  | .sibling a => do return (← m a).sibling

/-- `*p = x`. -/
def write (m : Mem α w) (p : Loc α) (x : Option α) : Option (Mem α w) :=
  match p with
  | .child a => m.assign a fun r => { r with child := x }
  | .sibling a => m.assign a fun r => { r with sibling := x }

end Mem

/-! ## Requests and releases -/

/-- The link step of `__request_resource`. -/
def linkNew (m : Mem α w) (root new : α) (p : Loc α) (tmp : Option α) : Option (Mem α w) := do
  let m ← m.assign new fun r => { r with sibling := tmp }
  let m ← m.write p (some new)
  m.assign new fun r => { r with parent := some root }

/-- The loop of `__request_resource`. -/
def requestLoop : ℕ → Mem α w → (root new : α) → (start stop : BitVec w) → Loc α →
    Option (Mem α w × Option α)
  | 0, _, _, _, _, _, _ => none
  | turns + 1, m, root, new, start, stop, p => do
    match ← m.read p with
    | none => return (← linkNew m root new p none, none)
    | some tmp =>
      let r ← m tmp
      if r.start > stop then return (← linkNew m root new p (some tmp), none)
      else if r.stop < start then requestLoop turns m root new start stop (.sibling tmp)
      else return (m, some tmp)

/-- `__request_resource`: the second result is the entry in conflict, if there is one. -/
def requestConflict (turns : ℕ) (m : Mem α w) (root new : α) : Option (Mem α w × Option α) := do
  let n ← m new
  let r ← m root
  if n.stop < n.start then return (m, some root)
  if n.start < r.start then return (m, some root)
  if n.stop > r.stop then return (m, some root)
  requestLoop turns m root new n.start n.stop (.child root)

/-- The loop of `__release_resource`. -/
def releaseLoop : ℕ → Mem α w → α → Loc α → Option (Mem α w × Status)
  | 0, _, _, _ => none
  | turns + 1, m, old, p => do
    match ← m.read p with
    | none => return (m, .einval)
    | some tmp =>
      let r ← m tmp
      if tmp = old then
        let m ← m.write p r.sibling
        return (← m.assign old fun r => { r with parent := none }, .ok)
      else releaseLoop turns m old (.sibling tmp)

/-- `__release_resource`. -/
def unlinkResource (turns : ℕ) (m : Mem α w) (old : α) : Option (Mem α w × Status) := do
  let o ← m old
  let parent ← o.parent
  releaseLoop turns m old (.child parent)

def requestResource (turns : ℕ) (m : Mem α w) (root new : α) : Option (Mem α w × Status) := do
  let (m, conflict) ← requestConflict turns m root new
  return (m, if conflict.isSome then .ebusy else .ok)

def releaseResource (turns : ℕ) (m : Mem α w) (old : α) : Option (Mem α w × Status) :=
  unlinkResource turns m old

/-! ## Allocation -/

/-- `ALIGN(x, a)`. -/
def align (x a : BitVec w) : BitVec w := (x + (a - 1)) &&& ~~~(a - 1)

/-- A callback `alignf` with its data: the range it leaves in the resource it is given. -/
abbrev AlignFn (α : Type) (w : ℕ) : Type :=
  Resource α w → BitVec w → BitVec w → BitVec w × BitVec w

/-- The range that `find_resource` tries in a gap that ends at `stop`: clipped to `min` and
`max`, aligned, and passed to `alignf`. -/
def gapRange (n : Resource α w) (stop size min max alignment : BitVec w)
    (alignf : Option (AlignFn α w)) : BitVec w × BitVec w :=
  let start := align (if n.start < min then min else n.start) alignment
  let stop := if stop > max then max else stop
  match alignf with
  | some f => f { n with start := start, stop := stop } size alignment
  | none => (start, stop)

/-- The loop of `find_resource`. -/
def findLoop (root new : α) (size min max alignment : BitVec w)
    (alignf : Option (AlignFn α w)) : ℕ → Mem α w → Option α → Option (Mem α w × Status)
  | 0, _, _ => none
  | turns + 1, m, this => do
    let stop ← match this with
      | some t => do pure ((← m t).start - 1)
      | none => do pure (← m root).stop
    let range := gapRange (← m new) stop size min max alignment alignf
    let m ← m.assign new fun r => { r with start := range.1, stop := range.2 }
    if range.1 < range.2 ∧ range.2 - range.1 ≥ size - 1 then
      return (← m.assign new fun r => { r with stop := range.1 + size - 1 }, .ok)
    match this with
    | none => return (m, .ebusy)
    | some t =>
      let r ← m t
      let m ← m.assign new fun n => { n with start := r.stop + 1 }
      findLoop root new size min max alignment alignf turns m r.sibling

def findResource (turns : ℕ) (m : Mem α w) (root new : α) (size min max alignment : BitVec w)
    (alignf : Option (AlignFn α w)) : Option (Mem α w × Status) := do
  let r ← m root
  let m ← m.assign new fun n => { n with start := r.start }
  match r.child with
  | none => findLoop root new size min max alignment alignf turns m none
  | some t =>
    let c ← m t
    -- skip a resource that starts at 0, as `c.start - 1` would wrap
    if c.start = 0 then
      let m ← m.assign new fun n => { n with start := c.stop + 1 }
      findLoop root new size min max alignment alignf turns m c.sibling
    else findLoop root new size min max alignment alignf turns m (some t)

def allocateResource (turns : ℕ) (m : Mem α w) (root new : α)
    (size min max alignment : BitVec w) (alignf : Option (AlignFn α w)) :
    Option (Mem α w × Status) := do
  let (m, err) ← findResource turns m root new size min max alignment alignf
  if err = .ok then
    let (m, conflict) ← requestConflict turns m root new
    return (m, if conflict.isSome then .ebusy else .ok)
  else return (m, err)

/-! ## Insertion -/

/-- How the first loop of `insert_resource` ends: linked without a conflict, refused, or with
a child `first` of `parent` that is not larger than the new resource. -/
inductive Descent (α : Type)
  | linked
  | refused
  | conflict (parent first : α)

/-- The first loop of `insert_resource`. -/
def insertDescend : ℕ → Mem α w → (parent new : α) → Option (Mem α w × Descent α)
  | 0, _, _, _ => none
  | turns + 1, m, parent, new => do
    match ← requestConflict turns m parent new with
    | (m, none) => return (m, .linked)
    | (m, some first) =>
      if first = parent then return (m, .refused)
      else
        let f ← m first
        let n ← m new
        if f.start > n.start ∨ f.stop < n.stop then return (m, .conflict parent first)
        else if f.start = n.start ∧ f.stop = n.stop then return (m, .conflict parent first)
        else insertDescend turns m first new

/-- The second loop of `insert_resource`: the last resource of the run that becomes the
children of the new one, or `none` if one of them overlaps the new range partially. -/
def insertRun : ℕ → Mem α w → (new next : α) → Option (Option α)
  | 0, _, _, _ => none
  | turns + 1, m, new, next => do
    let x ← m next
    let n ← m new
    if x.start < n.start ∨ x.stop > n.stop then return none
    match x.sibling with
    | none => return some next
    | some s =>
      if (← m s).start > n.stop then return some next else insertRun turns m new s

/-- The loop of `insert_resource` that gives the run its new parent. -/
def reparent : ℕ → Mem α w → α → Option α → Option (Mem α w)
  | 0, _, _, _ => none
  | _ + 1, m, _, none => return m
  | turns + 1, m, new, some next => do
    let m ← m.assign next fun r => { r with parent := some new }
    reparent turns m new (← m next).sibling

/-- The loop of `insert_resource` that finds the resource before `first`. -/
def findPrevious : ℕ → Mem α w → (first next : α) → Option α
  | 0, _, _, _ => none
  | turns + 1, m, first, next => do
    let x ← m next
    if x.sibling = some first then return next
    else findPrevious turns m first (← x.sibling)

/-- The end of `insert_resource`: the run from `first` to `last` becomes the list of children
of `new`, and `new` takes its place in the list of children of `parent`. -/
def adoptRun (turns : ℕ) (m : Mem α w) (parent new first last : α) : Option (Mem α w) := do
  let l ← m last
  let m ← m.assign new fun r =>
    { r with parent := some parent, sibling := l.sibling, child := some first }
  let m ← m.assign last fun r => { r with sibling := none }
  let m ← reparent turns m new (some first)
  let p ← m parent
  if p.child = some first then m.assign parent fun r => { r with child := some new }
  else
    let prev ← findPrevious turns m first (← p.child)
    m.assign prev fun r => { r with sibling := some new }

def insertResource (turns : ℕ) (m : Mem α w) (parent new : α) : Option (Mem α w × Status) := do
  match ← insertDescend turns m parent new with
  | (m, .linked) => return (m, .ok)
  | (m, .refused) => return (m, .ebusy)
  | (m, .conflict parent first) =>
    match ← insertRun turns m new first with
    | none => return (m, .ebusy)
    | some last => return (← adoptRun turns m parent new first last, .ok)

/-! ## Adjustment -/

/-- The loop of `adjust_resource` over the children: do they all stay inside? -/
def childrenFit : ℕ → Mem α w → (start stop : BitVec w) → Option α → Option Bool
  | 0, _, _, _, _ => none
  | _ + 1, _, _, _, none => return true
  | turns + 1, m, start, stop, some tmp => do
    let t ← m tmp
    if t.start < start ∨ t.stop > stop then return false
    else childrenFit turns m start stop t.sibling

/-- Does a range that ends at `stop` reach the sibling behind the resource? -/
def overlapsNext (m : Mem α w) (r : Resource α w) (stop : BitVec w) : Option Bool :=
  match r.sibling with
  | none => return false
  | some s => do return decide ((← m s).start ≤ stop)

/-- Does a range that begins at `start` reach the sibling in front of `res`? -/
def overlapsPrevious (turns : ℕ) (m : Mem α w) (p : Resource α w) (res : α) (start : BitVec w) :
    Option Bool := do
  let tmp ← p.child
  if tmp = res then return false
  else
    let prev ← findPrevious turns m res tmp
    return decide (start ≤ (← m prev).stop)

def adjustResource (turns : ℕ) (m : Mem α w) (res : α) (start size : BitVec w) :
    Option (Mem α w × Status) := do
  let r ← m res
  let parent ← r.parent
  let stop := start + size - 1
  let p ← m parent
  if start < p.start ∨ stop > p.stop then return (m, .ebusy)
  if !(← childrenFit turns m start stop r.child) then return (m, .ebusy)
  if ← overlapsNext m r stop then return (m, .ebusy)
  if ← overlapsPrevious turns m p res start then return (m, .ebusy)
  return (← m.assign res fun r => { r with start := start, stop := stop }, .ok)

/-! ## Regions -/

/-- The loop of `__request_region`. -/
def regionLoop : ℕ → Mem α w → (parent res : α) → Option (Mem α w × Option α)
  | 0, _, _, _ => none
  | turns + 1, m, parent, res => do
    match ← requestConflict turns m parent res with
    | (m, none) => return (m, some res)
    | (m, some conflict) =>
      if conflict ≠ parent then
        if (← m conflict).flags &&& ioresourceBusy = 0 then regionLoop turns m conflict res
        else return (m.set res none, none)
      else return (m.set res none, none)

/-- `__request_region`; `alloc` is what `kzalloc` returns. -/
def requestRegion (turns : ℕ) (m : Mem α w) (parent : α) (start n : BitVec w)
    (alloc : Option α) : Option (Mem α w × Option α) :=
  match alloc with
  | none => return (m, none)
  | some res =>
    regionLoop turns (m.set res (some ⟨start, start + n - 1, ioresourceBusy, none, none, none⟩))
      parent res

/-- The loop of `__release_region`; the second result tells whether the region was found. -/
def releaseRegionLoop : ℕ → Mem α w → (start stop : BitVec w) → Loc α →
    Option (Mem α w × Bool)
  | 0, _, _, _, _ => none
  | turns + 1, m, start, stop, p => do
    match ← m.read p with
    | none => return (m, false)
    | some res =>
      let r ← m res
      if r.start ≤ start ∧ r.stop ≥ stop then
        if r.flags &&& ioresourceBusy = 0 then
          releaseRegionLoop turns m start stop (.child res)
        else if r.start ≠ start ∨ r.stop ≠ stop then return (m, false)
        else
          let m ← m.write p r.sibling
          return (m.set res none, true)
      else releaseRegionLoop turns m start stop (.sibling res)

/-- `__release_region`. -/
def releaseRegion (turns : ℕ) (m : Mem α w) (parent : α) (start n : BitVec w) :
    Option (Mem α w × Bool) :=
  releaseRegionLoop turns m start (start + n - 1) (.child parent)

end Gp2xKernel.ResourceTree
