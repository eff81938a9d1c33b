import Gp2xKernel.Library.LinkedTree

/-!
# Radix priority search trees of `lib/prio_tree.c`

A priority search tree stores closed intervals.  It is a heap on the last element of the
intervals and a radix tree on their first elements: the path from the root to a node
spells the leading bits of the first element and, once these are used up, the bits of the
size of the interval.

A node without a left child, right child or parent stores its own address there.
Dereferencing an address that holds no node, a `BUG()`, and running a loop longer than the
given number of turns all make an operation fail (`none`).

## Main definitions

* `Entry`, `getIndex`: the data of a node and the interval it stands for.
* `Mem`: the nodes and `struct prio_tree_root`.
* `prioTreeReplace`, `prioTreeInsert`, `prioTreeExpand`, `prioTreeRemove`: updates.
* `PrioTreeIter`, `prioTreeFirst`, `prioTreeNext`: enumeration of the intervals that
  overlap a given one.
-/

namespace Gp2xKernel.PrioTree

open Library (Side Cell Heap)

/-- What `get_index` reads: the fields of `struct prio_tree_node`, and those of the
`struct vm_area_struct` a raw node is embedded in. -/
structure Entry (w : ℕ) where
  start : BitVec w
  last : BitVec w
  vmPgoff : BitVec w
  vmStart : BitVec w
  vmEnd : BitVec w
  deriving DecidableEq

/-- An interval: its first element is the radix index and its last one the heap index. -/
@[ext] structure Index (w : ℕ) where
  radix : BitVec w
  heap : BitVec w
  deriving DecidableEq

/-- `struct prio_tree_root`. -/
structure Root (α : Type) where
  prioTreeNode : Option α
  indexBits : ℕ
  raw : Bool

/-- The memory: nodes with the pointers `left`, `right` and `parent`, and the root. -/
structure Mem (α : Type) (w : ℕ) where
  heap : Heap α (Entry w)
  root : Root α

variable {α : Type} {w : ℕ}

/-- `PAGE_SHIFT`. -/
def pageShift : ℕ := 12

def getIndex (raw : Bool) (x : Entry w) : Index w :=
  if raw then ⟨x.vmPgoff, x.vmPgoff + (((x.vmEnd - x.vmStart) >>> pageShift) - 1)⟩
  else ⟨x.start, x.last⟩

/-- `prio_tree_maxindex`: the table entry `index_bits_to_maxindex[bits - 1]`. -/
def prioTreeMaxindex (bits : ℕ) : Option (BitVec w) :=
  if bits = 0 ∨ w < bits then none
  else if bits = w then some (BitVec.allOnes w)
  else some ((1#w <<< bits) - 1)

variable [DecidableEq α]

namespace Mem

/-- Apply an assignment to the node at `a`. -/
def assign (m : Mem α w) (a : α) (f : Cell α (Entry w) → Cell α (Entry w)) :
    Option (Mem α w) :=
  if (m.heap a).isSome then some { m with heap := m.heap.modify a f } else none

/-- `INIT_PRIO_TREE_NODE(ptr)`. -/
def initPrioTreeNode (m : Mem α w) (a : α) : Option (Mem α w) :=
  m.assign a fun c => { c with left := a, right := a, parent := a }

/-- The interval of the node at `a`. -/
def index (m : Mem α w) (a : α) : Option (Index w) :=
  (m.heap a).map fun c => getIndex m.root.raw c.data

def setChild (d : Side) (m : Mem α w) (a x : α) : Option (Mem α w) := m.assign a (.setChild d x)
def setParent (m : Mem α w) (a x : α) : Option (Mem α w) := m.assign a (.setParent x)

/-- `__INIT_PRIO_TREE_ROOT(root, root->raw)`. -/
def initPrioTreeRoot (m : Mem α w) : Mem α w :=
  { m with root := ⟨none, 1, m.root.raw⟩ }

end Mem

/-! ## Updates -/

/-- The block of `prio_tree_replace` that moves the child of `old` on one side below
`node`. -/
def moveChild (d : Side) (m : Mem α w) (old node : α) : Option (Mem α w) := do
  let o ← m.heap old
  if o.child d ≠ old then
    let m ← m.setChild d node (o.child d)
    m.setParent (o.child d) node
  else return m

/-- The block of `prio_tree_replace` that makes the parent of `old`, or the root, point at
`node`. -/
def replaceAbove (m : Mem α w) (old node : α) : Option (Mem α w) := do
  let o ← m.heap old
  if o.parent = old then
    if m.root.prioTreeNode ≠ some old then none
    else
      let m ← m.setParent node node
      return { m with root := { m.root with prioTreeNode := some node } }
  else
    let m ← m.setParent node o.parent
    let p ← m.heap o.parent
    if p.left = old then m.setChild .left o.parent node else m.setChild .right o.parent node

def prioTreeReplace (m : Mem α w) (old node : α) : Option (Mem α w × α) := do
  let m ← m.initPrioTreeNode node
  let m ← replaceAbove m old node
  let m ← moveChild .left m old node
  let m ← moveChild .right m old node
  return (m, old)

/-- The loop of `prio_tree_remove` that walks down to a leaf. -/
def removeDescend : ℕ → Mem α w → α → Option α
  | 0, _, _ => none
  | turns + 1, m, cur => do
    let c ← m.heap cur
    if c.left ≠ cur ∨ c.right ≠ cur then
      if c.left = cur then removeDescend turns m c.right
      else
        let l ← m.index c.left
        if c.right = cur then removeDescend turns m c.left
        else
          let r ← m.index c.right
          if l.heap ≥ r.heap then removeDescend turns m c.left
          else removeDescend turns m c.right
    else return cur

/-- The loop of `prio_tree_remove` that moves the nodes of the path up by one. -/
def removeClimb : ℕ → Mem α w → α → α → Option (Mem α w)
  | 0, _, _, _ => none
  | turns + 1, m, cur, node =>
    if cur ≠ node then do
      let c ← m.heap cur
      let (m, cur) ← prioTreeReplace m c.parent cur
      removeClimb turns m cur node
    else return m

def prioTreeRemove (turns : ℕ) (m : Mem α w) (node : α) : Option (Mem α w) := do
  let cur ← removeDescend turns m node
  let c ← m.heap cur
  if c.parent = cur then
    if m.root.prioTreeNode ≠ some cur then none else return m.initPrioTreeRoot
  else
    let p ← m.heap c.parent
    let m ← if p.right = cur then m.setChild .right c.parent c.parent
      else m.setChild .left c.parent c.parent
    removeClimb turns m cur node

/-- The loop of `prio_tree_expand`; `chain` holds `first` and `last` once they are set. -/
def expandLoop : ℕ → Mem α w → BitVec w → Option (α × α) → Option (Mem α w × Option (α × α))
  | 0, _, _, _ => none
  | turns + 1, m, maxHeapIndex, chain => do
    if maxHeapIndex > (← prioTreeMaxindex m.root.indexBits) then
      let m := { m with root := { m.root with indexBits := m.root.indexBits + 1 } }
      match m.root.prioTreeNode, chain with
      | none, chain => expandLoop turns m maxHeapIndex chain
      | some top, none =>
        let m ← prioTreeRemove turns m top
        let m ← m.initPrioTreeNode top
        expandLoop turns m maxHeapIndex (some (top, top))
      | some top, some (first, prev) =>
        let m ← prioTreeRemove turns m top
        let m ← m.initPrioTreeNode top
        let m ← m.setChild .left prev top
        let m ← m.setParent top prev
        expandLoop turns m maxHeapIndex (some (first, top))
    else return (m, chain)

/-- The block of `prio_tree_expand` that hangs the chain below `node`; the second result is
`last`. -/
def linkChain (m : Mem α w) (node : α) : Option (α × α) → Option (Mem α w × α)
  | some (first, last) => do
    let m ← m.setChild .left node first
    let m ← m.setParent first node
    return (m, last)
  | none => return (m, node)

/-- The block of `prio_tree_expand` that hangs what is left of the tree below `last`. -/
def linkRest (m : Mem α w) (last : α) : Option (Mem α w) :=
  match m.root.prioTreeNode with
  | some top => do
    let m ← m.setChild .left last top
    m.setParent top last
  | none => return m

def prioTreeExpand (turns : ℕ) (m : Mem α w) (node : α) (maxHeapIndex : BitVec w) :
    Option (Mem α w × α) := do
  let m := if maxHeapIndex > (← prioTreeMaxindex m.root.indexBits) then
    { m with root := { m.root with indexBits := m.root.indexBits + 1 } } else m
  let (m, chain) ← expandLoop turns m maxHeapIndex none
  let m ← m.initPrioTreeNode node
  let (m, last) ← linkChain m node chain
  let m ← linkRest m last
  return ({ m with root := { m.root with prioTreeNode := some node } }, node)

/-- The loop of `prio_tree_insert`; a mask of zero runs into the `BUG()` behind it. -/
def insertLoop : ℕ → Mem α w → (cur node res : α) → Index w → BitVec w → Bool →
    Option (Mem α w × α)
  | 0, _, _, _, _, _, _, _ => none
  | turns + 1, m, cur, node, res, x, mask, sizeFlag => do
    if mask = 0 then none
    let i ← m.index cur
    if i = x then return (m, cur)
    let (m, cur, node, x) ←
      if i.heap < x.heap ∨ (i.heap = x.heap ∧ i.radix > x.radix) then do
        let (m, old) ← prioTreeReplace m cur node
        pure (m, node, old, i)
      else pure (m, cur, node, x)
    let index := if sizeFlag then x.heap - x.radix else x.radix
    let side := if index &&& mask ≠ 0 then Side.right else Side.left
    let c ← m.heap cur
    if c.child side = cur then
      let m ← m.initPrioTreeNode node
      let m ← m.setChild side cur node
      let m ← m.setParent node cur
      return (m, res)
    else if mask >>> 1 = 0 then
      insertLoop turns m (c.child side) node res x (1#w <<< (w - 1)) true
    else insertLoop turns m (c.child side) node res x (mask >>> 1) sizeFlag

def prioTreeInsert (turns : ℕ) (m : Mem α w) (node : α) : Option (Mem α w × α) := do
  let x ← m.index node
  match m.root.prioTreeNode with
  | none => prioTreeExpand turns m node x.heap
  | some top =>
    if x.heap > (← prioTreeMaxindex m.root.indexBits) then prioTreeExpand turns m node x.heap
    else insertLoop turns m top node node x (1#w <<< (m.root.indexBits - 1)) false

/-! ## Enumeration -/

/-- `struct prio_tree_iter`, without the pointer to the root. -/
structure PrioTreeIter (α : Type) (w : ℕ) where
  cur : Option α
  mask : BitVec w
  value : BitVec w
  sizeLevel : ℕ
  rIndex : BitVec w
  hIndex : BitVec w

/-- `prio_tree_iter_init`; the fields it leaves alone are reset by `prio_tree_first`. -/
def prioTreeIterInit (iter : PrioTreeIter α w) (rIndex hIndex : BitVec w) : PrioTreeIter α w :=
  { iter with rIndex := rIndex, hIndex := hIndex, cur := none }

/-- The block `prio_tree_left` and `prio_tree_right` share: step down to `child`. -/
def enterChild (m : Mem α w) (iter : PrioTreeIter α w) (child : α) :
    Option (PrioTreeIter α w) := do
  let mask := iter.mask >>> 1
  if mask ≠ 0 then
    return { iter with
      cur := some child
      mask := mask
      sizeLevel := if iter.sizeLevel ≠ 0 then iter.sizeLevel + 1 else iter.sizeLevel }
  else if iter.sizeLevel ≠ 0 then
    let c ← m.heap child
    if c.left ≠ child ∨ c.right ≠ child then none
    else return { iter with
      cur := some child
      mask := BitVec.allOnes w
      sizeLevel := iter.sizeLevel + 1 }
  else return { iter with cur := some child, mask := 1#w <<< (w - 1), sizeLevel := 1 }

/-- `prio_tree_left`; the second result is the interval of the new current node, or `none`
where the function returns NULL. -/
def prioTreeLeft (m : Mem α w) (iter : PrioTreeIter α w) :
    Option (PrioTreeIter α w × Option (Index w)) := do
  let cur ← iter.cur
  let c ← m.heap cur
  if c.left = cur then return (iter, none)
  let i ← m.index c.left
  if iter.rIndex ≤ i.heap then return (← enterChild m iter c.left, some i)
  else return (iter, none)

def prioTreeRight (m : Mem α w) (iter : PrioTreeIter α w) :
    Option (PrioTreeIter α w × Option (Index w)) := do
  let cur ← iter.cur
  let c ← m.heap cur
  if c.right = cur then return (iter, none)
  let value := if iter.sizeLevel ≠ 0 then iter.value else iter.value ||| iter.mask
  if iter.hIndex < value then return (iter, none)
  let i ← m.index c.right
  if iter.rIndex ≤ i.heap then
    return (← enterChild m { iter with value := value } c.right, some i)
  else return (iter, none)

def prioTreeParent (m : Mem α w) (iter : PrioTreeIter α w) : Option (PrioTreeIter α w) := do
  let cur ← iter.cur
  let c ← m.heap cur
  let mask := if iter.mask = BitVec.allOnes w then 1#w
    else if iter.sizeLevel = 1 then 1#w else iter.mask <<< 1
  let sizeLevel := if iter.sizeLevel ≠ 0 then iter.sizeLevel - 1 else iter.sizeLevel
  let value := if sizeLevel = 0 ∧ iter.value &&& mask ≠ 0 then iter.value ^^^ mask
    else iter.value
  return { iter with cur := some c.parent, mask := mask, sizeLevel := sizeLevel, value := value }

def overlap (iter : PrioTreeIter α w) (i : Index w) : Bool :=
  iter.hIndex ≥ i.radix ∧ iter.rIndex ≤ i.heap

/-- The loop of `prio_tree_first`. -/
def firstLoop : ℕ → Mem α w → PrioTreeIter α w → Index w →
    Option (PrioTreeIter α w × Option α)
  | 0, _, _, _ => none
  | turns + 1, m, iter, i => do
    if overlap iter i then return (iter, iter.cur)
    match ← prioTreeLeft m iter with
    | (iter, some i) => firstLoop turns m iter i
    | (iter, none) =>
      match ← prioTreeRight m iter with
      | (iter, some i) => firstLoop turns m iter i
      | (iter, none) => return (iter, none)

def prioTreeFirst (turns : ℕ) (m : Mem α w) (iter : PrioTreeIter α w) :
    Option (PrioTreeIter α w × Option α) := do
  let iter := { iter with cur := none, mask := 0, value := 0, sizeLevel := 0 }
  match m.root.prioTreeNode with
  | none => return (iter, none)
  | some top =>
    let i ← m.index top
    if iter.rIndex > i.heap then return (iter, none)
    let iter := { iter with mask := 1#w <<< (m.root.indexBits - 1), cur := some top }
    firstLoop turns m iter i

/-- Where `prio_tree_next` is: in the loop over the left children, about to try the right
child, or in the loop that backs up from right children. -/
inductive Phase
  | left
  | right
  | up
  deriving DecidableEq

/-- The loops of `prio_tree_next`. -/
def nextLoop : ℕ → Mem α w → Phase → PrioTreeIter α w → Option (PrioTreeIter α w × Option α)
  | 0, _, _, _ => none
  | turns + 1, m, .left, iter => do
    match ← prioTreeLeft m iter with
    | (iter, some i) =>
      if overlap iter i then return (iter, iter.cur) else nextLoop turns m .left iter
    | (iter, none) => nextLoop turns m .right iter
  | turns + 1, m, .right, iter => do
    match ← prioTreeRight m iter with
    | (iter, some i) =>
      if overlap iter i then return (iter, iter.cur) else nextLoop turns m .left iter
    | (iter, none) => nextLoop turns m .up iter
  | turns + 1, m, .up, iter => do
    let cur ← iter.cur
    let c ← m.heap cur
    if c.parent = cur then return (iter, none)
    else
      let p ← m.heap c.parent
      let iter ← prioTreeParent m iter
      if p.right = cur then nextLoop turns m .up iter else nextLoop turns m .right iter

def prioTreeNext (turns : ℕ) (m : Mem α w) (iter : PrioTreeIter α w) :
    Option (PrioTreeIter α w × Option α) :=
  match iter.cur with
  | none => prioTreeFirst turns m iter
  | some _ => nextLoop turns m .left iter

end Gp2xKernel.PrioTree
