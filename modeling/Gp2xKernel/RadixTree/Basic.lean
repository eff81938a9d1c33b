import Gp2xKernel.Library.Digits

/-!
# The radix tree of `lib/radix-tree.c`

The tree is embedded as a value: a slot is empty, an item, or a node that
carries its own slots.  The path a loop of the source keeps (`pathp`, or the
pair `node`/`offset`) is the call stack of the recursion over the height that
models it, so what stands after a recursive call is what the source does on
the way back up.

Node allocation is an oracle.  A node handed out is either fresh from the
constructor `radix_tree_node_ctor` or one that was freed before, in the state
in which it was freed: the slab does not clear it again.

## Main definitions

* `Config`: the word width and `RADIX_TREE_MAP_SHIFT`
* `Slot`, `Node`, `Rnode`, `Root`: the data of the tree
* `Slab`, `radixTreeNodeAlloc`: the node cache and its oracle
* `radixTreeExtend`, `radixTreeInsert`, `radixTreeLookup`, `radixTreeTagSet`,
  `radixTreeTagClear`, `radixTreeTagGet`, `radixTreeShrink`, `radixTreeDelete`,
  `radixTreeTagged`: the operations
-/

namespace Gp2xKernel.RadixTree

open Library Function

/-- The configuration of the tree: `RADIX_TREE_MAP_SHIFT` and the number of bits
of an `unsigned long`.  The kernel builds with a shift of 4 or 6, the test
harness with 3, on words of 32 or 64 bits. -/
structure Config where
  mapShift : ℕ
  indexBits : ℕ
  mapShift_pos : 0 < mapShift
  indexBits_pos : 0 < indexBits

namespace Config

variable (c : Config)

/-- `RADIX_TREE_MAP_SIZE`. -/
def mapSize : ℕ := 2 ^ c.mapShift

theorem mapSize_pos : 0 < c.mapSize := Nat.two_pow_pos _

/-- `RADIX_TREE_MAX_PATH`, that is `DIV_ROUND_UP(RADIX_TREE_INDEX_BITS, RADIX_TREE_MAP_SHIFT)`. -/
def maxPath : ℕ := (c.indexBits + c.mapShift - 1) / c.mapShift

/-- An `unsigned long` index. -/
abbrev Index : Type := Fin (2 ^ c.indexBits)

/-- The offset of `index` in a node of height `height`: the loops of the source
keep `shift = (height - 1) * RADIX_TREE_MAP_SHIFT` and take
`(index >> shift) & RADIX_TREE_MAP_MASK`. -/
def offset (index height : ℕ) : Fin c.mapSize :=
  ⟨digit c.mapShift (height - 1) index, digit_lt _ _ _⟩

/-- Slot 0 of a node. -/
def slotZero : Fin c.mapSize := ⟨0, c.mapSize_pos⟩

/-- `__maxindex`. -/
def maxindex (height : ℕ) : ℕ :=
  let width := height * c.mapShift
  let shift : ℤ := (c.indexBits : ℤ) - width
  if shift < 0 then 2 ^ c.indexBits - 1
  else if shift ≥ c.indexBits then 0
  else (2 ^ c.indexBits - 1) >>> shift.toNat

end Config

/-- What stops the kernel: a `BUG_ON` that fires, a pointer followed to
something that is not a node, a read past the end of a table. -/
inductive Fault
  | bugOn
  | badDeref
  | outOfBounds
  deriving DecidableEq, Repr

/-- The `int` an insertion returns. -/
inductive Status
  | ok
  | enomem
  | eexist
  deriving DecidableEq, Repr

/-- A tag index, below `RADIX_TREE_MAX_TAGS`. -/
abbrev Tag : Type := Fin 2

/-- `struct radix_tree_node`, over the type of its slots. -/
structure NodeOf (c : Config) (σ : Type) where
  height : ℕ
  count : ℕ
  slots : Fin c.mapSize → σ
  tags : Tag → Fin c.mapSize → Bool

/-- The content of a slot.  An item is a pointer that is not `NULL` and has its
low bit clear, as `radix_tree_insert` asks of its caller. -/
inductive Slot (c : Config) (α : Type)
  | null
  | item (a : α)
  | node (n : NodeOf c (Slot c α))

/-- `struct radix_tree_node`. -/
abbrev Node (c : Config) (α : Type) : Type := NodeOf c (Slot c α)

/-- `root->rnode`: the low bit tells a node (indirect) from an item (direct). -/
inductive Rnode (c : Config) (α : Type)
  | null
  | direct (a : α)
  | indirect (n : Node c α)

/-- `struct radix_tree_root`. -/
structure Root (c : Config) (α : Type) where
  height : ℕ
  gfpMask : BitVec 32
  rnode : Rnode c α

variable {c : Config} {α : Type}

/-- Comparison of a slot with `NULL`. -/
def Slot.isNull : Slot c α → Bool
  | .null => true
  | _ => false

def radixTreeIndirectToPtr : Rnode c α → Slot c α
  | .null => .null
  | .direct a => .item a
  | .indirect n => .node n

/-- The pointer stored back in `root->rnode`: a node goes through
`radix_tree_ptr_to_indirect`, an item is stored as it is. -/
def Slot.toRnode : Slot c α → Rnode c α
  | .null => .null
  | .item a => .direct a
  | .node n => .indirect n

/-- `RADIX_TREE_INIT(mask)`. -/
def radixTreeInit (mask : BitVec 32) : Root c α := ⟨0, mask, .null⟩

/-! ## Tags -/

/-- `__GFP_BITS_SHIFT`. -/
def gfpBitsShift : ℕ := 21

/-- `__GFP_BITS_MASK`. -/
def gfpBitsMask : BitVec 32 := (1#32 <<< gfpBitsShift) - 1#32

def tagSet (n : Node c α) (tag : Tag) (offset : Fin c.mapSize) : Node c α :=
  { n with tags := update n.tags tag (update (n.tags tag) offset true) }

def tagClear (n : Node c α) (tag : Tag) (offset : Fin c.mapSize) : Node c α :=
  { n with tags := update n.tags tag (update (n.tags tag) offset false) }

def tagGet (n : Node c α) (tag : Tag) (offset : Fin c.mapSize) : Bool := n.tags tag offset

def anyTagSet (n : Node c α) (tag : Tag) : Bool := decide (∃ offset, n.tags tag offset = true)

def rootTagSet (root : Root c α) (tag : Tag) : Root c α :=
  { root with gfpMask := root.gfpMask ||| (1#32 <<< (tag.val + gfpBitsShift)) }

def rootTagClear (root : Root c α) (tag : Tag) : Root c α :=
  { root with gfpMask := root.gfpMask &&& ~~~(1#32 <<< (tag.val + gfpBitsShift)) }

def rootTagClearAll (root : Root c α) : Root c α :=
  { root with gfpMask := root.gfpMask &&& gfpBitsMask }

def rootTagGet (root : Root c α) (tag : Tag) : Bool :=
  root.gfpMask &&& (1#32 <<< (tag.val + gfpBitsShift)) != 0#32

/-! ## The node cache -/

/-- What `kmem_cache_alloc` (or the preloaded pool behind it) does at one call:
fail, hand out a node the constructor has just zeroed, or hand out the `i`-th
of the nodes that were freed. -/
inductive AllocChoice
  | fail
  | ctor
  | recycle (i : ℕ)
  deriving DecidableEq, Repr

/-- The nodes that were freed, and the choices the allocator will make. -/
structure Slab (c : Config) (α : Type) where
  freed : List (Node c α)
  choices : List AllocChoice

def radixTreeNodeCtor : Node c α := ⟨0, 0, fun _ => .null, fun _ _ => false⟩

def radixTreeNodeAlloc (m : Slab c α) : Option (Node c α) × Slab c α :=
  match m.choices with
  | [] => (none, m)
  | .fail :: rest => (none, { m with choices := rest })
  | .ctor :: rest => (some radixTreeNodeCtor, { m with choices := rest })
  | .recycle i :: rest =>
      (m.freed[i]?, { freed := m.freed.eraseIdx i, choices := rest })

/-! ## Growing the tree -/

/-- `radix_tree_maxindex`: a read of `height_to_maxindex`, a table of
`RADIX_TREE_MAX_PATH + 1` entries filled by `radix_tree_init_maxindex`. -/
def radixTreeMaxindex (c : Config) (height : ℕ) : Except Fault ℕ :=
  if height < c.maxPath + 1 then .ok (c.maxindex height) else .error .outOfBounds

/-- `while (index > radix_tree_maxindex(height)) height++`, with as many turns
as the table has entries from `height` on. -/
def extendHeight (c : Config) (index : ℕ) : (turns height : ℕ) → Except Fault ℕ
  | 0, _ => .error .outOfBounds
  | turns + 1, height => do
      let max ← radixTreeMaxindex c height
      if index > max then extendHeight c index turns (height + 1) else pure height

/-- One turn of the `do` loop of `radix_tree_extend` on a node just allocated:
the old tree becomes slot 0, the root's tags are propagated into the node. -/
def extendNode (root : Root c α) (new : Node c α) : Root c α :=
  let node : Node c α :=
    { new with slots := update new.slots c.slotZero (radixTreeIndirectToPtr root.rnode) }
  let node := if rootTagGet root 0 then tagSet node 0 c.slotZero else node
  let node := if rootTagGet root 1 then tagSet node 1 c.slotZero else node
  let newheight := root.height + 1
  { root with
    height := newheight
    rnode := .indirect { node with height := newheight, count := 1 } }

/-- The `do` loop of `radix_tree_extend`, which ends when `height` levels are
reached: `turns` is `height - root->height`. -/
def extendLoop : (turns : ℕ) → Root c α → Slab c α → Status × Root c α × Slab c α
  | 0, root, m => (.ok, root, m)
  | turns + 1, root, m =>
    match radixTreeNodeAlloc m with
    | (none, m) => (.enomem, root, m)
    | (some new, m) => extendLoop turns (extendNode root new) m

def radixTreeExtend (root : Root c α) (index : ℕ) (m : Slab c α) :
    Except Fault (Status × Root c α × Slab c α) := do
  let height ← extendHeight c index (c.maxPath + 1 - (root.height + 1)) (root.height + 1)
  match root.rnode with
  | .null => pure (.ok, { root with height := height }, m)
  | _ => pure (extendLoop (height - root.height) root m)

/-! ## Insertion -/

/-- `if (slot == NULL)` add a child node: the node to go down into, or none when
the allocation fails. -/
def insertNode (height : ℕ) (slot : Slot c α) (m : Slab c α) :
    Except Fault (Option (Node c α) × Slab c α) :=
  match slot with
  | .null =>
    match radixTreeNodeAlloc m with
    | (none, m) => .ok (none, m)
    | (some new, m) => .ok (some { new with height := height }, m)
  | .node n => .ok (some n, m)
  | .item _ => .error .badDeref

/-- Store `child` at `offset`; `count` goes up when the slot was empty and no
longer is. -/
def storeChild (n : Node c α) (offset : Fin c.mapSize) (child : Slot c α) : Node c α :=
  { n with
    slots := update n.slots offset child
    count := if (n.slots offset).isNull && !child.isNull then n.count + 1 else n.count }

/-- The loop of `radix_tree_insert` from `slot` at `height` down, with the
installation of the item at its end.  The `BUG_ON`s on the tags are those of the
node of height 1, after the item is stored. -/
def insertLoop (index : ℕ) (item : α) :
    (height : ℕ) → Slot c α → Slab c α → Except Fault (Status × Slot c α × Slab c α)
  | 0, slot, m =>
    match slot with
    | .null => .ok (.ok, .item item, m)
    | slot => .ok (.eexist, slot, m)
  | height + 1, slot, m => do
    let (node, m) ← insertNode (height + 1) slot m
    match node with
    | none => pure (.enomem, slot, m)
    | some n =>
      let offset := c.offset index (height + 1)
      let (status, child, m) ← insertLoop index item height (n.slots offset) m
      if height = 0 ∧ status = .ok ∧ (tagGet n 0 offset || tagGet n 1 offset) then
        .error .bugOn
      else pure (status, .node (storeChild n offset child), m)

def radixTreeInsert (root : Root c α) (index : ℕ) (item : α) (m : Slab c α) :
    Except Fault (Status × Root c α × Slab c α) := do
  let max ← radixTreeMaxindex c root.height
  let (error, root, m) ←
    if index > max then radixTreeExtend root index m else pure (.ok, root, m)
  if error = .ok then
    let (status, slot, m) ←
      insertLoop index item root.height (radixTreeIndirectToPtr root.rnode) m
    if root.height = 0 ∧ status = .ok ∧ (rootTagGet root 0 || rootTagGet root 1) then
      .error .bugOn
    else pure (status, { root with rnode := slot.toRnode }, m)
  else pure (error, root, m)

/-! ## Lookup -/

/-- The descent shared by the lookups: the slot `height` levels below, `NULL` as
soon as a level is missing. -/
def slotAt (index : ℕ) : (height : ℕ) → Slot c α → Except Fault (Slot c α)
  | 0, slot => .ok slot
  | height + 1, slot =>
    match slot with
    | .null => .ok .null
    | .node n => slotAt index height (n.slots (c.offset index (height + 1)))
    | .item _ => .error .badDeref

/-- A slot read as the `void *` handed to the caller. -/
def Slot.asItem : Slot c α → Except Fault (Option α)
  | .null => .ok none
  | .item a => .ok (some a)
  | .node _ => .error .badDeref

def radixTreeLookup (root : Root c α) (index : ℕ) : Except Fault (Option α) :=
  match root.rnode with
  | .null => .ok none
  | .direct a => .ok (if index > 0 then none else some a)
  | .indirect n => do
    let height := n.height
    let max ← radixTreeMaxindex c height
    if index > max then pure none
    else if height = 0 then .error .badDeref
    else do
      let slot ← slotAt index height (.node n)
      slot.asItem

def radixTreeNextHole (root : Root c α) (index : ℕ) : ℕ → Except Fault ℕ
  | 0 => .ok index
  | maxScan + 1 => do
    if (← radixTreeLookup root index).isNone then return index
    let index := (index + 1) % 2 ^ c.indexBits
    if index = 0 then return index
    radixTreeNextHole root index maxScan

/-! ## Setting, clearing and reading tags -/

/-- The loop of `radix_tree_tag_set`: the slot reached at the bottom, and the
tree below `slot` with the bits on the way set. -/
def tagSetLoop (index : ℕ) (tag : Tag) :
    (height : ℕ) → Slot c α → Except Fault (Slot c α × Slot c α)
  | 0, slot => .ok (slot, slot)
  | height + 1, slot =>
    match slot with
    | .node n => do
      let offset := c.offset index (height + 1)
      let n := if tagGet n tag offset then n else tagSet n tag offset
      if (n.slots offset).isNull then .error .bugOn
      else
        let (found, child) ← tagSetLoop index tag height (n.slots offset)
        pure (found, .node { n with slots := update n.slots offset child })
    | _ => .error .badDeref

def radixTreeTagSet (root : Root c α) (index : ℕ) (tag : Tag) :
    Except Fault (Option α × Root c α) := do
  let max ← radixTreeMaxindex c root.height
  if index > max then .error .bugOn
  else
    let (found, slot) ← tagSetLoop index tag root.height (radixTreeIndirectToPtr root.rnode)
    let root := { root with rnode := slot.toRnode }
    let root := if !found.isNull && !rootTagGet root tag then rootTagSet root tag else root
    let item ← found.asItem
    pure (item, root)

/-- The two loops of `radix_tree_tag_clear` below `slot`: the slot reached at the
bottom, the tree below `slot`, and whether the way up got past it without
`goto out`. -/
def tagClearLoop (index : ℕ) (tag : Tag) :
    (height : ℕ) → Slot c α → Except Fault (Slot c α × Slot c α × Bool)
  | 0, slot => .ok (slot, slot, !slot.isNull)
  | height + 1, slot =>
    match slot with
    | .null => .ok (.null, .null, false)
    | .item _ => .error .badDeref
    | .node n => do
      let offset := c.offset index (height + 1)
      let (found, child, climbing) ← tagClearLoop index tag height (n.slots offset)
      let n : Node c α := { n with slots := update n.slots offset child }
      if !climbing then pure (found, .node n, false)
      else if !tagGet n tag offset then pure (found, .node n, false)
      else
        let n := tagClear n tag offset
        pure (found, .node n, !anyTagSet n tag)

def radixTreeTagClear (root : Root c α) (index : ℕ) (tag : Tag) :
    Except Fault (Option α × Root c α) := do
  let max ← radixTreeMaxindex c root.height
  if index > max then pure (none, root)
  else
    let (found, slot, climbing) ←
      tagClearLoop index tag root.height (radixTreeIndirectToPtr root.rnode)
    let root := { root with rnode := slot.toRnode }
    let root := if climbing && rootTagGet root tag then rootTagClear root tag else root
    let item ← found.asItem
    pure (item, root)

/-- The loop of `radix_tree_tag_get`. -/
def tagGetLoop (index : ℕ) (tag : Tag) :
    (height : ℕ) → Slot c α → (sawUnsetTag : Bool) → Except Fault Bool
  | 0, _, _ => .error .badDeref
  | height + 1, slot, sawUnsetTag =>
    match slot with
    | .null => .ok false
    | .item _ => .error .badDeref
    | .node n =>
      let offset := c.offset index (height + 1)
      let sawUnsetTag := if !tagGet n tag offset then true else sawUnsetTag
      if height = 0 then
        let ret := tagGet n tag offset
        if ret && sawUnsetTag then .error .bugOn else .ok ret
      else tagGetLoop index tag height (n.slots offset) sawUnsetTag

def radixTreeTagGet (root : Root c α) (index : ℕ) (tag : Tag) : Except Fault Bool :=
  if !rootTagGet root tag then .ok false
  else
    match root.rnode with
    | .null => .ok false
    | .direct _ => .ok (index == 0)
    | .indirect n => do
      let max ← radixTreeMaxindex c n.height
      if index > max then pure false else tagGetLoop index tag n.height (.node n) false

def radixTreeTagged (root : Root c α) (tag : Tag) : Bool := rootTagGet root tag

/-! ## Shrinking and deletion -/

/-- `radix_tree_shrink`, by recursion on `root->height`; the nodes taken off the
top are freed. -/
def shrinkLoop :
    (height : ℕ) → Root c α → List (Node c α) → Except Fault (Root c α × List (Node c α))
  | 0, root, freed => .ok (root, freed)
  | height + 1, root, freed =>
    match root.rnode with
    | .indirect toFree =>
      if toFree.count ≠ 1 then .ok (root, freed)
      else if (toFree.slots c.slotZero).isNull then .ok (root, freed)
      else
        let newptr := (toFree.slots c.slotZero).toRnode
        let root := { root with rnode := newptr, height := height }
        let toFree := tagClear (tagClear toFree 0 c.slotZero) 1 c.slotZero
        let toFree : Node c α :=
          { toFree with slots := update toFree.slots c.slotZero .null, count := 0 }
        shrinkLoop height root (toFree :: freed)
    | _ => .error .bugOn

def radixTreeShrink (root : Root c α) (freed : List (Node c α)) :
    Except Fault (Root c α × List (Node c α)) :=
  shrinkLoop root.height root freed

/-- The freeing loop of `radix_tree_delete` below `slot`: the slot afterwards
(`NULL` when its node was freed), the nodes freed, and whether the loop got as
far as this node. -/
def deleteLoop (index : ℕ) :
    (height : ℕ) → Slot c α → Except Fault (Slot c α × List (Node c α) × Bool)
  | 0, _ => .ok (.null, [], true)
  | height + 1, slot =>
    match slot with
    | .node n => do
      let offset := c.offset index (height + 1)
      let (child, freed, _) ← deleteLoop index height (n.slots offset)
      let n : Node c α := { n with slots := update n.slots offset child }
      if child.isNull then
        let n : Node c α := { n with count := n.count - 1 }
        if n.count ≠ 0 then pure (.node n, freed, true) else pure (.null, n :: freed, true)
      else pure (.node n, freed, false)
    | _ => .error .badDeref

/-- `pathp->node` after the descent of `radix_tree_delete`: the node of height 1
on the path of `index`. -/
def leafNode (index : ℕ) : (height : ℕ) → Slot c α → Except Fault (Node c α)
  | 0, _ => .error .badDeref
  | height + 1, slot =>
    match slot with
    | .node n =>
      if height = 0 then .ok n
      else leafNode index height (n.slots (c.offset index (height + 1)))
    | _ => .error .badDeref

/-- `if (tag_get(pathp->node, tag, pathp->offset)) radix_tree_tag_clear(root, index, tag)`. -/
def deleteTagClear (root : Root c α) (index : ℕ) (tag : Tag) : Except Fault (Root c α) := do
  let leaf ← leafNode index root.height (radixTreeIndirectToPtr root.rnode)
  if tagGet leaf tag (c.offset index 1) then
    let (_, root) ← radixTreeTagClear root index tag
    pure root
  else pure root

def radixTreeDelete (root : Root c α) (index : ℕ) (freed : List (Node c α)) :
    Except Fault (Option α × Root c α × List (Node c α)) := do
  let max ← radixTreeMaxindex c root.height
  if index > max then pure (none, root, freed)
  else if root.height = 0 then
    let item ← (radixTreeIndirectToPtr root.rnode).asItem
    pure (item, { rootTagClearAll root with rnode := .null }, freed)
  else
    let slot ← slotAt index root.height (radixTreeIndirectToPtr root.rnode)
    if slot.isNull then pure (none, root, freed)
    else
      let item ← slot.asItem
      let root ← deleteTagClear root index 0
      let root ← deleteTagClear root index 1
      let (top, toFree, here) ←
        deleteLoop index root.height (radixTreeIndirectToPtr root.rnode)
      if top.isNull then
        pure (item, { rootTagClearAll root with height := 0, rnode := .null }, toFree ++ freed)
      else
        let root := { root with rnode := top.toRnode }
        if here then
          let (root, freed) ← radixTreeShrink root (toFree ++ freed)
          pure (item, root, freed)
        else pure (item, root, toFree ++ freed)

end Gp2xKernel.RadixTree
