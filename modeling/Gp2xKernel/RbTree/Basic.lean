import Gp2xKernel.Library.LinkedTree

/-!
# Red-black trees of `lib/rbtree.c`

The nodes live in a memory, addressed by pointers aligned to four bytes; the two low bits
of the first word of a node are free, and bit 0 stores the colour next to the address of
the parent.  Dereferencing an address that holds no node, the NULL pointer among them,
makes an operation fail (`none`), and so does running a loop longer than the given number
of turns.

The bodies of the fix-up loops come in two mirror images.  Each is written once, for a
`Side`, and used at `.left` and `.right`.

## Main definitions

* `RbNode`, `Mem`: `struct rb_node` with its packed word, and a memory of nodes together
  with the root pointer.
* `rbLinkNode`, `rbRotateLeft`, `rbRotateRight`, `rbInsertColor`, `rbEraseColor`,
  `rbErase`: the functions of the source.
-/

namespace Gp2xKernel.RbTree

open Library (Side Cell Heap)

/-- A pointer to a `struct rb_node`, aligned so that its two low bits are clear. -/
abbrev Ptr (w : ℕ) := { a : BitVec w // a &&& 3 = 0 }

variable {w : ℕ}

/-- `NULL`. -/
def null : Ptr w := ⟨0, by simp⟩

/-- The colour of a node: `RB_RED` is 0 and `RB_BLACK` is 1. -/
inductive Color
  | red
  | black
  deriving DecidableEq, Repr

/-- The integer a colour is stored as. -/
def Color.bit : Color → BitVec w
  | .red => 0
  | .black => 1

/-- `struct rb_node`. -/
structure RbNode (w : ℕ) where
  rbParentColor : BitVec w
  rbRight : Ptr w
  rbLeft : Ptr w
  deriving DecidableEq

namespace RbNode

/-- `rb_parent(r)`. -/
def rbParent (n : RbNode w) : Ptr w :=
  ⟨n.rbParentColor &&& ~~~3, by rw [BitVec.and_assoc, BitVec.and_comm (~~~3)]; simp⟩

/-- `rb_color(r)`. -/
def rbColor (n : RbNode w) : Color := if n.rbParentColor &&& 1 = 0 then .red else .black

/-- `rb_set_red(r)`. -/
def rbSetRed (n : RbNode w) : RbNode w := { n with rbParentColor := n.rbParentColor &&& ~~~1 }

/-- `rb_set_black(r)`. -/
def rbSetBlack (n : RbNode w) : RbNode w := { n with rbParentColor := n.rbParentColor ||| 1 }

/-- `rb_set_parent(rb, p)`. -/
def rbSetParent (p : Ptr w) (n : RbNode w) : RbNode w :=
  { n with rbParentColor := (n.rbParentColor &&& 3) ||| p.val }

/-- `rb_set_color(rb, color)`. -/
def rbSetColor (c : Color) (n : RbNode w) : RbNode w :=
  { n with rbParentColor := (n.rbParentColor &&& ~~~1) ||| c.bit }

/-- The pointer to the child on a side. -/
def child (d : Side) (n : RbNode w) : Ptr w :=
  match d with
  | .left => n.rbLeft
  | .right => n.rbRight

/-- Assign to the pointer to the child on a side. -/
def setChild (d : Side) (x : Ptr w) (n : RbNode w) : RbNode w :=
  match d with
  | .left => { n with rbLeft := x }
  | .right => { n with rbRight := x }

end RbNode

/-- The memory an rbtree lives in: the nodes, and the field `rb_node` of `struct rb_root`.
No node is at address NULL. -/
structure Mem (w : ℕ) where
  heap : Ptr w → Option (RbNode w)
  rbNode : Ptr w
  null_unmapped : heap null = none

namespace Mem

/-- Apply an assignment to the node at `a`. -/
def assign (m : Mem w) (a : Ptr w) (f : RbNode w → RbNode w) : Option (Mem w) :=
  if (m.heap a).isSome then
    some { m with
      heap := Function.update m.heap a ((m.heap a).map f)
      null_unmapped := by
        by_cases ha : null = a
        · rw [← ha, Function.update_self, m.null_unmapped, Option.map_none]
        · rw [Function.update_of_ne ha, m.null_unmapped] }
  else none

def rbParent (m : Mem w) (a : Ptr w) : Option (Ptr w) := (m.heap a).map RbNode.rbParent
def rbColor (m : Mem w) (a : Ptr w) : Option Color := (m.heap a).map RbNode.rbColor
def child (d : Side) (m : Mem w) (a : Ptr w) : Option (Ptr w) := (m.heap a).map (RbNode.child d)

def rbSetRed (m : Mem w) (a : Ptr w) : Option (Mem w) := m.assign a RbNode.rbSetRed
def rbSetBlack (m : Mem w) (a : Ptr w) : Option (Mem w) := m.assign a RbNode.rbSetBlack
def rbSetParent (m : Mem w) (a p : Ptr w) : Option (Mem w) := m.assign a (RbNode.rbSetParent p)
def rbSetColor (m : Mem w) (a : Ptr w) (c : Color) : Option (Mem w) :=
  m.assign a (RbNode.rbSetColor c)
def setChild (d : Side) (m : Mem w) (a x : Ptr w) : Option (Mem w) :=
  m.assign a (RbNode.setChild d x)

/-- `p && rb_is_red(p)`; its negation is `!p || rb_is_black(p)`. -/
def redAt (m : Mem w) (a : Ptr w) : Option Bool :=
  if a = null then some false else do return (← m.rbColor a) = .red

/-- `if (p) rb_set_parent(p, parent)`. -/
def setParentIf (m : Mem w) (a p : Ptr w) : Option (Mem w) :=
  if a ≠ null then m.rbSetParent a p else some m

/-- `if (p) rb_set_black(p)`. -/
def setBlackIf (m : Mem w) (a : Ptr w) : Option (Mem w) :=
  if a ≠ null then m.rbSetBlack a else some m

/-- The block that makes the parent of `old`, or the root, point at `new` instead; the
child pointer compared with `old` first is the one on side `d`. -/
def changeChild (d : Side) (m : Mem w) (parent old new : Ptr w) : Option (Mem w) :=
  if parent ≠ null then do
    if old = (← m.child d parent) then m.setChild d parent new
    else m.setChild d.flip parent new
  else some { m with rbNode := new }

end Mem

/-- A `struct rb_node **`: the address of the root pointer or of a child pointer. -/
inductive Link (w : ℕ)
  | root
  | child (d : Side) (parent : Ptr w)

def rbLinkNode (m : Mem w) (node parent : Ptr w) (rbLink : Link w) : Option (Mem w) := do
  let m ← m.assign node fun n =>
    { n with rbParentColor := parent.val, rbRight := null, rbLeft := null }
  match rbLink with
  | .root => some { m with rbNode := node }
  | .child d p => m.setChild d p node

/-- The body of `__rb_rotate_left` at `.left` and of `__rb_rotate_right` at `.right`. -/
def rbRotate (d : Side) (m : Mem w) (node : Ptr w) : Option (Mem w) := do
  let right ← m.child d.flip node
  let parent ← m.rbParent node
  let inner ← m.child d right
  let m ← m.setChild d.flip node inner
  let m ← m.setParentIf inner node
  let m ← m.setChild d right node
  let m ← m.rbSetParent right parent
  let m ← m.changeChild d parent node right
  m.rbSetParent node right

/-- `__rb_rotate_left`. -/
def rbRotateLeft (m : Mem w) (node : Ptr w) : Option (Mem w) := rbRotate .left m node

/-- `__rb_rotate_right`. -/
def rbRotateRight (m : Mem w) (node : Ptr w) : Option (Mem w) := rbRotate .right m node

/-- The body of the loop of `rb_insert_color` when `parent` is the child of `gparent` on
side `d`; the result carries the next value of `node`. -/
def insertFix (d : Side) (m : Mem w) (node parent gparent : Ptr w) :
    Option (Mem w × Ptr w) := do
  let uncle ← m.child d.flip gparent
  if ← m.redAt uncle then
    let m ← m.rbSetBlack uncle
    let m ← m.rbSetBlack parent
    let m ← m.rbSetRed gparent
    return (m, gparent)
  else
    let (m, parent, node) ←
      if (← m.child d.flip parent) = node then do
        let m ← rbRotate d m parent
        pure (m, node, parent)
      else pure (m, parent, node)
    let m ← m.rbSetBlack parent
    let m ← m.rbSetRed gparent
    let m ← rbRotate d.flip m gparent
    return (m, node)

/-- The loop of `rb_insert_color`, for at most the given number of turns. -/
def insertLoop : ℕ → Mem w → Ptr w → Option (Mem w)
  | 0, _, _ => none
  | turns + 1, m, node => do
    let parent ← m.rbParent node
    if ← m.redAt parent then
      let gparent ← m.rbParent parent
      let side := if parent = (← m.child .left gparent) then Side.left else Side.right
      let (m, node) ← insertFix side m node parent gparent
      insertLoop turns m node
    else
      return m

def rbInsertColor (turns : ℕ) (m : Mem w) (node : Ptr w) : Option (Mem w) := do
  let m ← insertLoop turns m node
  m.rbSetBlack m.rbNode

/-- The block of `__rb_erase_color` for a red sibling `other`, which rotates a black node
into its place. -/
def eraseRedSibling (d : Side) (m : Mem w) (parent other : Ptr w) :
    Option (Mem w × Ptr w) := do
  if (← m.rbColor other) = .red then
    let m ← m.rbSetBlack other
    let m ← m.rbSetRed parent
    let m ← rbRotate d m parent
    return (m, ← m.child d.flip parent)
  else
    return (m, other)

/-- The block of `__rb_erase_color` for a black outer child of `other`, which rotates the
red inner child outwards. -/
def eraseInnerNephew (d : Side) (m : Mem w) (parent other : Ptr w) :
    Option (Mem w × Ptr w) := do
  if !(← m.redAt (← m.child d.flip other)) then
    let m ← m.setBlackIf (← m.child d other)
    let m ← m.rbSetRed other
    let m ← rbRotate d.flip m other
    return (m, ← m.child d.flip parent)
  else
    return (m, other)

/-- The block of `__rb_erase_color` for a red outer child of `other`: the rotation that
ends the loop. -/
def eraseRotate (d : Side) (m : Mem w) (parent other : Ptr w) : Option (Mem w) := do
  let m ← m.rbSetColor other (← m.rbColor parent)
  let m ← m.rbSetBlack parent
  let m ← m.setBlackIf (← m.child d.flip other)
  rbRotate d m parent

/-- The body of the loop of `__rb_erase_color` when `node` is the child of `parent` on
side `d`.  The result carries the next value of `node` and, unless the loop is left by
`break`, of `parent`. -/
def eraseFix (d : Side) (m : Mem w) (parent : Ptr w) :
    Option (Mem w × Ptr w × Option (Ptr w)) := do
  let other ← m.child d.flip parent
  let (m, other) ← eraseRedSibling d m parent other
  if !(← m.redAt (← m.child .left other)) && !(← m.redAt (← m.child .right other)) then
    let m ← m.rbSetRed other
    return (m, parent, some (← m.rbParent parent))
  else
    let (m, other) ← eraseInnerNephew d m parent other
    let m ← eraseRotate d m parent other
    return (m, m.rbNode, none)

/-- The loop of `__rb_erase_color`, for at most the given number of turns, and the final
`if (node) rb_set_black(node)`. -/
def rbEraseColor : ℕ → Mem w → Ptr w → Ptr w → Option (Mem w)
  | 0, _, _, _ => none
  | turns + 1, m, node, parent => do
    if !(← m.redAt node) && node ≠ m.rbNode then
      let side := if (← m.child .left parent) = node then Side.left else Side.right
      match ← eraseFix side m parent with
      | (m, node, some parent) => rbEraseColor turns m node parent
      | (m, node, none) => m.setBlackIf node
    else
      m.setBlackIf node

/-- `while ((left = node->rb_left) != NULL) node = left;`, for at most the given number of
turns. -/
def leftmost : ℕ → Mem w → Ptr w → Option (Ptr w)
  | 0, _, _ => none
  | turns + 1, m, node => do
    let left ← m.child .left node
    if left ≠ null then leftmost turns m left else return node

/-- The part of `rb_erase` that takes a node with at most one child out of the tree. -/
def eraseOnlyChild (turns : ℕ) (m : Mem w) (node child : Ptr w) : Option (Mem w) := do
  let parent ← m.rbParent node
  let color ← m.rbColor node
  let m ← m.setParentIf child parent
  let m ← m.changeChild .left parent node child
  if color = .black then rbEraseColor turns m child parent else return m

/-- The block of `rb_erase` in which `node` takes the place of `old`: it copies the three
words of `old` and redirects the neighbours of `old`. -/
def takePlace (m : Mem w) (old node : Ptr w) : Option (Mem w) := do
  let o ← m.heap old
  let m ← m.assign node fun n =>
    { n with rbParentColor := o.rbParentColor, rbRight := o.rbRight, rbLeft := o.rbLeft }
  let m ← m.changeChild .left (← m.rbParent old) old node
  let m ← m.rbSetParent (← m.child .left old) node
  m.setParentIf (← m.child .right old) node

/-- The part of `rb_erase` that puts the successor of a node with two children in its
place. -/
def eraseSuccessor (turns : ℕ) (m : Mem w) (old : Ptr w) : Option (Mem w) := do
  let node ← leftmost turns m (← m.child .right old)
  let child ← m.child .right node
  let parent ← m.rbParent node
  let color ← m.rbColor node
  let m ← m.setParentIf child parent
  let (m, parent) ←
    if parent = old then do pure (← m.setChild .right parent child, node)
    else do pure (← m.setChild .left parent child, parent)
  let m ← takePlace m old node
  if color = .black then rbEraseColor turns m child parent else return m

def rbErase (turns : ℕ) (m : Mem w) (node : Ptr w) : Option (Mem w) := do
  let left ← m.child .left node
  let right ← m.child .right node
  if left = null then eraseOnlyChild turns m node right
  else if right = null then eraseOnlyChild turns m node left
  else eraseSuccessor turns m node

end Gp2xKernel.RbTree
