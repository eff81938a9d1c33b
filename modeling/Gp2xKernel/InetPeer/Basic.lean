import Mathlib.Data.BitVec
import Gp2xKernel.Library.DownTree

/-!
# The pool of inet peers

`net/ipv4/inetpeer.c` keeps the peers in a tree that is linked through `avl_left` and `avl_right`.
The operations record the pointers that they follow on a stack, and rebalance the tree on the way
back.  The stack is a list here, with the pointer that was recorded last in front; the C code has
room for `PEER_MAXDEPTH` of them.

The empty tree is the address of a node of its own, `peer_fake_node`, with the height zero.  The
loops take a bound on the number of their turns, and fail when they need more; the conditions of
`BUG` and `BUG_ON` also make an operation fail.

The list of unused peers, and the fields of a peer that have nothing to do with the pool, are not
modelled.

## Main definitions

* `Pool`: the peers, the root, and `peer_total`
* `rebalanceAt`, `peerAvlRebalance`: rebalancing at one pointer, and along the stack
* `lookup`, `lookupRightempty`: the two searches
* `getpeerFind`, `getpeerLink`: the parts of `inet_getpeer` under the two locks
* `unlinkFromPool`: removing a peer
-/

namespace Gp2xKernel.InetPeer

open Library

/-- The fields of `struct inet_peer`, apart from the pointers to the subtrees. -/
structure PeerData where
  avlHeight : ℕ
  v4daddr : BitVec 32
  refcnt : ℤ
  deriving DecidableEq

/-- The peers in memory and `peer_root`. -/
abbrev Peers := DownMem ℕ PeerData

/-- The pool: the peers, and `peer_total`, an `int`; there are fewer than `2 ^ 31` peers. -/
structure Pool where
  mem : Peers
  peerTotal : ℤ

def peerAvlEmpty : ℕ := 0

/-- `PEER_MAXDEPTH` -/
def peerMaxdepth : ℕ := 40

/-- A value that is stored in a field of type `__u16`. -/
def u16 (n : ℕ) : ℕ := n % 2 ^ 16

/-! ## Rebalancing -/

def nodeHeight (m : Peers) (a : ℕ) : ℕ := (m.heap a).data.avlHeight

/-- Assignments to `avl_left`, `avl_right` and `avl_height` of a node. -/
def setNode (m : Peers) (d : Side) (a near far height : ℕ) : Peers :=
  m.set a (.join d near far { (m.heap a).data with avlHeight := u16 height })

/-- The rotations of `peer_avl_rebalance`.  The names are those of the case where the left subtree
is too high, which is the case `d = left`. -/
def rotate (m : Peers) (d : Side) (nodep : Link ℕ) (node l r rh : ℕ) : Peers :=
  let ll := (m.heap l).child d
  let lr := (m.heap l).child d.flip
  let lrh := nodeHeight m lr
  if lrh ≤ nodeHeight m ll then
    let m := setNode m d node lr r (lrh + 1)
    let m := setNode m d l ll node (nodeHeight m node + 1)
    m.write nodep l
  else
    let lrl := (m.heap lr).child d
    let lrr := (m.heap lr).child d.flip
    let m := setNode m d node lrr r (rh + 1)
    let m := setNode m d l ll lrl (rh + 1)
    let m := setNode m d lr l node (rh + 2)
    m.write nodep lr

/-- One turn of the loop of `peer_avl_rebalance`. -/
def rebalanceAt (m : Peers) (nodep : Link ℕ) : Peers :=
  let node := m.read nodep
  let l := (m.heap node).left
  let r := (m.heap node).right
  let lh := nodeHeight m l
  let rh := nodeHeight m r
  if lh > rh + 1 then rotate m .left nodep node l r rh
  else if rh > lh + 1 then rotate m .right nodep node r l lh
  else
    m.set node { m.heap node with
      data.avlHeight := u16 ((if lh > rh then lh else rh) + 1) }

def peerAvlRebalance (m : Peers) (stack : List (Link ℕ)) : Peers := stack.foldl rebalanceAt m

/-! ## Searching -/

/-- The loop of `lookup`. -/
def lookupLoop (m : Peers) (daddr : BitVec 32) :
    ℕ → ℕ → List (Link ℕ) → Option (ℕ × List (Link ℕ))
  | turns, u, stack =>
    if u = peerAvlEmpty ∨ daddr = (m.heap u).data.v4daddr then some (u, stack)
    else match turns with
      | 0 => none
      | turns + 1 =>
        let v := Link.child (if daddr < (m.heap u).data.v4daddr then .left else .right) u
        lookupLoop m daddr turns (m.read v) (v :: stack)

def lookup (turns : ℕ) (m : Peers) (daddr : BitVec 32) : Option (ℕ × List (Link ℕ)) :=
  lookupLoop m daddr turns m.root [.root]

/-- The loop of `lookup_rightempty`. -/
def rightemptyLoop (m : Peers) : ℕ → ℕ → List (Link ℕ) → Option (ℕ × List (Link ℕ))
  | turns, u, stack =>
    if (m.heap u).right = peerAvlEmpty then some (u, stack)
    else match turns with
      | 0 => none
      | turns + 1 => rightemptyLoop m turns (m.heap u).right (.child .right u :: stack)

def lookupRightempty (turns : ℕ) (m : Peers) (start : ℕ) (stack : List (Link ℕ)) :
    Option (ℕ × List (Link ℕ)) :=
  rightemptyLoop m turns (m.heap start).left (.child .left start :: stack)

/-! ## The operations -/

/-- What an operation leaves: the pool, the peer that it returns, and the length of the recorded
path. -/
structure Done where
  pool : Pool
  peer : ℕ
  path : ℕ

/-- An atomic operation on the reference counter of a peer. -/
def addRefcnt (m : Peers) (p : ℕ) (z : ℤ) : Peers :=
  m.set p { m.heap p with data.refcnt := (m.heap p).data.refcnt + z }

/-- The first part of `inet_getpeer`: a lookup without a stack. -/
def getpeerFind (turns : ℕ) (pool : Pool) (daddr : BitVec 32) : Option Done := do
  let (p, _) ← lookup turns pool.mem daddr
  if p = peerAvlEmpty then some ⟨pool, p, 0⟩
  else some ⟨{ pool with mem := addRefcnt pool.mem p 1 }, p, 0⟩

def linkToPool (m : Peers) (n : ℕ) (stack : List (Link ℕ)) : Peers :=
  let m := setNode m .left n peerAvlEmpty peerAvlEmpty 1
  let m := m.write (stack.headD .root) n
  peerAvlRebalance m stack.tail

/-- The second part of `inet_getpeer`: the new node `n` is linked, unless an entry for the address
has appeared in the meantime. -/
def getpeerLink (turns : ℕ) (pool : Pool) (daddr : BitVec 32) (n : ℕ) : Option Done := do
  let m := pool.mem.set n { pool.mem.heap n with
    data.v4daddr := daddr
    data.refcnt := 1 }
  let (p, stack) ← lookup turns m daddr
  if p ≠ peerAvlEmpty then
    some ⟨{ pool with mem := addRefcnt pool.mem p 1 }, p, stack.length⟩
  else some ⟨⟨linkToPool m n stack, pool.peerTotal + 1⟩, n, stack.length⟩

/-- `t` takes the place of `p`: the assignments after the search for `t`.  The stack is the one
before the search, and `stack'` the one after it. -/
def replacePeer (m : Peers) (p t : ℕ) (stack stack' : List (Link ℕ)) :
    Option (Peers × List (Link ℕ)) :=
  let delp := stack.headD .root
  let second := stack'.length - stack.length - 1
  if m.read (stack'.headD .root) ≠ t then none
  else
    let m := m.write (stack'.headD .root) (m.heap t).left
    let m := m.write delp t
    let m := m.set t { m.heap t with
      left := (m.heap p).left
      right := (m.heap p).right
      data.avlHeight := (m.heap p).data.avlHeight }
    if stack'[second]? ≠ some (.child .left p) then none
    else some (m, stack'.set second (.child .left t))

def unlinkFromPool (turns : ℕ) (pool : Pool) (p : ℕ) : Option Done :=
  let m := pool.mem
  if (m.heap p).data.refcnt = 1 then do
    let (u, stack) ← lookup turns m (m.heap p).data.v4daddr
    if u ≠ p then none
    else if (m.heap p).left = peerAvlEmpty then
      let m := m.write (stack.headD .root) (m.heap p).right
      some ⟨⟨peerAvlRebalance m stack.tail, pool.peerTotal - 1⟩, p, stack.length⟩
    else do
      let (t, stack') ← lookupRightempty turns m p stack
      let (m, stack'') ← replacePeer m p t stack stack'
      some ⟨⟨peerAvlRebalance m stack''.tail, pool.peerTotal - 1⟩, p, stack'.length⟩
  else some ⟨{ pool with mem := addRefcnt m p (-1) }, p, 0⟩

end Gp2xKernel.InetPeer
