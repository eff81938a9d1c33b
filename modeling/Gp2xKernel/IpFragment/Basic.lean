import Gp2xKernel.Library.Segments
import Mathlib.Data.BitVec

/-!
# Reassembly of IPv4 fragments

`ip_frag_queue` puts a fragment into the queue of its datagram: it notes the length of the datagram
if it can, cuts off what the fragment before it has already, cuts or drops the fragments behind it
that it overlaps, and calls `ip_frag_reasm` when the counts say that nothing is missing.

What depends on other parts of the kernel is given from outside: whether memory can be had, whether
the timer of the queue is still pending, and how many fragments of the same sender have come by.

## Main definitions

* `Skb`: a fragment as it arrives, `Frag`: a fragment in the queue, `Ipq`: the queue
* `ipFragTooFar`, `ipFragReinit`: a queue that lags behind is started again
* `ipFragQueue`, `ipFragReasm`: the functions
-/

namespace Gp2xKernel.IpFragment

open Library

/-- A byte. -/
abbrev Byte := BitVec 8

/-- A fragment as it arrives: `ntohs(frag_off)`, the length of its header, the bytes behind the
header, and the flag `IPSKB_FRAG_COMPLETE`. -/
structure Skb where
  fragOff : BitVec 16
  ihl : ℕ
  payload : List Byte
  fragComplete : Bool

/-- A fragment in the queue: its bytes, at `FRAG_CB(skb)->offset`, and the length of its header. -/
structure Frag where
  seg : Segment Byte
  ihl : ℕ

/-- `struct ipq`, with the flags of `last_in`. -/
structure Ipq where
  fragments : List Frag
  len : ℕ
  meat : ℤ
  firstIn : Bool
  lastIn : Bool
  complete : Bool
  rid : BitVec 32

/-- What the rest of the kernel contributes: the new value of `peer->rid`, if there is a peer and
the check is on, `sysctl_ipfrag_max_dist`, and whether the timer was pending. -/
structure Env where
  peerRid : Option (BitVec 32)
  maxDist : BitVec 32
  timerPending : Bool

/-- Which of the calls that may need memory succeed: `pskb_pull` of the header,
`pskb_trim_rcsum`, and `pskb_pull` of the overlap with the fragment before and behind. -/
structure Memory where
  pullHeader : Bool
  trim : Bool
  pullPrev : Bool
  pullNext : Bool

/-- The errors that are returned. -/
inductive Errno
  | enoent
  | etimedout
  | einval
  | enomem
  | e2big
  deriving DecidableEq

/-- How `ip_frag_queue` ends: with an error, with `-EINPROGRESS`, or with a call of
`ip_frag_reasm`. -/
inductive Outcome
  | error (e : Errno)
  | inProgress
  | reasm
  deriving DecidableEq

/-- The fragment has become part of the queue. -/
def Outcome.accepted : Outcome → Bool
  | .error _ => false
  | .inProgress => true
  | .reasm => true

def IP_OFFSET : BitVec 16 := 0x1FFF

def IP_MF : BitVec 16 := 0x2000

/-! ## Where a fragment belongs -/

namespace Skb

/-- `offset`, in bytes. -/
def offset (skb : Skb) : ℕ := (skb.fragOff &&& IP_OFFSET).toNat <<< 3

/-- `flags & IP_MF` -/
def moreFragments (skb : Skb) : Bool := skb.fragOff &&& ~~~IP_OFFSET &&& IP_MF ≠ 0

/-- `end`, before it is rounded. -/
def rawEnd (skb : Skb) : ℕ := skb.offset + skb.payload.length

/-- `end`: that of a fragment that is not the last is a multiple of 8. -/
def fragEnd (skb : Skb) : ℕ :=
  if skb.moreFragments then skb.rawEnd / 8 * 8 else skb.rawEnd

/-- The bytes that the fragment brings, at their positions. -/
def segment (skb : Skb) : Segment Byte := ⟨skb.offset, skb.payload⟩

end Skb

/-! ## A queue that lags behind -/

def ipFragTooFar (env : Env) (qp : Ipq) : Bool × Ipq :=
  match env.peerRid with
  | none => (false, qp)
  | some last => (!qp.fragments.isEmpty && decide (last - qp.rid > env.maxDist),
      { qp with rid := last })

/-- `ip_frag_reinit`, when the timer was pending -/
def ipFragReinit (qp : Ipq) : Ipq :=
  { qp with fragments := [], len := 0, meat := 0, firstIn := false, lastIn := false,
            complete := false }

def ipqKill (qp : Ipq) : Ipq := { qp with complete := true }

/-- What becomes of a fragment at the start of `ip_frag_queue`: it is refused, or it goes to the
queue, which may have been started again. -/
inductive Admission
  | refused (e : Errno) (qp : Ipq)
  | toQueue (qp : Ipq)
  | restarted (qp : Ipq)

/-- The start of `ip_frag_queue`. -/
def admission (env : Env) (qp : Ipq) (skb : Skb) : Admission :=
  if qp.complete then .refused .enoent qp
  else if skb.fragComplete then .toQueue qp
  else if (ipFragTooFar env qp).1 then
    if env.timerPending then .restarted (ipFragReinit (ipFragTooFar env qp).2)
    else .refused .etimedout (ipqKill (ipFragTooFar env qp).2)
  else .toQueue (ipFragTooFar env qp).2

/-! ## The queue -/

/-- Note the length of the datagram, or find out that the fragment is corrupted. -/
def noteEnd (qp : Ipq) (skb : Skb) : Option Ipq :=
  if skb.moreFragments = false then
    if skb.fragEnd < qp.len ∨ qp.lastIn = true ∧ skb.fragEnd ≠ qp.len then none
    else some { qp with lastIn := true, len := skb.fragEnd }
  else if skb.fragEnd > qp.len then
    if qp.lastIn then none else some { qp with len := skb.fragEnd }
  else some qp

/-- The fragments in front of the place for a fragment at `offset`. -/
def inFront (qp : Ipq) (offset : ℕ) : List Frag :=
  qp.fragments.takeWhile fun f => f.seg.start < offset

/-- The fragments from that place on. -/
def behind (qp : Ipq) (offset : ℕ) : List Frag :=
  qp.fragments.dropWhile fun f => f.seg.start < offset

/-- How many bytes the fragment before has of those from `offset` on. -/
def overlap (prev : Option Frag) (offset : ℕ) : ℤ :=
  match prev with
  | none => 0
  | some f => (f.seg.start + f.seg.data.length : ℤ) - offset

/-- What is left of the fragments behind one that ends at `fin`, the change of `meat`, and whether
memory could be had. -/
structure Eaten where
  rest : List Frag
  meat : ℤ
  ok : Bool

/-- The loop over the fragments that are overlapped. -/
def eatNext (pullNext : Bool) (fin : ℕ) : List Frag → ℤ → Eaten
  | [], meat => ⟨[], meat, true⟩
  | next :: rest, meat =>
    if next.seg.start < fin then
      if fin - next.seg.start < next.seg.data.length then
        if pullNext then
          ⟨{ next with seg := next.seg.cut (fin - next.seg.start) } :: rest,
            meat - (fin - next.seg.start : ℕ), true⟩
        else ⟨next :: rest, meat, false⟩
      else eatNext pullNext fin rest (meat - next.seg.data.length)
    else ⟨next :: rest, meat, true⟩

/-- The end of `ip_frag_queue`: the fragment is inserted. -/
def insertFrag (qp : Ipq) (front : List Frag) (f : Frag) (eaten : Eaten) : Ipq :=
  { qp with
    fragments := front ++ f :: eaten.rest
    meat := eaten.meat + f.seg.data.length
    firstIn := qp.firstIn || decide (f.seg.start = 0) }

/-- Whether `ip_frag_reasm` is called. -/
def finished (qp : Ipq) : Outcome :=
  if qp.firstIn = true ∧ qp.lastIn = true ∧ qp.complete = false ∧ qp.meat = qp.len then .reasm
  else .inProgress

/-- From the loop over the fragments that are overlapped on; `front` are the fragments in front. -/
def placeFrag (mem : Memory) (qp : Ipq) (front back : List Frag) (f : Frag) (fin : ℕ) :
    Outcome × Ipq :=
  if (eatNext mem.pullNext fin back qp.meat).ok then
    (finished (insertFrag qp front f (eatNext mem.pullNext fin back qp.meat)),
      insertFrag qp front f (eatNext mem.pullNext fin back qp.meat))
  else
    (.error .enomem, { qp with
      fragments := front ++ (eatNext mem.pullNext fin back qp.meat).rest
      meat := (eatNext mem.pullNext fin back qp.meat).meat })

/-- The fragment, trimmed to its end, without its first `i` bytes. -/
def trimmed (skb : Skb) (i : ℕ) : Frag :=
  ⟨Segment.cut ⟨skb.offset, skb.payload.take (skb.fragEnd - skb.offset)⟩ i, skb.ihl⟩

/-- From the search for the place of the fragment on. -/
def findPlace (mem : Memory) (qp : Ipq) (skb : Skb) : Outcome × Ipq :=
  if overlap (inFront qp skb.offset).getLast? skb.offset > 0 then
    if (skb.fragEnd : ℤ) ≤ skb.offset + overlap (inFront qp skb.offset).getLast? skb.offset then
      (.error .einval, qp)
    else if mem.pullPrev = false then (.error .enomem, qp)
    else
      placeFrag mem qp (inFront qp skb.offset) (behind qp skb.offset)
        (trimmed skb (overlap (inFront qp skb.offset).getLast? skb.offset).toNat) skb.fragEnd
  else
    placeFrag mem qp (inFront qp skb.offset) (behind qp skb.offset) (trimmed skb 0) skb.fragEnd

/-- `ip_frag_queue` after the length has been noted. -/
def queueNoted (mem : Memory) (qp : Ipq) (skb : Skb) : Outcome × Ipq :=
  if skb.fragEnd = skb.offset then (.error .einval, qp)
  else if mem.pullHeader = false then (.error .enomem, qp)
  else if mem.trim = false then (.error .enomem, qp)
  else findPlace mem qp skb

/-- `ip_frag_queue` for a fragment that goes to the queue. -/
def queueFrag (mem : Memory) (qp : Ipq) (skb : Skb) : Outcome × Ipq :=
  match noteEnd qp skb with
  | none => (.error .einval, qp)
  | some noted => queueNoted mem noted skb

/-- `ip_frag_queue`, up to the call of `ip_frag_reasm` -/
def ipFragQueue (env : Env) (mem : Memory) (qp : Ipq) (skb : Skb) : Outcome × Ipq :=
  match admission env qp skb with
  | .refused e qp => (.error e, qp)
  | .toQueue qp => queueFrag mem qp skb
  | .restarted qp => queueFrag mem qp skb

/-- `ip_frag_reasm`: the bytes behind the header of the datagram, or an error.  There may be no
memory before the size is checked, or after.  The queue is killed in any case. -/
def ipFragReasm (memory : Bool × Bool) (qp : Ipq) : Except Errno (List Byte) × Ipq :=
  if memory.1 = false then (.error .enomem, ipqKill qp)
  else if (qp.fragments.head?.map Frag.ihl).getD 0 + qp.len > 65535 then (.error .e2big, ipqKill qp)
  else if memory.2 = false then (.error .enomem, ipqKill qp)
  else
    (.ok (qp.fragments.flatMap fun f => f.seg.data), { ipqKill qp with fragments := [] })

end Gp2xKernel.IpFragment
