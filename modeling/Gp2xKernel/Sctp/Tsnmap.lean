import Mathlib.Data.BitVec

/-!
# The map of received transmission sequence numbers

`net/sctp/tsnmap.c`: two arrays of `len` bytes, one for the sequence numbers from `base_tsn` on, and
one for those behind them.  When the cumulative point reaches the end of the first array, the arrays
are exchanged.

## Main definitions

* `TsnMap`: the map
* `sctpTsnmapCheck`, `sctpTsnmapMark`, `sctpTsnmapSkip`: the operations on it
* `sctpTsnmapNextGapAck`, `gapAcks`: the iterator over the blocks above the cumulative point
-/

namespace Gp2xKernel.Sctp

/-- `struct sctp_tsnmap` -/
structure TsnMap where
  tsnMap : List (BitVec 8)
  overflowTsn : BitVec 32
  overflowMap : List (BitVec 8)
  baseTsn : BitVec 32
  cumulativeTsnAckPoint : BitVec 32
  len : BitVec 16
  maxTsnSeen : BitVec 32

/-- `TSN_lt`: the sign bit of the difference. -/
def tsnLt (s t : BitVec 32) : Bool := (s - t).msb

/-- `TSN_lte` -/
def tsnLte (s t : BitVec 32) : Bool := s == t || (s - t).msb

/-- `memset` of the first `n` bytes. -/
def memset (xs : List (BitVec 8)) (v : BitVec 8) (n : ℕ) : List (BitVec 8) :=
  List.replicate n v ++ xs.drop n

/-- `map->len` in 32-bit arithmetic. -/
def TsnMap.len32 (map : TsnMap) : BitVec 32 := map.len.setWidth 32

def sctpTsnmapInit (len : BitVec 16) (initialTsn : BitVec 32) : TsnMap where
  tsnMap := List.replicate len.toNat 0
  overflowMap := List.replicate len.toNat 0
  len := len
  baseTsn := initialTsn
  overflowTsn := initialTsn + len.setWidth 32
  cumulativeTsnAckPoint := initialTsn - 1
  maxTsnSeen := initialTsn - 1

def sctpTsnmapCheck (map : TsnMap) (tsn : BitVec 32) : ℤ :=
  let gap := (tsn - map.baseTsn).toInt
  if gap ≥ map.len.toNat + map.len.toNat then -1
  else if gap < 0 ∨ (gap < map.len.toNat ∧ map.tsnMap.getD gap.toNat 0 ≠ 0) ∨
      (gap ≥ map.len.toNat ∧ map.overflowMap.getD (gap - map.len.toNat).toNat 0 ≠ 0) then 1
  else 0

/-- The exchange of the arrays in `sctp_tsnmap_update`. -/
def TsnMap.swap (map : TsnMap) : TsnMap :=
  { map with
    tsnMap := map.overflowMap
    overflowMap := memset map.tsnMap 0 map.len.toNat
    baseTsn := map.baseTsn + map.len32
    overflowTsn := map.overflowTsn + map.len32 }

/-- The arrays when the loop of `sctp_tsnmap_update` reaches `ctsn`. -/
def TsnMap.reach (map : TsnMap) (ctsn : BitVec 32) : TsnMap :=
  if ctsn = map.overflowTsn then map.swap else map

/-- The loop of `sctp_tsnmap_update`, after `ctsn++`. -/
def updateLoop (turns : ℕ) (map : TsnMap) (ctsn : BitVec 32) : Option TsnMap := do
  let v ← (map.reach ctsn).tsnMap[(ctsn - (map.reach ctsn).baseTsn).toNat]?
  if v ≠ 0 then
    match turns with
    | 0 => none
    | turns + 1 => updateLoop turns (map.reach ctsn) (ctsn + 1)
  else some { map.reach ctsn with cumulativeTsnAckPoint := ctsn - 1 }

def sctpTsnmapUpdate (turns : ℕ) (map : TsnMap) : Option TsnMap :=
  updateLoop turns map (map.cumulativeTsnAckPoint + 1)

/-- The highest sequence number seen, in `sctp_tsnmap_mark` and `sctp_tsnmap_skip`. -/
def TsnMap.bumpMax (map : TsnMap) (tsn : BitVec 32) : TsnMap :=
  if tsnLt map.maxTsnSeen tsn then { map with maxTsnSeen := tsn } else map

def sctpTsnmapMark (turns : ℕ) (map : TsnMap) (tsn : BitVec 32) : Option TsnMap :=
  if tsnLt tsn map.baseTsn then some map
  else if tsnLt tsn (map.baseTsn + map.len32 + map.len32) = false then some map
  else
    let map := map.bumpMax tsn
    let gap := (tsn - map.baseTsn).toInt
    sctpTsnmapUpdate turns (if gap < map.len.toNat then
      { map with tsnMap := map.tsnMap.modify gap.toNat (· + 1) }
      else { map with overflowMap := map.overflowMap.modify (gap - map.len.toNat).toNat (· + 1) })

def sctpTsnmapSkip (turns : ℕ) (map : TsnMap) (tsn : BitVec 32) : Option TsnMap :=
  if tsnLt tsn map.baseTsn then some map
  else if tsnLt tsn (map.baseTsn + map.len32 + map.len32) = false then some map
  else
    let map := map.bumpMax tsn
    let gap := (tsn - map.baseTsn + 1).toInt
    sctpTsnmapUpdate turns (if gap ≤ map.len.toNat then
      { map with tsnMap := memset map.tsnMap 1 gap.toNat }
      else
        { map with
          tsnMap := memset map.tsnMap 1 map.len.toNat
          overflowMap := memset map.overflowMap 1 (gap - map.len.toNat).toNat })

/-- What `sctp_tsnmap_find_gap_ack` has found.  The fields `start` and `stop` are its `*start` and
`*end`, which have no value before they are found. -/
structure Gap where
  started : Bool
  start : BitVec 16
  ended : Bool
  stop : BitVec 16

/-- The first index from `i` to before `len` at which the byte is zero, or is not zero. -/
def scan (zero : Bool) (map : List (BitVec 8)) (i len : ℕ) : Option ℕ :=
  (List.range' i (len - i)).find? fun j => (map.getD j 0 == 0) == zero

/-- The search for the start in `sctp_tsnmap_find_gap_ack`, and where it stopped. -/
def findStart (map : List (BitVec 8)) (i len base : ℕ) (g : Gap) : Gap × ℕ :=
  match scan false map i len with
  | some j => ({ g with started := true, start := BitVec.ofNat 16 (base + j) }, j)
  | none => (g, len)

/-- The search for the end in `sctp_tsnmap_find_gap_ack`. -/
def findStop (map : List (BitVec 8)) (i len base : ℕ) (g : Gap) : Gap :=
  match scan true map i len with
  | some j => { g with ended := true, stop := BitVec.ofNat 16 (base + j) - 1 }
  | none => g

def sctpTsnmapFindGapAck (map : List (BitVec 8)) (off len base : BitVec 16) (g : Gap) : Gap :=
  let out := if g.started then (g, off.toNat) else findStart map off.toNat len.toNat base.toNat g
  if out.1.started then findStop map out.2 len.toNat base.toNat out.1 else out.1

def sctpTsnmapIterInit (map : TsnMap) : BitVec 32 := map.cumulativeTsnAckPoint + 1

/-- The search of the first array in `sctp_tsnmap_next_gap_ack`. -/
def searchMap (map : TsnMap) (start : BitVec 32) (g : Gap) : Gap :=
  if start - map.baseTsn < map.len32 then
    sctpTsnmapFindGapAck map.tsnMap ((start - map.baseTsn).setWidth 16) map.len 0 g
  else g

/-- The search of the overflow map in `sctp_tsnmap_next_gap_ack`. -/
def searchOverflow (map : TsnMap) (start : BitVec 32) (g : Gap) : Gap :=
  if g.ended then g
  else
    let offset := if start - map.baseTsn < map.len32 then 0
      else (start - map.baseTsn - map.len32).setWidth 16
    sctpTsnmapFindGapAck map.overflowMap offset map.len map.len g

/-- A block that ends at the end of the overflow map. -/
def closeGap (map : TsnMap) (g : Gap) : Gap :=
  if g.started && !g.ended then { g with ended := true, stop := map.len + map.len - 1 } else g

/-- `sctp_tsnmap_next_gap_ack` from `iter->start`: the block, and the next `iter->start`. -/
def sctpTsnmapNextGapAck (map : TsnMap) (start : BitVec 32) :
    Option ((BitVec 16 × BitVec 16) × BitVec 32) :=
  if tsnLte map.maxTsnSeen start then none
  else
    let g := closeGap map (searchOverflow map start (searchMap map start ⟨false, 0, false, 0⟩))
    if g.ended then
      let gap := map.cumulativeTsnAckPoint - map.baseTsn
      let stop := g.stop - gap.setWidth 16
      some ((g.start - gap.setWidth 16, stop), map.cumulativeTsnAckPoint + stop.setWidth 32 + 1)
    else none

/-- The blocks that the iterator gives until it returns 0. -/
def gapAcks (map : TsnMap) (turns : ℕ) (start : BitVec 32) :
    Option (List (BitVec 16 × BitVec 16)) :=
  match sctpTsnmapNextGapAck map start with
  | none => some []
  | some out =>
    match turns with
    | 0 => none
    | turns + 1 => (gapAcks map turns out.2).map (out.1 :: ·)

end Gp2xKernel.Sctp
