import Gp2xKernel.Mmc.Basic

/-!
# Reading a block by programmed I/O

`mp2520f_mmc_pio_read` moves bytes from the FIFO to the segments of the scatterlist.  It counts
all bytes in `cnt`, and stores the next one at `buffer + cnt`; but when it goes on to the next
segment it sets `buffer` to the start of that segment and leaves `cnt` as it is.  So the bytes of
the first segment are stored where they belong, and all further bytes are stored behind, by the
total length of the segments before.

The `BUG_ON` is never reached, and `bytes_xfered` is the number of bytes stored, always.

## Main definitions

* `segStart`, `InSegment`: the positions of the stream that a segment is to take
* `StoredInOrder`: what the loop is for

## Main results

* `pioLoop_counts`, `pioRead_counts`: the number of turns of the loop
* `pioLoop_stores`: where the loop stores the bytes
* `storedInOrder_iff`: the inputs for which the bytes are stored in order
-/

namespace Gp2xKernel.Mmc

open BitVec Nat Option
open BitVec (ofNat toNat)

variable {dev : Controller} {data data' : MmcData} {b b' : Bus} {c c' : Cursor}

/-! ## The stream and the segments -/

/-- The FIFO has a byte at the test number `k` of the loop; each turn reads the status three
times. -/
def Ready (dev : Controller) (b : Bus) (k : ℕ) : Prop :=
  hasBit (b.value dev .SDIFSTA (3 * k)) SDIFSTA_RFDET = true

/-- The byte number `k` of the stream. -/
def stream (dev : Controller) (b : Bus) (k : ℕ) : BitVec 8 := (b.value dev .SDIDAT k).setWidth 8

/-- The position of the stream at which segment `i` starts. -/
def segStart (data : MmcData) : ℕ → ℕ
  | 0 => 0
  | i + 1 => segStart data i + (data.sg i).length.toNat

/-- Position `k` of the stream belongs to segment `i`. -/
structure InSegment (data : MmcData) (i k : ℕ) : Prop where
  lt : i < data.sgLen.toNat
  le : segStart data i ≤ k
  lt_next : k < segStart data (i + 1)

/-- The address `a` is the place of position `k` in its segment. -/
def Placed (data : MmcData) (k : ℕ) (a : BitVec 32) : Prop :=
  ∃ i, InSegment data i k ∧ a = (data.sg i).virt + BitVec.ofNat 32 (k - segStart data i)

/-- **What `pioRead` is for**: it returns, the bytes of the stream are stored one by one at their
places and nothing else is stored, and `bytes_xfered` is their number. -/
def StoredInOrder (dev : Controller) (data : MmcData) (b : Bus) : Prop :=
  ∃ data' b' stored, pioRead dev data b = some (data', b') ∧ b'.stores = b.stores ++ stored ∧
    data'.bytesXfered.toNat = stored.length ∧
    ∀ k (h : k < stored.length), Placed data k stored[k].1 ∧ stored[k].2 = stream dev b k

variable {i j k left n m : ℕ}

theorem segStart_mono (h : i ≤ j) : segStart data i ≤ segStart data j := by
  induction h with
  | refl => exact le_rfl
  | step _ ih => exact ih.trans (le_add_right _ _)

theorem lt_of_segStart_lt (h : segStart data i < segStart data j) : i < j := by
  by_contra hle
  exact absurd (segStart_mono (not_lt.mp hle)) (not_le.mpr h)

theorem InSegment.unique (hi : InSegment data i k) (hj : InSegment data j k) : i = j := by
  have hij : i < j + 1 := lt_of_segStart_lt (hi.le.trans_lt hj.lt_next)
  have hji : j < i + 1 := lt_of_segStart_lt (hj.le.trans_lt hi.lt_next)
  omega

/-! ## One turn -/

/-- What is read after `n` reads. -/
theorem Bus.value_of_count {r : Reg} (h : b'.count r = b.count r + n) (i : ℕ) :
    b'.value dev r i = b.value dev r (n + i) := by
  rw [Bus.value, Bus.value, h, add_assoc]

theorem takeByte_stores :
    (takeByte dev c (b.read .SDIFSTA)).2.stores =
      b.stores ++ [(c.buffer + c.cnt, stream dev b 0)] := by
  have hval : (b.read .SDIFSTA).value dev .SDIDAT 0 = b.value dev .SDIDAT 0 := by
    simp [Bus.value, Bus.read_count]
  simp [takeByte, stream, hval]

theorem ready_takeByte (k : ℕ) :
    Ready dev (takeByte dev c (b.read .SDIFSTA)).2 k ↔ Ready dev b (k + 1) := by
  have hcount : (takeByte dev c (b.read .SDIFSTA)).2.count .SDIFSTA = b.count .SDIFSTA + 3 := by
    simp [takeByte, Bus.clear_count, Bus.read_count]
  rw [Ready, Ready, Bus.value_of_count hcount, Nat.add_comm 3, Nat.mul_succ]

theorem stream_takeByte (k : ℕ) :
    stream dev (takeByte dev c (b.read .SDIFSTA)).2 k = stream dev b (k + 1) := by
  have hcount : (takeByte dev c (b.read .SDIFSTA)).2.count .SDIDAT = b.count .SDIDAT + 1 := by
    simp [takeByte, Bus.clear_count, Bus.read_count]
  rw [stream, stream, Bus.value_of_count hcount, add_comm]

/-! ## The number of turns -/

/-- The loop takes `n` of at most `left` turns: it stops before when the FIFO has no byte. -/
structure Turns (dev : Controller) (b : Bus) (left n : ℕ) : Prop where
  le : n ≤ left
  ready : ∀ k < n, Ready dev b k
  stop : n < left → ¬ Ready dev b n

/-- `pioLoop` stops at once. -/
theorem Turns.zero (h : 0 < left → ¬ Ready dev b 0) : Turns dev b left 0 :=
  ⟨zero_le _, fun _ hk => absurd hk (not_lt_zero _), h⟩

/-- One turn, and then the turns that are left. -/
theorem Turns.succ (hready : Ready dev b 0)
    (h : Turns dev (takeByte dev c (b.read .SDIFSTA)).2 left n) :
    Turns dev b (left + 1) (n + 1) := by
  refine ⟨succ_le_succ h.le, fun k hk => ?_, fun hlt => ?_⟩
  · cases k with
    | zero => exact hready
    | succ k => exact (ready_takeByte k).mp (h.ready k (lt_of_succ_lt_succ hk))
  · rw [← ready_takeByte]
    exact h.stop (lt_of_succ_lt_succ hlt)

theorem Turns.unique {n' : ℕ} (h : Turns dev b left n) (h' : Turns dev b left n') : n = n' := by
  rcases Nat.lt_trichotomy n n' with hlt | heq | hgt
  · exact absurd (h'.ready n hlt) (h.stop (hlt.trans_le h'.le))
  · exact heq
  · exact absurd (h.ready n' hgt) (h'.stop (hgt.trans_le h.le))

/-- **The number of turns** depends on the status and on the count only, not on the segments. -/
theorem pioLoop_counts (h : pioLoop dev data left c b = some (c', b')) :
    ∃ n, Turns dev b left n ∧ c'.cnt = c.cnt + ofNat 32 n := by
  induction left generalizing c b with
  | zero =>
    cases h
    exact ⟨0, .zero fun h => absurd h (lt_irrefl _), by simp⟩
  | succ left ih =>
    rw [pioLoop] at h
    split_ifs at h with hready
    · obtain ⟨c1, hc1, hloop⟩ := bind_eq_some_iff.mp h
      obtain ⟨n, hturns, hcnt⟩ := ih hloop
      refine ⟨n + 1, hturns.succ hready, ?_⟩
      have hc : c1.cnt = c.cnt := by
        rw [nextSegment] at hc1
        split_ifs at hc1 with h0 hbug
        · cases hc1
          rfl
        · cases hc1
          rfl
      rw [hcnt, takeByte, ofNat_add, add_assoc]
      congr 1
      exact add_comm _ _
    · cases h
      exact ⟨0, .zero fun _ => hready, by simp⟩

theorem pioRead_counts (h : pioRead dev data b = some (data', b')) :
    ∃ n, Turns dev b (data.blksz * data.blocks).toNat n ∧
      data' = { data with bytesXfered := data'.bytesXfered } ∧ data'.bytesXfered.toNat = n := by
  obtain ⟨⟨c', b1⟩, hloop, hout⟩ := map_eq_some_iff.mp h
  obtain ⟨n, hturns, hcnt⟩ := pioLoop_counts hloop
  obtain ⟨rfl, -⟩ := Prod.mk.inj hout
  have hn := hturns.le.trans_lt (data.blksz * data.blocks).isLt
  refine ⟨n, hturns, rfl, ?_⟩
  rw [hcnt, show (Cursor.enter data 0 0).cnt = 0 from rfl, zero_add, zero_add,
    toNat_ofNat, mod_eq_of_lt hn]

/-! ## Where the bytes go -/

/-- The locals after `m` bytes, of which the last went to segment `i`. -/
structure At (data : MmcData) (c : Cursor) (m i : ℕ) : Prop where
  cnt : c.cnt = BitVec.ofNat 32 m
  sgIdx : c.sgIdx = BitVec.ofNat 32 i
  buffer : c.buffer = (data.sg i).virt
  left : c.bufferBytesLeft.toNat + m = segStart data (i + 1)
  le : segStart data i ≤ m

theorem at_enter (hm : m = segStart data i) (hi : i < 2 ^ 32) :
    At data (.enter data (ofNat 32 m) (ofNat 32 i)) m i := by
  have hnat : (ofNat 32 i).toNat = i := mod_eq_of_lt hi
  refine ⟨rfl, rfl, ?_, ?_, hm.ge⟩
  · rw [Cursor.enter, hnat]
  · rw [Cursor.enter, hnat, segStart, hm, add_comm]

/-- As long as bytes are missing there is a segment for the next one. -/
theorem nextSegment_spec (hpos : ∀ j < data.sgLen.toNat, 0 < (data.sg j).length.toNat)
    (h : At data c m i) (hm : m < segStart data data.sgLen.toNat) :
    ∃ c1 j, nextSegment data c = some c1 ∧ At data c1 m j ∧ InSegment data j m := by
  rw [nextSegment]
  by_cases hfull : c.bufferBytesLeft = 0
  · -- the segment is full, and it is not the last one
    have hend : m = segStart data (i + 1) := by
      have hleft := h.left
      rw [hfull] at hleft
      simpa using hleft
    have hi : i + 1 < data.sgLen.toNat := lt_of_segStart_lt (hend ▸ hm)
    have hidx : c.sgIdx + 1 = ofNat 32 (i + 1) := by
      rw [h.sgIdx, ofNat_add]
      rfl
    have hne : ¬ c.sgIdx + 1 = data.sgLen := by
      intro heq
      have := congrArg toNat (hidx.symm.trans heq)
      rw [toNat_ofNat] at this
      omega
    refine ⟨.enter data c.cnt (c.sgIdx + 1), i + 1, ?_, ?_, hi, hend.ge, ?_⟩
    · rw [if_pos hfull, if_neg hne]
    · rw [h.cnt, hidx]
      exact at_enter hend (by omega)
    · rw [segStart, ← hend]
      exact Nat.lt_add_of_pos_right (hpos _ hi)
  · have hnat : 0 < c.bufferBytesLeft.toNat :=
      Nat.pos_of_ne_zero fun h0 => hfull (eq_of_toNat_eq h0)
    have hleft := h.left
    refine ⟨c, i, if_neg hfull, h, lt_of_segStart_lt (h.le.trans_lt hm), h.le, ?_⟩
    omega

theorem At.takeByte (h : At data c m i) (hin : InSegment data i m) (dev : Controller) (b : Bus) :
    At data (takeByte dev c b).1 (m + 1) i := by
  have hleft := h.left
  have hlt := hin.lt_next
  refine ⟨?_, h.sgIdx, h.buffer, ?_, h.le.trans (le_succ m)⟩
  · rw [Mmc.takeByte, h.cnt, ofNat_add]
    rfl
  · have hsub : (c.bufferBytesLeft - 1).toNat = c.bufferBytesLeft.toNat - 1 :=
      toNat_sub_of_le (le_def.mpr (show 1 ≤ c.bufferBytesLeft.toNat by omega))
    rw [Mmc.takeByte, hsub]
    omega

variable (dev : Controller)

/-- **Where the loop stores the bytes**: byte `m + k` at the offset `m + k` of its segment. -/
theorem pioLoop_stores (b : Bus)
    (hpos : ∀ j < data.sgLen.toNat, 0 < (data.sg j).length.toNat) (h : At data c m i)
    (hsum : m + left ≤ segStart data data.sgLen.toNat) :
    ∃ c' b' stored, pioLoop dev data left c b = some (c', b') ∧
      b'.stores = b.stores ++ stored ∧ Turns dev b left stored.length ∧
      ∀ k (hk : k < stored.length), stored[k].2 = stream dev b k ∧
        ∃ j, InSegment data j (m + k) ∧ stored[k].1 = (data.sg j).virt + ofNat 32 (m + k) := by
  induction left generalizing c b m i with
  | zero =>
    refine ⟨c, b.read .SDIFSTA, [], rfl, by simp, .zero fun h => absurd h (lt_irrefl _), ?_⟩
    intro k hk
    exact absurd hk (not_lt_zero k)
  | succ left ih =>
    rw [pioLoop]
    by_cases hready : hasBit (b.value dev .SDIFSTA 0) SDIFSTA_RFDET = true
    · obtain ⟨c1, j, hnext, hat, hin⟩ := nextSegment_spec hpos h (by omega)
      obtain ⟨c', b', stored, hloop, hstores, hturns, hspec⟩ :=
        ih (takeByte dev c1 (b.read .SDIFSTA)).2 (hat.takeByte hin dev (b.read .SDIFSTA)) (by omega)
      refine ⟨c', b', (c1.buffer + c1.cnt, stream dev b 0) :: stored, ?_, ?_, ?_, ?_⟩
      · rw [if_pos hready, hnext, bind_some, hloop]
      · rw [hstores, takeByte_stores, List.append_assoc, List.singleton_append]
      · exact hturns.succ hready
      · intro k hk
        cases k with
        | zero => exact ⟨rfl, j, hin, by rw [List.getElem_cons_zero, hat.buffer, hat.cnt]; rfl⟩
        | succ k =>
          obtain ⟨hbyte, j', hin', haddr⟩ := hspec k (lt_of_succ_lt_succ hk)
          rw [stream_takeByte] at hbyte
          rw [add_assoc, add_comm 1 k] at hin' haddr
          exact ⟨hbyte, j', hin', haddr⟩
    · rw [if_neg hready]
      refine ⟨c, b.read .SDIFSTA, [], rfl, by simp, .zero fun _ => hready, ?_⟩
      intro k hk
      exact absurd hk (not_lt_zero k)

/-! ## The whole function -/

/-- `pioRead` returns, and stores byte `k` at the offset `k` of its segment. -/
theorem pioRead_spec (b : Bus) (hpos : ∀ j < data.sgLen.toNat, 0 < (data.sg j).length.toNat)
    (hsum : data.blksz.toNat * data.blocks.toNat ≤ segStart data data.sgLen.toNat) :
    ∃ data' b' stored, pioRead dev data b = some (data', b') ∧ b'.stores = b.stores ++ stored ∧
      Turns dev b (data.blksz * data.blocks).toNat stored.length ∧
      data'.bytesXfered.toNat = stored.length ∧
      ∀ k (hk : k < stored.length), stored[k].2 = stream dev b k ∧
        ∃ j, InSegment data j k ∧ stored[k].1 = (data.sg j).virt + ofNat 32 k := by
  have hat : At data (.enter data 0 0) 0 0 := at_enter rfl (by decide)
  have hfits : 0 + (data.blksz * data.blocks).toNat ≤ segStart data data.sgLen.toNat := by
    rw [zero_add]
    exact (mod_le _ _).trans hsum
  obtain ⟨c', b', stored, hloop, hstores, hturns, hspec⟩ := pioLoop_stores dev b hpos hat hfits
  have hread : pioRead dev data b = some ({ data with bytesXfered := 0 + c'.cnt },
      b'.modify dev .SDIDATCON (· ||| SDIDATCON_STOPMODE)) := by
    rw [pioRead, hloop]
    rfl
  obtain ⟨n, hturns', -, hxfered⟩ := pioRead_counts hread
  refine ⟨_, _, stored, hread, hstores, hturns, ?_, ?_⟩
  · rw [hxfered, hturns'.unique hturns]
  · intro k hk
    obtain ⟨hbyte, j, hin, haddr⟩ := hspec k hk
    rw [zero_add] at hin haddr
    exact ⟨hbyte, j, hin, haddr⟩

/-- The offset `k` of a segment is the place of position `k` in the first segment only. -/
theorem placed_offset_iff (hpos : ∀ j < data.sgLen.toNat, 0 < (data.sg j).length.toNat)
    (hin : InSegment data j k) (hk : k < 2 ^ 32) :
    Placed data k ((data.sg j).virt + ofNat 32 k) ↔ k < (data.sg 0).length.toNat := by
  have hone : segStart data 1 = (data.sg 0).length.toNat := zero_add _
  constructor
  · rintro ⟨i, hi, haddr⟩
    obtain rfl := hi.unique hin
    have heq := congrArg toNat (add_left_cancel haddr)
    rw [toNat_ofNat, toNat_ofNat] at heq
    rcases Nat.eq_zero_or_pos i with rfl | hi0
    · exact hone ▸ hi.lt_next
    · -- a later segment starts behind the first one, so its offset is not the position
      have hfirst : segStart data 1 ≤ segStart data i := segStart_mono hi0
      have hfull := hpos 0 (hi0.trans hi.lt)
      omega
  · intro hlt
    have hzero : InSegment data 0 k :=
      ⟨(zero_le j).trans_lt hin.lt, zero_le k, hone ▸ hlt⟩
    obtain rfl := hzero.unique hin
    exact ⟨0, hzero, rfl⟩

/-- **Main theorem.** For segments of positive length that are long enough for the transfer, the
bytes of the stream are stored in order if and only if they all go to the first segment: the
transfer is not longer, or the FIFO runs empty before. -/
theorem storedInOrder_iff (data : MmcData) (b : Bus)
    (hpos : ∀ j < data.sgLen.toNat, 0 < (data.sg j).length.toNat)
    (hsum : data.blksz.toNat * data.blocks.toNat ≤ segStart data data.sgLen.toNat) :
    StoredInOrder dev data b ↔
      (data.blksz * data.blocks).toNat ≤ (data.sg 0).length.toNat ∨
        ∃ k ≤ (data.sg 0).length.toNat, ¬ Ready dev b k := by
  obtain ⟨data1, b1, stored, hread, hstores, hturns, hxfered, hspec⟩ :=
    pioRead_spec dev b hpos hsum
  have hle := hturns.le
  -- the function is in order exactly when it stores no more bytes than fit in the first segment
  have hiff : StoredInOrder dev data b ↔ stored.length ≤ (data.sg 0).length.toNat := by
    constructor
    · rintro ⟨data2, b2, stored2, hread2, hstores2, -, hplaced⟩
      obtain ⟨rfl, rfl⟩ := Prod.mk.inj (some.inj (hread.symm.trans hread2))
      obtain rfl := List.append_cancel_left (hstores.symm.trans hstores2)
      by_contra hgt
      have hk : (data.sg 0).length.toNat < stored.length := not_le.mp hgt
      obtain ⟨-, j, hin, haddr⟩ := hspec _ hk
      have hput := (hplaced _ hk).1
      rw [haddr, placed_offset_iff hpos hin (by omega)] at hput
      exact absurd hput (lt_irrefl _)
    · intro hfits
      refine ⟨data1, b1, stored, hread, hstores, hxfered, fun k hk => ?_⟩
      obtain ⟨hbyte, j, hin, haddr⟩ := hspec k hk
      refine ⟨?_, hbyte⟩
      rw [haddr, placed_offset_iff hpos hin (by omega)]
      omega
  rw [hiff]
  constructor
  · intro hfits
    by_cases hall : stored.length = (data.blksz * data.blocks).toNat
    · exact .inl (hall ▸ hfits)
    · exact .inr ⟨stored.length, hfits, hturns.stop (by omega)⟩
  · rintro (hshort | ⟨k, hk, hempty⟩)
    · omega
    · by_contra hgt
      exact hempty (hturns.ready k (by omega))

/-- A controller whose FIFO always has a byte. -/
def fullFifo : Controller := fun _ _ => 0xffff

/-- No access so far. -/
def idleBus : Bus := ⟨fun _ => 0, [], []⟩

/-- A transfer of two bytes to two segments, the first of which takes `n` bytes. -/
def twoSegments (n : BitVec 32) : MmcData where
  blksz := 2
  blocks := 1
  error := 0
  flags := MMC_DATA_READ
  bytesXfered := 0
  stop := none
  sgLen := 2
  sg i := if i = 0 then ⟨0x1000, n⟩ else ⟨0x2000, 1⟩

theorem storedInOrder_iff_long :
    StoredInOrder fullFifo (twoSegments 2) idleBus ↔
      ((twoSegments 2).blksz * (twoSegments 2).blocks).toNat ≤
          ((twoSegments 2).sg 0).length.toNat ∨
        ∃ k ≤ ((twoSegments 2).sg 0).length.toNat, ¬ Ready fullFifo idleBus k :=
  storedInOrder_iff fullFifo (twoSegments 2) idleBus (by decide) (by decide)

/-- **Two segments of one byte each**: the second byte is stored behind the second segment. -/
theorem pioRead_misplaces :
    ((pioRead fullFifo (twoSegments 1) idleBus).map fun r => r.2.stores) =
        some [(0x1000, 0xff), (0x2001, 0xff)] ∧
      ¬ StoredInOrder fullFifo (twoSegments 1) idleBus := by
  have heval : ((pioRead fullFifo (twoSegments 1) idleBus).map fun r => r.2.stores) =
      some [(0x1000, 0xff), (0x2001, 0xff)] := by decide
  refine ⟨heval, ?_⟩
  rintro ⟨data', b', stored, hread, hstores, -, hplaced⟩
  rw [hread] at heval
  obtain rfl : stored = [(0x1000, 0xff), (0x2001, 0xff)] := by
    exact hstores.symm.trans (some.inj heval)
  obtain ⟨i, hin, haddr⟩ := (hplaced 1 (by decide)).1
  -- position 1 is the first byte of the second segment
  have hi : InSegment (twoSegments 1) 1 1 := ⟨by decide, by decide, by decide⟩
  obtain rfl := hin.unique hi
  exact absurd haddr (by decide)

end Gp2xKernel.Mmc
