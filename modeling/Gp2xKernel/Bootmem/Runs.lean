import Mathlib.Order.Interval.Set.Basic
import Gp2xKernel.Library.Run
import Gp2xKernel.Library.Turns
import Gp2xKernel.Bootmem.Place

/-!
# Runs of the boot memory allocator

The bytes of live allocations and of reservations are followed along a run.  A page whose bit is
clear has none of them, and neither has the rest of the page in which the last allocation ended.

The second of these is not kept by every operation: a reservation may lie in the rest of that page,
and the page itself may be freed.  The allocator does not look at either.  It also aligns addresses
relative to the start of the node, takes a limit below `PAGE_SIZE` for none, and rounds sizes close
to the largest up to zero.

## Main definitions

* `State`: a node, with the bytes of live allocations and of reservations
* `Allowed`, `Kept`: the operations that callers can ask for, and those that the allocator gets
  right
* `system`: the runs of such operations

## Main results

* `Inv.reserve`, `Inv.free`, `Inv.alloc`: what one operation does
* `bootmem_disjoint`: allocations are aligned, in bounds and disjoint
-/

namespace Gp2xKernel.Bootmem

open Library Or

variable {c : Config}

/-- A node, and the addresses of the bytes in live allocations and in reservations. -/
structure State where
  bdata : Bdata
  allocated : Set ℕ
  reserved : Set ℕ

/-- The page of a node that an address is in. -/
def pageOf (c : Config) (bdata : Bdata) (a : ℕ) : ℕ := (a - bdata.nodeBootStart) / c.pageSize

/-- The page is wholly in the range. -/
def WholePage (c : Config) (bdata : Bdata) (addr size i : ℕ) : Prop :=
  addr ≤ pageAddr c bdata i ∧ pageAddr c bdata (i + 1) ≤ addr + size

/-- The bytes of the rest of the page in which the last allocation ended. -/
def rest (c : Config) (bdata : Bdata) : Set ℕ :=
  Set.Ico (pageAddr c bdata bdata.lastPos + bdata.lastOffset) (pageAddr c bdata (bdata.lastPos + 1))

/-- What holds between the operations. -/
structure Inv (c : Config) (s : State) : Prop where
  node : NodeOk c s.bdata
  clear : ∀ a, s.bdata.nodeBootStart ≤ a → a < s.bdata.nodeLowPfn * c.pageSize →
    s.bdata.nodeBootmemMap (pageOf c s.bdata a) = false → a ∉ s.allocated ∪ s.reserved
  tail : s.bdata.lastOffset ≠ 0 → s.bdata.lastOffset < c.pageSize ∧
    s.bdata.lastPos < pages c s.bdata ∧ s.bdata.nodeBootmemMap s.bdata.lastPos = true ∧
    ∀ a ∈ rest c s.bdata, a ∉ s.allocated ∪ s.reserved

section

variable {bdata : Bdata} {a i : ℕ}

theorem le_pageOf (h : pageAddr c bdata i ≤ a) : i ≤ pageOf c bdata a := by
  rw [pageAddr] at h
  exact (Nat.le_div_iff_mul_le c.pageSize_pos).mpr (by omega)

theorem pageOf_lt (ha : bdata.nodeBootStart ≤ a) (h : a < pageAddr c bdata i) :
    pageOf c bdata a < i := by
  rw [pageAddr] at h
  exact (Nat.div_lt_iff_lt_mul c.pageSize_pos).mpr (by omega)

theorem pageOf_eq (hlo : pageAddr c bdata i ≤ a) (hhi : a < pageAddr c bdata (i + 1)) :
    pageOf c bdata a = i := by
  have hge := le_pageOf hlo
  have hlt := pageOf_lt ((Nat.le_add_right _ _).trans hlo) hhi
  omega

theorem pageAddr_pageOf (ha : bdata.nodeBootStart ≤ a) :
    pageAddr c bdata (pageOf c bdata a) ≤ a ∧ a < pageAddr c bdata (pageOf c bdata a + 1) := by
  have hdiv := Nat.div_add_mod (a - bdata.nodeBootStart) c.pageSize
  have hmod := Nat.mod_lt (a - bdata.nodeBootStart) c.pageSize_pos
  rw [Nat.mul_comm] at hdiv
  rw [pageAddr_add, pageAddr, pageOf]
  omega

theorem pageAddr_mono {j : ℕ} (h : i ≤ j) : pageAddr c bdata i ≤ pageAddr c bdata j :=
  Nat.add_le_add_left (Nat.mul_le_mul_right _ h) _

end

/-! ## Reservation -/

section

variable {s : State} {addr size : ℕ}

/-- **`reserve_bootmem_core`** returns, and the pages of the range are reserved. -/
theorem Inv.reserve (hinv : Inv c s) (hsize : 0 < size) (hlo : s.bdata.nodeBootStart ≤ addr)
    (hhi : addr + size ≤ s.bdata.nodeLowPfn * c.pageSize)
    (hend : addr + size + c.pageSize - 1 < 2 ^ c.bits)
    (hrest : s.bdata.lastOffset ≠ 0 → ∀ a ∈ Set.Ico addr (addr + size), a ∉ rest c s.bdata) :
    ∃ bdata', reserveBootmemCore c s.bdata addr size = some bdata' ∧
      Inv c ⟨bdata', s.allocated, s.reserved ∪ Set.Ico addr (addr + size)⟩ := by
  have hP := c.pageSize_pos
  have hup : c.pfnUp (c.word (addr + size)) ≤ s.bdata.nodeLowPfn := by
    rw [Config.pfnUp, c.word_eq (show addr + size < _ by omega), c.word_eq (by omega)]
    exact (ceil_le_iff hP).mpr hhi
  have hdown : c.pfnDown addr < s.bdata.nodeLowPfn := (Nat.div_lt_iff_lt_mul hP).mpr (by omega)
  -- the pages of the range
  have hsidx : c.pfnDown (c.sub addr s.bdata.nodeBootStart) = pageOf c s.bdata addr := by
    rw [c.sub_eq hlo (by omega)]
    rfl
  have heidx : c.pfnUp (c.sub (c.word (addr + size)) s.bdata.nodeBootStart) =
      (addr + size - s.bdata.nodeBootStart + c.pageSize - 1) / c.pageSize := by
    rw [c.word_eq (by omega), c.sub_eq (by omega) (by omega), Config.pfnUp, c.word_eq (by omega)]
  have hcover : ∀ a ∈ Set.Ico addr (addr + size), pageOf c s.bdata addr ≤ pageOf c s.bdata a ∧
      pageOf c s.bdata a < (addr + size - s.bdata.nodeBootStart + c.pageSize - 1) / c.pageSize := by
    rintro a ⟨ha, ha'⟩
    have hceil := le_ceil (addr + size - s.bdata.nodeBootStart) hP
    exact ⟨Nat.div_le_div_right (by omega), (Nat.div_lt_iff_lt_mul hP).mpr (by omega)⟩
  rw [reserveBootmemCore, if_neg hsize.ne', if_neg (not_le.mpr hdown), if_neg (not_lt.mpr hup)]
  refine ⟨_, rfl, ⟨hinv.node.dvd, hinv.node.le, hinv.node.le_bits⟩, fun a ha ha' hclear => ?_,
    fun hoff => ?_⟩
  · change setBits _ _ _ (pageOf c s.bdata a) = false at hclear
    rw [setBits_apply] at hclear
    split_ifs at hclear with hin
    rintro (hmem | hmem | hmem)
    · exact hinv.clear a ha ha' hclear (inl hmem)
    · exact hinv.clear a ha ha' hclear (inr hmem)
    · have hrange := hcover a hmem
      exact hin (by omega)
  · obtain ⟨hlt', hlast, hset, hfree⟩ := hinv.tail hoff
    refine ⟨hlt', hlast, ?_, fun a ha => ?_⟩
    · show setBits _ _ _ s.bdata.lastPos = true
      rw [setBits_apply, hset, ite_self]
    · rintro (hmem | hmem | hmem)
      · exact hfree a ha (inl hmem)
      · exact hfree a ha (inr hmem)
      · exact hrest hoff a hmem ha

/-! ## Release -/

/-- The pages that `free_bootmem_core` frees are those wholly in the range. -/
theorem wholePage_iff (hnode : NodeOk c s.bdata) (hlo : s.bdata.nodeBootStart ≤ addr)
    (hend : addr + size + c.pageSize - 1 < 2 ^ c.bits) (i : ℕ) :
    WholePage c s.bdata addr size i ↔
      c.sub (c.pfnUp addr) (c.pfnDown s.bdata.nodeBootStart) ≤ i ∧
      i < c.pfnDown (c.sub (c.word (addr + size)) s.bdata.nodeBootStart) := by
  have hP := c.pageSize_pos
  obtain ⟨k, hk⟩ := hnode.dvd
  have hbase : c.pfnDown s.bdata.nodeBootStart = k := by
    rw [Config.pfnDown, hk, Nat.mul_div_cancel_left k hP]
  have hup : c.pfnUp addr = (addr + c.pageSize - 1) / c.pageSize := by
    rw [Config.pfnUp, c.word_eq (by omega)]
  have hge : k ≤ (addr + c.pageSize - 1) / c.pageSize := by
    rw [Nat.le_div_iff_mul_le hP, Nat.mul_comm]
    omega
  have hlt : (addr + c.pageSize - 1) / c.pageSize < 2 ^ c.bits :=
    (Nat.div_le_self _ _).trans_lt (by omega)
  rw [hbase, hup, c.sub_eq hge hlt, c.word_eq (by omega), c.sub_eq (by omega) (by omega),
    Config.pfnDown, Nat.lt_iff_add_one_le, Nat.le_div_iff_mul_le hP, Nat.sub_le_iff_le_add,
    ceil_le_iff hP, Nat.add_mul, WholePage, pageAddr, pageAddr, Nat.mul_comm k]
  omega

/-- **`free_bootmem_core`** of whole pages of live allocations returns. -/
theorem Inv.free (hinv : Inv c s) (hsize : 0 < size) (hlo : s.bdata.nodeBootStart ≤ addr)
    (hhi : addr + size ≤ s.bdata.nodeLowPfn * c.pageSize)
    (hend : addr + size + c.pageSize - 1 < 2 ^ c.bits)
    (hlive : ∀ i, WholePage c s.bdata addr size i → ∃ a ∈ s.allocated,
      s.bdata.nodeBootStart ≤ a ∧ pageOf c s.bdata a = i)
    (hlast : s.bdata.lastOffset ≠ 0 → ¬WholePage c s.bdata addr size s.bdata.lastPos)
    (hres : ∀ a ∈ s.reserved, s.bdata.nodeBootStart ≤ a →
      ¬WholePage c s.bdata addr size (pageOf c s.bdata a)) :
    ∃ bdata', freeBootmemCore c s.bdata addr size = some bdata' ∧
      Inv c ⟨bdata', s.allocated \ { a | s.bdata.nodeBootStart ≤ a ∧
        WholePage c s.bdata addr size (pageOf c s.bdata a) }, s.reserved⟩ := by
  have hP := c.pageSize_pos
  have hwhole := wholePage_iff hinv.node hlo hend
  have hdown : c.pfnDown (c.word (addr + size)) ≤ s.bdata.nodeLowPfn := by
    rw [c.word_eq (by omega)]
    exact Nat.div_le_of_le_mul (by rwa [Nat.mul_comm])
  -- the pages have live allocations, so that their bits are set
  have hset : ∀ i, WholePage c s.bdata addr size i → s.bdata.nodeBootmemMap i = true := by
    intro i hi
    obtain ⟨a, ha, hlow, rfl⟩ := hlive i hi
    by_contra hclear
    have hhigh := (pageAddr_pageOf (c := c) hlow).2
    have hpage := hi.2
    exact hinv.clear a hlow (by omega) (by simpa using hclear) (inl ha)
  obtain ⟨x, hx⟩ : ∃ x, (if addr < s.bdata.lastSuccess then { s.bdata with lastSuccess := addr }
      else s.bdata) = { s.bdata with lastSuccess := x } := by
    split_ifs
    · exact ⟨addr, rfl⟩
    · exact ⟨s.bdata.lastSuccess, rfl⟩
  rw [freeBootmemCore, if_neg hsize.ne', if_neg (not_lt.mpr hdown), hx]
  simp only
  generalize c.sub (c.pfnUp addr) (c.pfnDown s.bdata.nodeBootStart) = sidx at hwhole ⊢
  generalize c.pfnDown (c.sub (c.word (addr + size)) s.bdata.nodeBootStart) = eidx at hwhole ⊢
  have hset' : ∀ j, sidx ≤ j → j < sidx + (eidx - sidx) → s.bdata.nodeBootmemMap j = true :=
    fun j hj hj' => hset j ((hwhole j).mpr ⟨hj, by omega⟩)
  obtain ⟨map, hmap, hbits⟩ := clearBits_eq hset'
  have hfreed : ∀ i, sidx ≤ i ∧ i < sidx + (eidx - sidx) ↔ WholePage c s.bdata addr size i := by
    intro i
    rw [hwhole]
    omega
  rw [hmap]
  refine ⟨_, rfl, ⟨hinv.node.dvd, hinv.node.le, hinv.node.le_bits⟩, fun a ha ha' hclear => ?_,
    fun hoff => ?_⟩
  · change map (pageOf c s.bdata a) = false at hclear
    rw [hbits] at hclear
    split_ifs at hclear with hin
    · rintro (hmem | hmem)
      · exact hmem.2 ⟨ha, (hfreed _).mp hin⟩
      · exact hres a hmem ha ((hfreed _).mp hin)
    · rintro (hmem | hmem)
      · exact hinv.clear a ha ha' hclear (inl hmem.1)
      · exact hinv.clear a ha ha' hclear (inr hmem)
  · obtain ⟨hlt, hpos, hbit, hfree⟩ := hinv.tail hoff
    refine ⟨hlt, hpos, ?_, fun a ha => ?_⟩
    · show map s.bdata.lastPos = true
      rw [hbits, if_neg fun hin => hlast hoff ((hfreed _).mp hin), hbit]
    · rintro (hmem | hmem)
      · exact hfree a ha (inl hmem.1)
      · exact hfree a ha (inr hmem)

/-! ## Allocation -/

variable {start align areasize ret n a limit : ℕ} {bdata' : Bdata}

section

variable (hp : Placed c s.bdata start size align areasize ret bdata' n)
include hp

/-- A byte of an allocation is in the pages that were found, or in the rest of the page before. -/
theorem Placed.cases (hbase : s.bdata.nodeBootStart ≤ a) (ha : a ∈ Set.Ico ret (ret + size)) :
    (start ≤ pageOf c s.bdata a ∧ pageOf c s.bdata a < start + n) ∨
      Tail s.bdata start ∧ a ∈ rest c s.bdata := by
  obtain ⟨hlo, hhi⟩ := ha
  have hend := hp.hi
  by_cases hfirst : pageAddr c s.bdata start ≤ a
  · exact inl ⟨le_pageOf hfirst, pageOf_lt hbase (by omega)⟩
  · rcases hp.lo with hret | ⟨htail, hret⟩
    · omega
    · refine inr ⟨htail, by omega, ?_⟩
      rw [htail.2]
      omega

theorem Placed.base_le : s.bdata.nodeBootStart ≤ ret := by
  rcases hp.lo with hret | ⟨-, hret⟩
  · exact (Nat.le_add_right _ _).trans hret
  · rw [pageAddr] at hret
    omega

/-- The bytes of an allocation were neither allocated nor reserved. -/
theorem Placed.free (hinv : Inv c s)
    (hfree : FreePages s.bdata.nodeBootmemMap (pages c s.bdata) areasize start)
    (ha : a ∈ Set.Ico ret (ret + size)) : a ∉ s.allocated ∪ s.reserved := by
  have hbase : s.bdata.nodeBootStart ≤ a := hp.base_le.trans ha.1
  rcases hp.cases hbase ha with ⟨hlo, hhi⟩ | ⟨htail, hrest⟩
  · have hle := hp.le
    obtain ⟨hlast, hclear⟩ := hfree _ hlo (by omega)
    refine hinv.clear a hbase ?_ hclear
    rw [← hinv.node.pageAddr_pages]
    exact (pageAddr_pageOf hbase).2.trans_le (pageAddr_mono hlast)
  · exact (hinv.tail htail.1).2.2.2 a hrest

end

/-- The invariant after an allocation. -/
theorem Inv.placed (hinv : Inv c s) (hp : Placed c s.bdata start size align areasize ret bdata' n)
    (hfree : FreePages s.bdata.nodeBootmemMap (pages c s.bdata) areasize start)
    (hfit : start + areasize ≤ pages c s.bdata) :
    Inv c ⟨{ bdata' with nodeBootmemMap := setBits s.bdata.nodeBootmemMap n start },
      s.allocated ∪ Set.Ico ret (ret + size), s.reserved⟩ := by
  have hle := hp.le
  obtain ⟨base, low, hasMap, map, off, pos, success⟩ := bdata'
  obtain rfl : base = s.bdata.nodeBootStart := hp.same.1
  obtain rfl : low = s.bdata.nodeLowPfn := hp.same.2.1
  refine ⟨⟨hinv.node.dvd, hinv.node.le, hinv.node.le_bits⟩, fun a ha ha' hclear => ?_,
    fun hoff => ?_⟩
  · change setBits _ _ _ (pageOf c s.bdata a) = false at hclear
    rw [setBits_apply] at hclear
    split_ifs at hclear with hin
    rintro ((hmem | hmem) | hmem)
    · exact hinv.clear a ha ha' hclear (inl hmem)
    · rcases hp.cases ha hmem with hpage | ⟨htail, hrest⟩
      · exact hin hpage
      · -- the page before has its bit set
        have hpage : pageOf c s.bdata a = s.bdata.lastPos :=
          pageOf_eq ((Nat.le_add_right _ _).trans hrest.1) hrest.2
        rw [hpage, (hinv.tail htail.1).2.2.1] at hclear
        exact absurd hclear (by decide)
    · exact hinv.clear a ha ha' hclear (inr hmem)
  · obtain ⟨hlt, hend, hpos⟩ := hp.tail hoff
    change pageAddr c s.bdata pos + off = ret + size at hend
    change start ≤ pos ∧ pos < start + n ∨ Tail s.bdata start ∧ pos = s.bdata.lastPos at hpos
    refine ⟨hlt, ?_, ?_, fun a ha => ?_⟩
    · show pos < pages c s.bdata
      rcases hpos with hpage | ⟨htail, rfl⟩
      · omega
      · exact (hinv.tail htail.1).2.1
    · show setBits _ _ _ pos = true
      rw [setBits_apply]
      rcases hpos with hpage | ⟨htail, rfl⟩
      · exact if_pos hpage
      · rw [(hinv.tail htail.1).2.2.1, ite_self]
    · change a ∈ Set.Ico (pageAddr c s.bdata pos + off) (pageAddr c s.bdata (pos + 1)) at ha
      have hold : a ∉ s.allocated ∪ s.reserved := by
        have hpage : pageAddr c s.bdata pos ≤ a := (Nat.le_add_right _ _).trans ha.1
        rcases hpos with hin | ⟨htail, rfl⟩
        · obtain ⟨hlast, hclear⟩ := hfree pos hin.1 (by omega)
          refine hinv.clear a ((Nat.le_add_right _ _).trans hpage) ?_ ?_
          · rw [← hinv.node.pageAddr_pages]
            exact ha.2.trans_le (pageAddr_mono hlast)
          · rw [pageOf_eq hpage ha.2]
            exact hclear
        · refine (hinv.tail htail.1).2.2.2 a ⟨?_, ha.2⟩
          have hlow := ha.1
          have hhigh := ha.2
          rcases hp.lo with hret | ⟨-, hret⟩
          · rw [← htail.2] at hret
            omega
          · omega
      rintro ((hmem | hmem) | hmem)
      · exact hold (inl hmem)
      · have := ha.1
        have := hmem.2
        omega
      · exact hold (inr hmem)

/-- The pages that an allocation may use are those of the node that are below the limit. -/
theorem eidx_spec {bdata : Bdata} (hnode : NodeOk c bdata)
    (habove : ¬(limit ≠ 0 ∧ bdata.nodeBootStart ≥ limit))
    (hlimit : limit = 0 ∨ c.pageSize ≤ limit ∨ limit ≤ bdata.nodeBootStart) {endPfn : ℕ}
    (hend : endPfn = if c.pfnDown limit ≠ 0 ∧ bdata.nodeLowPfn > c.pfnDown limit then
      c.pfnDown limit else bdata.nodeLowPfn) :
    c.sub endPfn (c.pfnDown bdata.nodeBootStart) ≤ pages c bdata ∧
      (limit ≠ 0 → pageAddr c bdata (c.sub endPfn (c.pfnDown bdata.nodeBootStart)) ≤ limit) := by
  have hP := c.pageSize_pos
  have hlow : bdata.nodeLowPfn < 2 ^ c.bits := by
    have hle := hnode.lowPfn_le
    have htwo := c.two_mul_le
    have hpos := Nat.two_pow_pos c.bits
    omega
  have hmul := Nat.div_mul_le_self limit c.pageSize
  rw [hend]
  split_ifs with hbelow
  · obtain ⟨hne, hgt⟩ := hbelow
    have hpos : limit ≠ 0 := by
      rintro rfl
      exact hne (Nat.zero_div _)
    have hle : c.pfnDown bdata.nodeBootStart ≤ c.pfnDown limit :=
      Nat.div_le_div_right (by omega)
    have hbase : c.pfnDown bdata.nodeBootStart * c.pageSize = bdata.nodeBootStart :=
      Nat.div_mul_cancel hnode.dvd
    rw [c.sub_eq hle (by omega)]
    refine ⟨Nat.sub_le_sub_right hgt.le _, fun _ => ?_⟩
    rw [pageAddr, Nat.sub_mul, hbase]
    show bdata.nodeBootStart + (limit / c.pageSize * c.pageSize - bdata.nodeBootStart) ≤ limit
    omega
  · have hle : c.pfnDown bdata.nodeBootStart ≤ bdata.nodeLowPfn := by
      rw [← Nat.mul_div_cancel bdata.nodeLowPfn hP]
      exact Nat.div_le_div_right hnode.le
    rw [c.sub_eq hle hlow]
    refine ⟨le_rfl, fun hpos => ?_⟩
    show pageAddr c bdata (pages c bdata) ≤ limit
    rw [hnode.pageAddr_pages]
    have hne : c.pfnDown limit ≠ 0 := by
      have hge : c.pageSize ≤ limit := by omega
      exact (Nat.div_pos hge hP).ne'
    have hmono : bdata.nodeLowPfn ≤ limit / c.pageSize := by
      by_contra hnot
      exact hbelow ⟨hne, not_le.mp hnot⟩
    exact (Nat.mul_le_mul_right _ hmono).trans hmul

/-- The alignment of addresses is one of pages. -/
theorem incr_spec (hpow : ∃ k, align = 2 ^ k) (halign : align < 2 ^ c.bits) {incr : ℕ}
    (hincr : incr = if align / c.pageSize ≠ 0 then align / c.pageSize else 1) :
    0 < incr ∧ 2 * incr ≤ 2 ^ (c.bits - c.pageShift) ∧
      (∀ start, incr ∣ start → align ∣ start * c.pageSize) ∧
      (align < c.pageSize → align ∣ c.pageSize) := by
  obtain ⟨k, rfl⟩ := hpow
  have hlt := c.lt
  rcases Nat.lt_or_ge k c.pageShift with hsmall | hlarge
  · have hdvd : 2 ^ k ∣ c.pageSize := pow_dvd_pow 2 hsmall.le
    have hzero : 2 ^ k / c.pageSize = 0 :=
      Nat.div_eq_of_lt (Nat.pow_lt_pow_right (by decide) hsmall)
    have hone : 2 ^ 1 ≤ 2 ^ (c.bits - c.pageShift) := Nat.pow_le_pow_right (by decide) (by omega)
    rw [hincr, if_neg (not_not.mpr hzero)]
    exact ⟨Nat.one_pos, hone, fun start _ => Dvd.dvd.mul_left hdvd start, fun _ => hdvd⟩
  · have hdiv : 2 ^ k / c.pageSize = 2 ^ (k - c.pageShift) := Nat.pow_div hlarge (by decide)
    have hpos : 2 ^ (k - c.pageShift) ≠ 0 := (Nat.two_pow_pos _).ne'
    have hk : k < c.bits := (Nat.pow_lt_pow_iff_right (by decide)).mp halign
    rw [hincr, hdiv, if_pos hpos]
    refine ⟨Nat.two_pow_pos _, ?_, fun start hstart => ?_, fun hsmall => ?_⟩
    · rw [← pow_succ']
      exact Nat.pow_le_pow_right (by decide) (by omega)
    · have heq : 2 ^ k = 2 ^ (k - c.pageShift) * c.pageSize := by
        rw [Config.pageSize, ← pow_add, Nat.sub_add_cancel hlarge]
      rw [heq]
      exact Nat.mul_dvd_mul_right hstart _
    · exact absurd hsmall (not_lt.mpr (Nat.pow_le_pow_right (by decide) hlarge))

/-- An allocation that is aligned, in the node and below the limit, and has no byte in common with
the live allocations and reservations. -/
structure Good (c : Config) (s : State) (size align limit ret : ℕ) : Prop where
  aligned : align ∣ ret
  lo : s.bdata.nodeBootStart ≤ ret
  hi : ret + size ≤ s.bdata.nodeLowPfn * c.pageSize
  limit : limit ≠ 0 → ret + size ≤ limit
  disjoint : ∀ a ∈ Set.Ico ret (ret + size), a ∉ s.allocated ∪ s.reserved

/-- The state after an allocation. -/
def State.allocate (s : State) (size : ℕ) (out : Option ℕ × Bdata) : State :=
  ⟨out.2, s.allocated ∪ (out.1.elim ∅ fun ret => Set.Ico ret (ret + size)), s.reserved⟩

/-- **`__alloc_bootmem_core`** returns, and allocates bytes that were free. -/
theorem Inv.alloc (hinv : Inv c s) (hsize : 0 < size) (hpow : ∃ k, align = 2 ^ k)
    (halign : align < 2 ^ c.bits) (hdvd : align ∣ s.bdata.nodeBootStart)
    (hbits : size + c.pageSize - 1 < 2 ^ c.bits)
    (hlimit : limit = 0 ∨ c.pageSize ≤ limit ∨ limit ≤ s.bdata.nodeBootStart) (goal : ℕ) :
    ∃ out, (∀ turns, pages c s.bdata ≤ turns →
        allocBootmemCore c turns s.bdata size align goal limit = some out) ∧
      (∀ ret, out.1 = some ret → Good c s size align limit ret) ∧ Inv c (s.allocate size out) := by
  have hland : align &&& (align - 1) = 0 := by
    obtain ⟨k, rfl⟩ := hpow
    rw [Nat.and_two_pow_sub_one_eq_mod, Nat.mod_self]
  have hapos : 0 < align := by
    obtain ⟨k, rfl⟩ := hpow
    exact Nat.two_pow_pos k
  have hnone : Inv c (s.allocate size (none, s.bdata)) := by
    show Inv c ⟨s.bdata, s.allocated ∪ ∅, s.reserved⟩
    rw [Set.union_empty]
    exact hinv
  have hstay : ∀ ret, (none : Option ℕ) = some ret → Good c s size align limit ret := by
    rintro ret ⟨⟩
  simp only [allocBootmemCore, if_neg hsize.ne', if_neg (not_not.mpr hland)]
  by_cases habove : limit ≠ 0 ∧ s.bdata.nodeBootStart ≥ limit
  · exact ⟨(none, s.bdata), fun turns _ => if_pos habove, hstay, hnone⟩
  by_cases hmap : s.bdata.hasMap = false
  · exact ⟨(none, s.bdata), fun turns _ => (if_neg habove).trans (if_pos hmap), hstay, hnone⟩
  obtain ⟨endPfn, hend⟩ : ∃ endPfn, endPfn = if c.pfnDown limit ≠ 0 ∧
      s.bdata.nodeLowPfn > c.pfnDown limit then c.pfnDown limit else s.bdata.nodeLowPfn := ⟨_, rfl⟩
  obtain ⟨incr, hincr⟩ : ∃ incr, incr =
      if align / c.pageSize ≠ 0 then align / c.pageSize else 1 := ⟨_, rfl⟩
  obtain ⟨heidx, hbelow⟩ := eidx_spec hinv.node habove hlimit hend
  obtain ⟨hpos, hwrap, hmul, hsmall⟩ := incr_spec hpow halign hincr
  have hpages : pages c s.bdata ≤ 2 ^ (c.bits - c.pageShift) :=
    (Nat.sub_le _ _).trans hinv.node.lowPfn_le
  have hceil := ceil_pos hsize c.pageSize_pos
  generalize harea : (size + c.pageSize - 1) / c.pageSize = areasize at hceil
  simp only [if_neg habove, if_neg hmap, c.word_eq hbits, ← hend, ← hincr, harea]
  generalize c.sub endPfn (c.pfnDown s.bdata.nodeBootStart) = eidx at heidx hbelow ⊢
  obtain ⟨start, hsearch, hfinds⟩ := search_spec s.bdata.nodeBootmemMap areasize hpos
    (show eidx + 2 * incr ≤ 2 ^ c.bits by have := c.two_mul_le; omega)
    (preferred c s.bdata align goal (c.pfnDown limit) endPfn (startOffset c s.bdata align))
    (startOffset c s.bdata align)
  cases start with
  | none =>
    refine ⟨(none, s.bdata), fun turns hturns => ?_, hstay, hnone⟩
    rw [hsearch turns (heidx.trans hturns)]
    rfl
  | some start =>
    obtain ⟨hincr, -, -, hfree⟩ := hfinds start rfl
    have hfit : start + areasize ≤ eidx := by
      have hlast := (hfree (start + areasize - 1) (by omega) (by omega)).1
      omega
    have hfree' : FreePages s.bdata.nodeBootmemMap (pages c s.bdata) areasize start :=
      fun k hlo hhi => ⟨(hfree k hlo hhi).1.trans_le heidx, (hfree k hlo hhi).2⟩
    obtain ⟨ret, bdata', n, hfound, hplaced⟩ := found_spec hinv.node hsize harea.symm
      (hfit.trans heidx) hapos hbits (hmul start hincr) hsmall
      (fun hoff => ⟨(hinv.tail hoff).1, (hinv.tail hoff).2.1⟩) hfree'
    refine ⟨(some ret, { bdata' with nodeBootmemMap := setBits s.bdata.nodeBootmemMap n start }),
      fun turns hturns => ?_, fun ret' hret' => ?_, ?_⟩
    · rw [hsearch turns (heidx.trans hturns), Option.bind_some, finish, hfound]
      rfl
    · obtain rfl := Option.some.inj hret'
      have hhi : ret + size ≤ pageAddr c s.bdata eidx :=
        hplaced.hi.trans (pageAddr_mono ((Nat.add_le_add_left hplaced.le _).trans hfit))
      refine ⟨hplaced.aligned hdvd, hplaced.base_le, ?_, fun hne => hhi.trans (hbelow hne), ?_⟩
      · rw [← hinv.node.pageAddr_pages]
        exact hhi.trans (pageAddr_mono heidx)
      · exact fun a ha => hplaced.free hinv hfree' ha
    · exact hinv.placed hplaced hfree' (hfit.trans heidx)

end

/-! ## Runs -/

/-- The operations. -/
inductive Event
  | reserve (addr size : ℕ)
  | alloc (size align goal limit : ℕ)
  | free (addr size : ℕ)

/-- What callers can ask for: ranges of the node are reserved, any number of bytes is allocated,
with a power of two for the alignment, and whole pages of live allocations are freed. -/
def Allowed (c : Config) (s : State) : Event → Prop
  | .reserve addr size => 0 < size ∧ s.bdata.nodeBootStart ≤ addr ∧
      addr + size ≤ s.bdata.nodeLowPfn * c.pageSize
  | .alloc size align goal limit => 0 < size ∧ size < 2 ^ c.bits ∧ (∃ k, align = 2 ^ k) ∧
      align < 2 ^ c.bits ∧ goal < 2 ^ c.bits ∧ limit < 2 ^ c.bits
  | .free addr size => 0 < size ∧ s.bdata.nodeBootStart ≤ addr ∧
      addr + size ≤ s.bdata.nodeLowPfn * c.pageSize ∧
      ∀ i, WholePage c s.bdata addr size i → ∃ a ∈ s.allocated,
        s.bdata.nodeBootStart ≤ a ∧ pageOf c s.bdata a = i

/-- What the allocator gets right.  The end of a range can be rounded up to pages.  A reservation
has no byte in the rest of the page in which the last allocation ended.  An alignment is one of the
start of the node, a size can be rounded up to pages, and a limit is at least a page, or not above
the node.  A page in which the last allocation ended is not freed, nor is one with reserved
bytes. -/
def Kept (c : Config) (s : State) : Event → Prop
  | .reserve addr size => addr + size + c.pageSize - 1 < 2 ^ c.bits ∧ (s.bdata.lastOffset ≠ 0 →
      ∀ a ∈ Set.Ico addr (addr + size), a ∉ rest c s.bdata)
  | .alloc size align _ limit => align ∣ s.bdata.nodeBootStart ∧
      size + c.pageSize - 1 < 2 ^ c.bits ∧
      (limit = 0 ∨ c.pageSize ≤ limit ∨ limit ≤ s.bdata.nodeBootStart)
  | .free addr size => addr + size + c.pageSize - 1 < 2 ^ c.bits ∧
      (s.bdata.lastOffset ≠ 0 → ¬WholePage c s.bdata addr size s.bdata.lastPos) ∧
      ∀ a ∈ s.reserved, s.bdata.nodeBootStart ≤ a →
        ¬WholePage c s.bdata addr size (pageOf c s.bdata a)

/-- What an operation does. -/
def Step (c : Config) (s : State) : Event → State → Prop
  | .reserve addr size, s' => ∃ bdata', reserveBootmemCore c s.bdata addr size = some bdata' ∧
      s' = ⟨bdata', s.allocated, s.reserved ∪ Set.Ico addr (addr + size)⟩
  | .alloc size align goal limit, s' => ∃ out,
      Returns (fun turns => allocBootmemCore c turns s.bdata size align goal limit) out ∧
      s' = s.allocate size out
  | .free addr size, s' => ∃ bdata', freeBootmemCore c s.bdata addr size = some bdata' ∧
      s' = ⟨bdata', s.allocated \ { a | s.bdata.nodeBootStart ≤ a ∧
        WholePage c s.bdata addr size (pageOf c s.bdata a) }, s.reserved⟩

/-- A node before the first allocation, with any pages free. -/
def Start (c : Config) (s : State) : Prop :=
  NodeOk c s.bdata ∧ s.bdata.lastOffset = 0 ∧ s.allocated = ∅ ∧ s.reserved = ∅

/-- The runs of the operations that the allocator gets right. -/
def system (c : Config) : System State Event where
  init := Start c
  step _ s e s' := Allowed c s e ∧ Kept c s e ∧ Step c s e s'

variable {s s1 s2 : State} {e : Event}

theorem Step.unique (h1 : Step c s e s1) (h2 : Step c s e s2) : s1 = s2 := by
  cases e with
  | reserve | free =>
    obtain ⟨b1, hrun1, rfl⟩ := h1
    obtain ⟨b2, hrun2, rfl⟩ := h2
    rw [Option.some.inj (hrun1.symm.trans hrun2)]
  | alloc size align goal limit =>
    obtain ⟨out1, hrun1, rfl⟩ := h1
    obtain ⟨out2, hrun2, rfl⟩ := h2
    rw [hrun1.unique hrun2]

/-- **One operation.**  It returns, and keeps the invariant. -/
theorem Inv.step (hinv : Inv c s) (he : Allowed c s e) (hk : Kept c s e) :
    ∃ s', Step c s e s' ∧ Inv c s' := by
  cases e with
  | reserve addr size =>
    obtain ⟨bdata', hrun, hinv'⟩ := hinv.reserve he.1 he.2.1 he.2.2 hk.1 hk.2
    exact ⟨_, ⟨bdata', hrun, rfl⟩, hinv'⟩
  | alloc size align goal limit =>
    obtain ⟨hsize, -, hpow, halign, -, -⟩ := he
    obtain ⟨out, hrun, -, hinv'⟩ := hinv.alloc hsize hpow halign hk.1 hk.2.1 hk.2.2 goal
    exact ⟨_, ⟨out, ⟨pages c s.bdata, hrun⟩, rfl⟩, hinv'⟩
  | free addr size =>
    obtain ⟨hsize, hlo, hhi, hlive⟩ := he
    obtain ⟨bdata', hrun, hinv'⟩ := hinv.free hsize hlo hhi hk.1 hlive hk.2.1 hk.2.2
    exact ⟨_, ⟨bdata', hrun, rfl⟩, hinv'⟩

theorem Start.inv (h : Start c s) : Inv c s := by
  obtain ⟨hnode, hoff, hallocated, hreserved⟩ := h
  refine ⟨hnode, fun a _ _ _ => ?_, fun hne => absurd hoff hne⟩
  rw [hallocated, hreserved, Set.union_empty]
  exact Set.notMem_empty a

theorem inv_of_reach {tr : List Event} (h : (system c).Reach tr s) : Inv c s := by
  refine h.invariant (P := fun _ s => Inv c s) (fun s hinit => Start.inv hinit) ?_
  rintro tr s e s' hinv ⟨hallowed, hkept, hstep⟩
  obtain ⟨s'', hstep', hinv'⟩ := hinv.step hallowed hkept
  rw [hstep.unique hstep']
  exact hinv'

/-- **Main theorem.**  In every state of every run of operations that the allocator gets right, each
such operation returns, and an allocation that succeeds is aligned, lies in the node and below the
limit, and has no byte in common with the live allocations and the reservations. -/
theorem bootmem_disjoint {tr : List Event} (h : (system c).Reach tr s) :
    (∀ size align goal limit, Allowed c s (.alloc size align goal limit) →
      Kept c s (.alloc size align goal limit) → ∃ out,
        Returns (fun turns => allocBootmemCore c turns s.bdata size align goal limit) out ∧
        ∀ ret, out.1 = some ret → Good c s size align limit ret) ∧
    ∀ e, Allowed c s e → Kept c s e → ∃ s', Step c s e s' := by
  have hinv := inv_of_reach h
  refine ⟨?_, fun e he hk => ?_⟩
  · rintro size align goal limit ⟨hsize, -, hpow, halign, -, -⟩ hk
    obtain ⟨out, hrun, hgood, -⟩ := hinv.alloc hsize hpow halign hk.1 hk.2.1 hk.2.2 goal
    exact ⟨out, ⟨pages c s.bdata, hrun⟩, hgood⟩
  · obtain ⟨s', hstep, -⟩ := hinv.step he hk
    exact ⟨s', hstep⟩

/-- Words of 32 bits and pages of 4096 bytes. -/
def config32 : Config := ⟨32, 12, by decide, by decide⟩

/-- A node whose pages are all free, from its start to the page `low`. -/
def freshNode (start low : ℕ) : State := ⟨⟨start, low, true, fun _ => false, 0, 0, 0⟩, ∅, ∅⟩

theorem start_freshNode : Start config32 (freshNode 0 8) :=
  ⟨⟨by decide, by decide, by decide⟩, rfl, rfl, rfl⟩

/-- The theorem applies to a node of eight pages after 100 bytes were allocated. -/
theorem bootmem_disjoint_hundred : ∃ s, (system config32).Reach [.alloc 100 4 0 0] s ∧
    (∀ size align goal limit, Allowed config32 s (.alloc size align goal limit) →
      Kept config32 s (.alloc size align goal limit) → ∃ out,
        Returns (fun turns => allocBootmemCore config32 turns s.bdata size align goal limit) out ∧
        ∀ ret, out.1 = some ret → Good config32 s size align limit ret) ∧
    ∀ e, Allowed config32 s e → Kept config32 s e → ∃ s', Step config32 s e s' := by
  have hallowed : Allowed config32 (freshNode 0 8) (.alloc 100 4 0 0) :=
    ⟨by decide, by decide, ⟨2, rfl⟩, by decide, by decide, by decide⟩
  have hkept : Kept config32 (freshNode 0 8) (.alloc 100 4 0 0) := by
    refine ⟨Dvd.intro 0 rfl, by decide, inl rfl⟩
  obtain ⟨s, hstep, -⟩ := (Start.inv start_freshNode).step hallowed hkept
  have hreach : (system config32).Reach [.alloc 100 4 0 0] s :=
    .step (.init start_freshNode) ⟨hallowed, hkept, hstep⟩
  exact ⟨s, hreach, bootmem_disjoint hreach⟩

/-- **What the allocator gets wrong.**  In a node that starts at 4096, an allocation with alignment
8192 is at 12288.  In a node that starts at 0, an allocation of 3840 bytes behind one of 100 bytes
is at 100, although the bytes from 2048 to 2303 were reserved in between; an allocation that follows
the release of the first page is in that page, and the page is then allocated once more; the limit
100 is ignored; and so is the size `2 ^ 32 - 1`. -/
theorem bootmem_overlaps :
    (Start config32 (freshNode 4096 9) ∧ Allowed config32 (freshNode 4096 9) (.alloc 1 8192 0 0) ∧
      (allocBootmemCore config32 8 (freshNode 4096 9).bdata 1 8192 0 0).map Prod.fst =
        some (some 12288) ∧ ¬8192 ∣ 12288) ∧
    ((allocBootmemCore config32 8 (freshNode 0 8).bdata 100 1 0 0).bind fun a =>
        (reserveBootmemCore config32 a.2 2048 256).bind fun b =>
          (allocBootmemCore config32 8 b 3840 1 0 0).map fun d => (a.1, d.1)) =
      some (some 0, some 100) ∧
    ((allocBootmemCore config32 8 (freshNode 0 8).bdata 100 1 0 0).bind fun a =>
        (freeBootmemCore config32 a.2 0 4096).bind fun b =>
          (allocBootmemCore config32 8 b 50 1 4096 0).bind fun d =>
            (allocBootmemCore config32 8 d.2 4096 1 0 0).map fun e => (a.1, d.1, e.1)) =
      some (some 0, some 100, some 0) ∧
    (allocBootmemCore config32 8 (freshNode 0 8).bdata 5000 1 0 100).map Prod.fst =
      some (some 0) ∧
    (allocBootmemCore config32 8 (freshNode 0 8).bdata (2 ^ 32 - 1) 1 0 0).map Prod.fst =
      some (some 0) := by
  refine ⟨⟨⟨⟨by decide, by decide, by decide⟩, rfl, rfl, rfl⟩,
    ⟨by decide, by decide, ⟨13, rfl⟩, by decide, by decide, by decide⟩, by decide +kernel,
    by decide⟩,
    ?_, ?_, ?_, ?_⟩
  · decide +kernel
  · decide +kernel
  · decide +kernel
  · decide +kernel

end Gp2xKernel.Bootmem
