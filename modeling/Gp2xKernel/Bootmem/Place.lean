import Gp2xKernel.Bootmem.Search

/-!
# Where an allocation is placed

An allocation starts at the pages that the search found, or in the rest of the page before them, if
the last allocation ended there.

## Main definitions

* `NodeOk`: a node, as `init_bootmem_core` sets it up
* `Placed`: where an allocation is, and what the node remembers of it

## Main results

* `place_spec`: the allocation lies in the pages that were found, and in the rest of the page before
* `found_spec`: these pages are then reserved
-/

namespace Gp2xKernel.Bootmem

open Nat

variable {c : Config} {bdata : Bdata} {start size align areasize : ℕ}

/-- A node starts at a page, and has no page behind the last address: `init_bootmem_core` is given
the numbers of its first page and of the page behind its last. -/
structure NodeOk (c : Config) (bdata : Bdata) : Prop where
  dvd : c.pageSize ∣ bdata.nodeBootStart
  le : bdata.nodeBootStart ≤ bdata.nodeLowPfn * c.pageSize
  le_bits : bdata.nodeLowPfn * c.pageSize ≤ 2 ^ c.bits

/-- The number of the pages of a node. -/
def pages (c : Config) (bdata : Bdata) : ℕ := bdata.nodeLowPfn - bdata.nodeBootStart / c.pageSize

/-- The address of a page of a node. -/
def pageAddr (c : Config) (bdata : Bdata) (i : ℕ) : ℕ := bdata.nodeBootStart + i * c.pageSize

/-- The last allocation ended in the page before page `start`. -/
def Tail (bdata : Bdata) (start : ℕ) : Prop := bdata.lastOffset ≠ 0 ∧ bdata.lastPos + 1 = start

/-- Where an allocation of `size` bytes is, if pages were found from page `start` on: it ends in the
`n` pages from there on, or in the page before them, and the node remembers where. -/
structure Placed (c : Config) (bdata : Bdata) (start size align areasize ret : ℕ) (bdata' : Bdata)
    (n : ℕ) : Prop where
  lo : pageAddr c bdata start ≤ ret ∨
    Tail bdata start ∧ pageAddr c bdata bdata.lastPos + bdata.lastOffset ≤ ret
  hi : ret + size ≤ pageAddr c bdata (start + n)
  le : n ≤ areasize
  aligned : align ∣ bdata.nodeBootStart → align ∣ ret
  tail : bdata'.lastOffset ≠ 0 → bdata'.lastOffset < c.pageSize ∧
    pageAddr c bdata bdata'.lastPos + bdata'.lastOffset = ret + size ∧
    (start ≤ bdata'.lastPos ∧ bdata'.lastPos < start + n ∨
      Tail bdata start ∧ bdata'.lastPos = bdata.lastPos)
  same : bdata'.nodeBootStart = bdata.nodeBootStart ∧ bdata'.nodeLowPfn = bdata.nodeLowPfn ∧
    bdata'.hasMap = bdata.hasMap ∧ bdata'.nodeBootmemMap = bdata.nodeBootmemMap

variable {p x i : ℕ}

/-- How many pages a number of bytes needs. -/
theorem ceil_le_iff {q : ℕ} (hp : 0 < p) : (x + p - 1) / p ≤ q ↔ x ≤ q * p := by
  rw [← Nat.lt_succ_iff, div_lt_iff_lt_mul hp, succ_mul]
  omega

theorem le_ceil (x : ℕ) (hp : 0 < p) : x ≤ (x + p - 1) / p * p := (ceil_le_iff hp).mp le_rfl

/-- The last of the pages has the rest of the bytes. -/
theorem ceil_of_mod_ne_zero (hp : 0 < p) (hmod : x % p ≠ 0) : (x + p - 1) / p = x / p + 1 := by
  have hdiv := div_add_mod x p
  have hlt := mod_lt x hp
  have heq : x + p - 1 = x % p - 1 + p * (x / p + 1) := by
    rw [mul_add]
    omega
  rw [heq, add_mul_div_left _ _ hp, div_eq_of_lt (by omega), zero_add]

theorem ceil_pos (hx : 0 < x) (hp : 0 < p) : 0 < (x + p - 1) / p :=
  div_pos (by omega) hp

theorem pageAddr_add (bdata : Bdata) (i j : ℕ) :
    pageAddr c bdata (i + j) = pageAddr c bdata i + j * c.pageSize := by
  rw [pageAddr, pageAddr, add_mul, add_assoc]

/-- The last of the pages of a number of bytes has the rest of them. -/
theorem pageAddr_last (bdata : Bdata) {n rest : ℕ} (hlast : start + n < 2 ^ c.bits)
    (hn : n = rest / c.pageSize + 1) :
    pageAddr c bdata (c.sub (c.word (start + n)) 1) + rest % c.pageSize =
        pageAddr c bdata start + rest ∧
      start ≤ c.sub (c.word (start + n)) 1 ∧ c.sub (c.word (start + n)) 1 < start + n := by
  have hpos : 0 < n := hn ▸ succ_pos _
  rw [c.word_eq hlast, c.sub_eq (by omega) hlast]
  have hdiv := div_add_mod rest c.pageSize
  rw [mul_comm] at hdiv
  rw [hn, ← add_assoc, Nat.add_sub_cancel, pageAddr_add]
  omega

section

variable (h : NodeOk c bdata)
include h

theorem NodeOk.pageAddr_pages :
    pageAddr c bdata (pages c bdata) = bdata.nodeLowPfn * c.pageSize := by
  obtain ⟨k, hk⟩ := h.dvd
  have hle := h.le
  have hdiv : bdata.nodeBootStart / c.pageSize = k := by
    rw [hk, Nat.mul_div_cancel_left k c.pageSize_pos]
  rw [pageAddr, pages, hdiv, Nat.sub_mul, Nat.mul_comm k]
  omega

theorem NodeOk.pageAddr_lt (hi : i < pages c bdata) : pageAddr c bdata i < 2 ^ c.bits := by
  have hmul := mul_le_mul_right c.pageSize (succ_le_of_lt hi)
  have hend := h.pageAddr_pages
  have hle := h.le_bits
  have hpos := c.pageSize_pos
  rw [succ_mul] at hmul
  rw [pageAddr] at hend ⊢
  omega

/-- The number of a page fits in a word, with room to spare. -/
theorem NodeOk.lowPfn_le : bdata.nodeLowPfn ≤ 2 ^ (c.bits - c.pageShift) := by
  have hle := h.le_bits
  rw [← c.pageSize_mul] at hle
  exact Nat.le_of_mul_le_mul_right hle c.pageSize_pos

theorem NodeOk.index_lt (hi : i ≤ pages c bdata) : i < 2 ^ c.bits := by
  have hlow := h.lowPfn_le
  have htwo := c.two_mul_le
  have hpos := Nat.two_pow_pos c.bits
  have hsub : pages c bdata ≤ bdata.nodeLowPfn := sub_le _ _
  omega

end

/-- The last offset, rounded up, is in the page or at its end. -/
theorem align_le_pageSize {a : ℕ} (ha : 0 < a) (hx : x < p) (hdvd : a ∣ p)
    (hwrap : x + a ≤ 2 ^ c.bits) : c.align x a ≤ p := by
  obtain ⟨-, hhi, hadvd⟩ := c.align_spec ha hwrap
  by_contra hnot
  have hle := le_of_dvd (by omega) (dvd_sub hadvd hdvd)
  omega

section

variable (hnode : NodeOk c bdata) (hsize : 0 < size)
  (harea : areasize = (size + c.pageSize - 1) / c.pageSize)
  (hstart : start + areasize ≤ pages c bdata)
include hnode hsize harea hstart

/-- The allocation starts at the pages that were found. -/
theorem place_fresh (halign : align ∣ start * c.pageSize) :
    Placed c bdata start size align areasize (c.word (start * c.pageSize + bdata.nodeBootStart))
      { bdata with
        lastPos := c.sub (c.word (start + areasize)) 1
        lastOffset := size % c.pageSize }
      areasize := by
  subst harea
  have hP := c.pageSize_pos
  have hpos := ceil_pos hsize hP
  have hret : c.word (start * c.pageSize + bdata.nodeBootStart) = pageAddr c bdata start := by
    have hlt := hnode.pageAddr_lt ((Nat.lt_add_of_pos_right hpos).trans_le hstart)
    rw [pageAddr] at hlt ⊢
    rw [c.word_eq (by omega), add_comm]
  have hceil := le_ceil size hP
  rw [hret]
  refine ⟨Or.inl le_rfl, ?_, le_rfl, fun hdvd => Nat.dvd_add hdvd halign, fun hoff => ?_,
    rfl, rfl, rfl, rfl⟩
  · rw [pageAddr_add]
    omega
  · obtain ⟨hend, hin⟩ := pageAddr_last bdata (hnode.index_lt hstart) (ceil_of_mod_ne_zero hP hoff)
    exact ⟨mod_lt _ hP, hend, Or.inl hin⟩

variable (ha : 0 < align) (hbits : size + c.pageSize - 1 < 2 ^ c.bits)
include ha hbits

/-- The allocation starts in the rest of the page before them. -/
theorem place_merge (hlt : align < c.pageSize) (hdvd : align ∣ c.pageSize)
    (htail : Tail bdata start) (hoff : bdata.lastOffset < c.pageSize) :
    ∃ out, place c bdata start size align areasize = some out ∧
      Placed c bdata start size align areasize out.1 out.2.1 out.2.2 := by
  obtain ⟨hne, rfl⟩ := id htail
  subst harea
  have hP := c.pageSize_pos
  have hwrap : bdata.lastOffset + align ≤ 2 ^ c.bits := by
    have htwo := c.two_mul_pageSize_le
    omega
  obtain ⟨halo, hahi, hadvd⟩ := c.align_spec ha hwrap
  have hle : c.align bdata.lastOffset align ≤ c.pageSize := align_le_pageSize ha hoff hdvd hwrap
  have hfirst : bdata.lastPos + 1 < pages c bdata :=
    (Nat.lt_add_of_pos_right (ceil_pos hsize hP)).trans_le hstart
  have hnext :
      pageAddr c bdata (bdata.lastPos + 1) = pageAddr c bdata bdata.lastPos + c.pageSize := by
    rw [pageAddr_add, one_mul]
  have hret : c.word (bdata.lastPos * c.pageSize + c.align bdata.lastOffset align +
      bdata.nodeBootStart) = pageAddr c bdata bdata.lastPos + c.align bdata.lastOffset align := by
    have hend := hnode.pageAddr_lt hfirst
    rw [hnext] at hend
    rw [pageAddr] at hend ⊢
    rw [c.word_eq (by omega)]
    omega
  have haligned : align ∣ bdata.nodeBootStart →
      align ∣ pageAddr c bdata bdata.lastPos + c.align bdata.lastOffset align := fun hbase =>
    Nat.dvd_add (Nat.dvd_add hbase (Dvd.dvd.mul_left hdvd _)) hadvd
  rw [place, if_pos ⟨hlt, hne, c.word_eq (hnode.index_lt hfirst.le)⟩]
  simp only [hret]
  rw [if_neg (not_lt.mpr hle)]
  by_cases hfits : size < c.pageSize - c.align bdata.lastOffset align
  · -- all of it fits in the rest of the page
    have hword : c.word (c.align bdata.lastOffset align + size) % c.pageSize =
        c.align bdata.lastOffset align + size := by
      rw [c.word_eq (by omega), mod_eq_of_lt (by omega)]
    rw [if_pos hfits, hword]
    refine ⟨_, rfl, Or.inr ⟨htail, by omega⟩, ?_, zero_le _, haligned, fun _ => ?_, rfl, rfl,
      rfl, rfl⟩
    · show pageAddr c bdata bdata.lastPos + _ + size ≤ pageAddr c bdata (bdata.lastPos + 1)
      omega
    · exact ⟨by show _ + size < _; omega, (add_assoc _ _ _).symm, Or.inr ⟨htail, rfl⟩⟩
  · -- the rest of it starts at the pages that were found
    obtain ⟨rest, hrest⟩ : ∃ rest, size = c.pageSize - c.align bdata.lastOffset align + rest :=
      Nat.exists_eq_add_of_le (not_lt.mp hfits)
    have hsub : size - (c.pageSize - c.align bdata.lastOffset align) = rest := by omega
    rw [if_neg hfits, hsub, c.word_eq (show rest + c.pageSize - 1 < 2 ^ c.bits by omega)]
    have hmono : (rest + c.pageSize - 1) / c.pageSize ≤ (size + c.pageSize - 1) / c.pageSize :=
      Nat.div_le_div_right (by omega)
    have hceil := le_ceil rest hP
    have hpages : rest % c.pageSize ≠ 0 → (rest + c.pageSize - 1) / c.pageSize =
        rest / c.pageSize + 1 := ceil_of_mod_ne_zero hP
    generalize (rest + c.pageSize - 1) / c.pageSize = n at hmono hceil hpages ⊢
    have hlast := hnode.index_lt ((Nat.add_le_add_left hmono _).trans hstart)
    refine ⟨_, rfl, Or.inr ⟨htail, by omega⟩, ?_, hmono, haligned, fun hmod => ?_, rfl, rfl,
      rfl, rfl⟩
    · show pageAddr c bdata bdata.lastPos + _ + size ≤ pageAddr c bdata (bdata.lastPos + 1 + n)
      rw [pageAddr_add]
      omega
    · obtain ⟨hend, hin⟩ := pageAddr_last bdata hlast (hpages hmod)
      refine ⟨mod_lt _ hP, hend.trans ?_, Or.inl hin⟩
      omega

variable (halign : align ∣ start * c.pageSize) (hsmall : align < c.pageSize → align ∣ c.pageSize)
  (hoff : bdata.lastOffset ≠ 0 → bdata.lastOffset < c.pageSize ∧ bdata.lastPos < pages c bdata)
include halign hsmall hoff

/-- **An allocation is placed.** -/
theorem place_spec : ∃ out, place c bdata start size align areasize = some out ∧
    Placed c bdata start size align areasize out.1 out.2.1 out.2.2 := by
  by_cases hmerge : align < c.pageSize ∧ bdata.lastOffset ≠ 0 ∧ c.word (bdata.lastPos + 1) = start
  · obtain ⟨hlt, hne, hpos⟩ := hmerge
    obtain ⟨hoff, hlast⟩ := hoff hne
    rw [c.word_eq (hnode.index_lt hlast)] at hpos
    exact place_merge hnode hsize harea hstart ha hbits hlt (hsmall hlt) ⟨hne, hpos⟩ hoff
  · exact ⟨_, if_neg hmerge, place_fresh hnode hsize harea hstart halign⟩

/-- **The pages are reserved.** -/
theorem found_spec (hfree : FreePages bdata.nodeBootmemMap (pages c bdata) areasize start) :
    ∃ ret bdata' n, found c bdata start size align areasize =
        some (ret, { bdata' with nodeBootmemMap := setBits bdata.nodeBootmemMap n start }) ∧
      Placed c bdata start size align areasize ret bdata' n := by
  obtain ⟨⟨ret, bdata', n⟩, hplace, hplaced⟩ :=
    place_spec (show NodeOk c { bdata with lastSuccess := c.pfnPhys start } from
      ⟨hnode.dvd, hnode.le, hnode.le_bits⟩) hsize harea hstart ha hbits halign hsmall hoff
  have hmap : bdata'.nodeBootmemMap = bdata.nodeBootmemMap := hplaced.same.2.2.2
  have hclaim : claimBits bdata'.nodeBootmemMap n start =
      some (setBits bdata.nodeBootmemMap n start) := by
    rw [hmap]
    exact claimBits_eq fun j hlo hhi =>
      (hfree j hlo (hhi.trans_le (Nat.add_le_add_left hplaced.le _))).2
  refine ⟨ret, bdata', n, ?_, hplaced.lo, hplaced.hi, hplaced.le, hplaced.aligned, hplaced.tail,
    hplaced.same⟩
  rw [found, hplace]
  show (claimBits bdata'.nodeBootmemMap n start).bind _ = _
  rw [hclaim]
  rfl

end

end Gp2xKernel.Bootmem
