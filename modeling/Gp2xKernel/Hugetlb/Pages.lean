import Mathlib.Tactic.NormNum
import Mathlib.Tactic.Positivity
import Mathlib.Data.Int.Interval
import Mathlib.Data.Int.ConditionallyCompleteOrder
import Gp2xKernel.Library.Turns
import Gp2xKernel.Hugetlb.Basic

/-!
# The list of regions is a set of pages

The regions of a list are sorted, with gaps between them, and stand for the set of the pages in
them.

## Main definitions

* `pages`: the set of the pages in regions
* `Sorted`: the regions are sorted and disjoint
* `Keeps`: the list in memory has these regions

## Main results

* `Sorted.insert`: a region is added in a gap
* `Sorted.card_sdiff`: how many pages of a range are not in the set
* `Keeps.free`, `Keeps.setRange`, `Keeps.placeholder`: what the assignments do to the list
* `locate_first`: the search that all operations begin with
-/

namespace Gp2xKernel.Hugetlb

open Library List Function Int Finset
open Finset (mem_union mem_Ico mem_sdiff)

/-- A region and its range. -/
abbrev Entry := ℕ × FileRegion

variable {W head : ℕ} {m : Regions} {xs ys : List Entry} {p : Entry}

/-! ## The set of pages -/

/-- The pages in the regions. -/
noncomputable def pages (xs : List Entry) : Finset ℤ :=
  xs.foldr (fun p s => Finset.Ico p.2.fromPage p.2.toPage ∪ s) ∅

/-- The regions are ranges of page indices, in order and with gaps between them. -/
structure Sorted (W : ℕ) (xs : List Entry) : Prop where
  proper : ∀ p ∈ xs, p.2.fromPage ≤ p.2.toPage
  gaps : xs.Pairwise fun p q => p.2.toPage < q.2.fromPage
  bounds : ∀ p ∈ xs, 0 ≤ p.2.fromPage ∧ p.2.toPage < 2 ^ (W - 1)

@[simp] theorem pages_nil : pages [] = ∅ := rfl

@[simp] theorem pages_cons (p : Entry) (xs : List Entry) :
    pages (p :: xs) = Finset.Ico p.2.fromPage p.2.toPage ∪ pages xs := rfl

variable {i t f : ℤ} {r : FileRegion} {turns : ℕ}

theorem mem_pages : i ∈ pages xs ↔ ∃ p ∈ xs, p.2.fromPage ≤ i ∧ i < p.2.toPage := by
  induction xs with
  | nil => simp
  | cons p xs ih => simp [ih]

theorem pages_append (xs ys : List Entry) : pages (xs ++ ys) = pages xs ∪ pages ys := by
  induction xs with
  | nil => simp
  | cons p xs ih => rw [cons_append, pages_cons, ih, pages_cons, union_assoc]

theorem Sorted.sublist (h : Sorted W xs) (hsub : ys.Sublist xs) : Sorted W ys :=
  ⟨fun p hp => h.proper p (hsub.subset hp), h.gaps.sublist hsub,
    fun p hp => h.bounds p (hsub.subset hp)⟩

/-- A region that fits into a gap. -/
theorem Sorted.insert (h : Sorted W (xs ++ ys)) (hxs : ∀ q ∈ xs, q.2.toPage < r.fromPage)
    (hproper : r.fromPage ≤ r.toPage) (hys : ∀ q ∈ ys, r.toPage < q.2.fromPage)
    (hr0 : 0 ≤ r.fromPage) (hr : r.toPage < 2 ^ (W - 1))
    (n : ℕ) : Sorted W (xs ++ (n, r) :: ys) := by
  obtain ⟨hx, hy, hxy⟩ := pairwise_append.mp h.gaps
  refine ⟨fun q hq => ?_, ?_, fun q hq => ?_⟩
  · rcases mem_cons.mp (perm_middle.mem_iff.mp hq) with rfl | hq
    · exact hproper
    · exact h.proper q hq
  · refine pairwise_append.mpr ⟨hx, pairwise_cons.mpr ⟨hys, hy⟩, fun q hq s hs => ?_⟩
    rcases mem_cons.mp hs with rfl | hs
    · exact hxs q hq
    · exact hxy q hq s hs
  · rcases mem_cons.mp (perm_middle.mem_iff.mp hq) with rfl | hq
    · exact ⟨hr0, hr⟩
    · exact h.bounds q hq

section

variable (h : Sorted W (p :: ys))
include h

theorem Sorted.lt_of_mem_pages (hi : i ∈ pages ys) : p.2.toPage < i := by
  obtain ⟨q, hq, hlo, -⟩ := mem_pages.mp hi
  exact ((pairwise_cons.mp h.gaps).1 q hq).trans_le hlo

theorem Sorted.le_of_mem_pages (hi : i ∈ pages (p :: ys)) : p.2.fromPage ≤ i := by
  rw [pages_cons, mem_union, mem_Ico] at hi
  rcases hi with hi | hi
  · exact hi.1
  · exact (h.proper p mem_cons_self).trans (h.lt_of_mem_pages hi).le

theorem Sorted.card_pages_cons :
    ((pages (p :: ys)).card : ℤ) = (p.2.toPage - p.2.fromPage) + (pages ys).card := by
  have hdisj : Disjoint (Finset.Ico p.2.fromPage p.2.toPage) (pages ys) := by
    rw [Finset.disjoint_left]
    intro i hi hi'
    exact absurd (mem_Ico.mp hi).2 (h.lt_of_mem_pages hi').le.not_gt
  have hle := h.proper p mem_cons_self
  rw [pages_cons, card_union_of_disjoint hdisj, Nat.cast_add, card_Ico,
    toNat_of_nonneg (sub_nonneg.mpr hle)]

omit h in
theorem Sorted.card_lt (h : Sorted W xs) : ((pages xs).card : ℤ) < 2 ^ (W - 1) := by
  have hsub : pages xs ⊆ Finset.Ico 0 (2 ^ (W - 1) - 1) := by
    intro i hi
    obtain ⟨p, hp, hlo, hhi⟩ := mem_pages.mp hi
    obtain ⟨h0, hW⟩ := h.bounds p hp
    exact mem_Ico.mpr ⟨h0.trans hlo, by omega⟩
  have hcard := card_le_card hsub
  have hpos : (0 : ℤ) < 2 ^ (W - 1) := by positivity
  rw [card_Ico] at hcard
  omega

/-- How many pages of the regions are below `t`. -/
noncomputable def below (t : ℤ) (xs : List Entry) : ℤ := ((pages xs).filter (· < t)).card

theorem Sorted.below_eq_zero (ht : t ≤ p.2.fromPage) : below t (p :: ys) = 0 := by
  have hempty : (pages (p :: ys)).filter (· < t) = ∅ := by
    rw [filter_eq_empty_iff]
    intro i hi
    exact (ht.trans (h.le_of_mem_pages hi)).not_gt
  rw [below, hempty]
  rfl

/-- The first region reaches from its start up to `t` or its end. -/
theorem Sorted.below_cons (ht : p.2.fromPage ≤ t) :
    below t (p :: ys) = (min p.2.toPage t - p.2.fromPage) + below (max p.2.toPage t) ys := by
  have hrest : (pages ys).filter (· < t) = (pages ys).filter (· < max p.2.toPage t) := by
    refine filter_congr fun i hi => ?_
    have hlt := h.lt_of_mem_pages hi
    rw [lt_max_iff, or_iff_right hlt.le.not_gt]
  have hdisj : Disjoint (Finset.Ico p.2.fromPage (min p.2.toPage t))
      ((pages ys).filter (· < max p.2.toPage t)) := by
    rw [Finset.disjoint_left]
    intro i hi hi'
    have hlt := h.lt_of_mem_pages (mem_filter.mp hi').1
    exact absurd ((mem_Ico.mp hi).2.trans_le (min_le_left _ _)) hlt.le.not_gt
  have hle : p.2.fromPage ≤ min p.2.toPage t := le_min (h.proper p mem_cons_self) ht
  rw [below, pages_cons, filter_union, Finset.Ico_filter_lt, hrest,
    card_union_of_disjoint hdisj, Nat.cast_add, card_Ico,
    toNat_of_nonneg (sub_nonneg.mpr hle), below]

end

/-- The pages of a range that are not in the set, counted from the first region that the range
touches. -/
theorem Sorted.card_sdiff (h : Sorted W (xs ++ p :: ys)) (hxs : ∀ q ∈ xs, q.2.toPage < f)
    (hf : f ≤ p.2.toPage) (hft : f < t) :
    ((Finset.Ico f t \ pages (xs ++ p :: ys)).card : ℤ) =
      t - min f p.2.fromPage - below t (p :: ys) := by
  have hsorted : Sorted W (p :: ys) := h.sublist (sublist_append_right _ _)
  -- the pages from the start of the region to `f` are in the set
  have hround : Finset.Ico f t \ pages (xs ++ p :: ys) =
      Finset.Ico (min f p.2.fromPage) t \ pages (p :: ys) := by
    ext i
    rw [pages_append, mem_sdiff, mem_sdiff, mem_union, not_or, mem_Ico, mem_Ico, min_le_iff]
    constructor
    · rintro ⟨⟨hlo, hhi⟩, -, hi⟩
      exact ⟨⟨Or.inl hlo, hhi⟩, hi⟩
    · rintro ⟨⟨hlo, hhi⟩, hi⟩
      have hfi : f ≤ i := by
        by_contra hlt
        rw [pages_cons, mem_union, mem_Ico, not_or] at hi
        exact hi.1 ⟨hlo.resolve_left hlt, (not_le.mp hlt).trans_le hf⟩
      refine ⟨⟨hfi, hhi⟩, fun hmem => ?_, hi⟩
      obtain ⟨q, hq, -, hlt⟩ := mem_pages.mp hmem
      exact absurd (hlt.trans (hxs q hq)) hfi.not_gt
  have hinter : pages (p :: ys) ∩ Finset.Ico (min f p.2.fromPage) t =
      (pages (p :: ys)).filter (· < t) := by
    ext i
    rw [Finset.mem_inter, Finset.mem_filter, mem_Ico]
    refine and_congr_right fun hi => and_iff_right ?_
    exact (min_le_right _ _).trans (hsorted.le_of_mem_pages hi)
  have hcard := card_sdiff_add_card_inter (Finset.Ico (min f p.2.fromPage) t) (pages (p :: ys))
  rw [inter_comm, hinter, card_Ico] at hcard
  rw [hround, below]
  omega

/-! ## Arithmetic of `long` -/

theorem long_eq {x : ℤ} (h₀ : 0 ≤ x) (h : x < 2 ^ (W - 1)) : long W x = x := by
  have hpow : (2 ^ (W - 1) : ℤ) ≤ ((2 ^ W : ℕ) + 1) / 2 := by
    rcases Nat.eq_zero_or_pos W with rfl | hW
    · norm_num
    · obtain ⟨n, rfl⟩ := Nat.exists_eq_succ_of_ne_zero hW.ne'
      push_cast
      omega
  refine bmod_eq_of_le ?_ (h.trans_le hpow)
  exact le_trans (by omega) h₀

theorem long_add (x y : ℤ) : long W (long W x + long W y) = long W (x + y) := by
  rw [long, long, long, add_bmod_bmod, bmod_add_bmod, long]

theorem long_sub (x y : ℤ) : long W (long W x - long W y) = long W (x - y) := by
  rw [long, long, long, sub_bmod_bmod, bmod_sub_bmod, long]

/-! ## The list in memory -/

/-- The first of the regions, or the head of the list. -/
def addr (head : ℕ) (xs : List Entry) : ℕ := (xs.map Prod.fst).headD head

/-- The list has the regions `xs`. -/
structure Keeps (m : Regions) (head : ℕ) (xs : List Entry) : Prop where
  ring : Circular m.links head (xs.map Prod.fst)
  range : ∀ p ∈ xs, m.range p.1 = some p.2

namespace Keeps

theorem next_head (H : Keeps m head xs) : (m.links head).next = addr head xs := H.ring.next_head

theorem ring_split (H : Keeps m head (xs ++ ys)) :
    Circular m.links head (xs.map Prod.fst ++ ys.map Prod.fst) := by
  rw [← map_append]
  exact H.ring

section

variable (H : Keeps m head (xs ++ p :: ys))
include H

theorem ring_mid :
    Circular m.links head (xs.map Prod.fst ++ p.1 :: ys.map Prod.fst) := H.ring_split

theorem next : (m.links p.1).next = addr head ys :=
  H.ring_mid.next_mid

omit H in
theorem next_prev (H : Keeps m head (xs ++ ys)) :
    (m.links (m.links (addr head ys)).prev).next = addr head ys := by
  rw [addr, H.ring_split.prev_eq, H.ring_split.next_eq]

theorem ne_prev : p.1 ≠ (m.links p.1).prev :=
  H.ring_mid.ne_prev

end

section

variable (H : Keeps m head (xs ++ p :: ys))
include H

theorem snoc : Keeps m head ((xs ++ [p]) ++ ys) := append_cons xs p ys ▸ H

theorem ne_head : p.1 ≠ head := fun h =>
  (nodup_cons.mp H.ring_mid.nodup).1 (h ▸ mem_append_right _ mem_cons_self)

theorem range_mid : m.range p.1 = some p.2 :=
  H.range p (mem_append_right _ mem_cons_self)

theorem ne_mid {q : Entry} (hq : q ∈ xs ++ ys) : q.1 ≠ p.1 := by
  have hnd := (nodup_cons.mp H.ring_mid.nodup).2
  have hp := (nodup_cons.mp (perm_middle.nodup_iff.mp hnd)).1
  rw [← map_append] at hp
  exact fun h => hp (h ▸ mem_map_of_mem hq)

/-- A region is deleted. -/
theorem free : Keeps (m.free p.1) head (xs ++ ys) := by
  refine ⟨?_, fun q hq => ?_⟩
  · rw [map_append]
    exact H.ring_mid.listDel listPoison
  · show Function.update m.range p.1 none q.1 = some q.2
    rw [update_of_ne (H.ne_mid hq)]
    exact H.range q (perm_middle.mem_iff.mpr (mem_cons_of_mem _ hq))

theorem setRange (r : FileRegion) : Keeps (m.setRange p.1 r) head (xs ++ (p.1, r) :: ys) := by
  refine ⟨?_, fun q hq => ?_⟩
  · rw [map_append]
    exact H.ring_mid
  · show Function.update m.range p.1 (some r) q.1 = some q.2
    rcases mem_cons.mp (perm_middle.mem_iff.mp hq) with rfl | hq
    · exact update_self ..
    · rw [update_of_ne (H.ne_mid hq)]
      exact H.range q (perm_middle.mem_iff.mpr (mem_cons_of_mem _ hq))

end

/-- A new region without pages is linked. -/
theorem placeholder (H : Keeps m head (xs ++ ys)) {nrg : ℕ} (hhead : nrg ≠ head)
    (hnew : m.range nrg = none) (f : ℤ) :
    Keeps (m.placeholder nrg (addr head ys) f) head (xs ++ (nrg, ⟨f, f⟩) :: ys) := by
  have hne : ∀ q ∈ xs ++ ys, q.1 ≠ nrg := by
    intro q hq h
    have hrange := H.range q hq
    rw [h, hnew] at hrange
    exact absurd hrange (by simp)
  have hout : nrg ∉ head :: (xs.map Prod.fst ++ ys.map Prod.fst) := by
    rw [← map_append, List.mem_cons, not_or]
    refine ⟨hhead, fun h => ?_⟩
    obtain ⟨q, hq, hq'⟩ := mem_map.mp h
    exact hne q hq hq'
  constructor
  · -- the links of the new region are set before it is linked
    have hring : Circular (Function.update m.links nrg ⟨nrg, nrg⟩) head
        (xs.map Prod.fst ++ ys.map Prod.fst) := by
      refine ⟨H.ring_split.seg.congr (fun x hx => ?_) fun x hx => ?_, H.ring_split.nodup⟩
      · rw [update_of_ne (ne_of_mem_of_not_mem hx hout)]
      · rw [update_of_ne]
        rintro rfl
        rw [mem_append, List.mem_singleton] at hx
        exact hout (mem_cons.mpr hx.symm)
    have hadd := hring.listAdd hout
    rw [← hring.next_eq, ← hring.prev_eq] at hadd
    rw [map_append]
    exact hadd
  · intro q hq
    show Function.update m.range nrg (some ⟨f, f⟩) q.1 = some q.2
    rcases mem_cons.mp (perm_middle.mem_iff.mp hq) with rfl | hq
    · exact update_self ..
    · rw [update_of_ne (hne q hq)]
      exact H.range q hq

end Keeps

/-! ## Location -/

theorem locate_head (f : ℤ) (turns : ℕ) : locate m head f turns head = some head := by
  cases turns <;> exact if_pos rfl

theorem locate_region {rg : ℕ} (hrg : rg ≠ head)
    (hr : m.range rg = some r) : locate m head f (turns + 1) rg =
      if f ≤ r.toPage then some rg else locate m head f turns (m.links rg).next := by
  rw [locate, if_neg hrg, hr]
  rfl

/-- The regions that end below `f`, and the others. -/
theorem exists_cut (f : ℤ) (xs : List Entry) :
    ∃ pre post, xs = pre ++ post ∧ (∀ p ∈ pre, p.2.toPage < f) ∧
      ∀ p rest, post = p :: rest → f ≤ p.2.toPage := by
  induction xs with
  | nil => exact ⟨[], [], rfl, by simp, by simp⟩
  | cons p xs ih =>
    by_cases hf : f ≤ p.2.toPage
    · refine ⟨[], p :: xs, rfl, by simp, ?_⟩
      rintro q rest h
      obtain ⟨rfl, -⟩ := List.cons.inj h
      exact hf
    · obtain ⟨pre, post, rfl, hpre, hpost⟩ := ih
      refine ⟨p :: pre, post, rfl, ?_, hpost⟩
      exact forall_mem_cons.mpr ⟨not_le.mp hf, hpre⟩

/-- The search stops at the first region that does not end below `f`. -/
theorem locate_spec {zs : List Entry} (H : Keeps m head (xs ++ (zs ++ ys)))
    (hzs : ∀ p ∈ zs, p.2.toPage < f) (hys : ∀ p rest, ys = p :: rest → f ≤ p.2.toPage)
    (hturns : (zs ++ ys).length ≤ turns) :
    locate m head f turns (addr head (zs ++ ys)) = some (addr head ys) := by
  induction zs generalizing xs turns with
  | nil =>
    cases ys with
    | nil => exact locate_head f turns
    | cons p ys =>
      obtain ⟨n, rfl⟩ := Nat.exists_eq_add_of_le' hturns
      exact (locate_region H.ne_head H.range_mid).trans (if_pos (hys p ys rfl))
  | cons p zs ih =>
    have hp : ¬f ≤ p.2.toPage := not_le.mpr (hzs p mem_cons_self)
    obtain ⟨n, rfl⟩ := Nat.exists_eq_add_of_le' hturns
    rw [cons_append, length_cons, ← Nat.add_assoc]
    show locate m head f _ p.1 = _
    rw [locate_region H.ne_head H.range_mid, if_neg hp, H.next]
    exact ih H.snoc (fun q hq => hzs q (mem_cons_of_mem _ hq)) (Nat.le_add_left _ _)

theorem locate_first (H : Keeps m head (xs ++ ys)) (hxs : ∀ p ∈ xs, p.2.toPage < f)
    (hys : ∀ p rest, ys = p :: rest → f ≤ p.2.toPage) (hturns : (xs ++ ys).length ≤ turns) :
    locate m head f turns (m.links head).next = some (addr head ys) := by
  rw [H.next_head]
  exact locate_spec (show Keeps m head ([] ++ (xs ++ ys)) from H) hxs hys hturns

end Gp2xKernel.Hugetlb
