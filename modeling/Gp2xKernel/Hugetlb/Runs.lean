import Gp2xKernel.Library.Run
import Gp2xKernel.Hugetlb.Operations

/-!
# Reservations count a set of pages

In every run of reservations, some of which fail, and of truncations of a file, the pages charged
less the pages returned are the number of the pages in the regions of the file.

## Main definitions

* `Event`, `Account`, `system`: the runs

## Main results

* `hugetlbReservePages_spec`: a reservation adds its range, or changes nothing
* `reservations_count_set`: the invariant of all runs
-/

namespace Gp2xKernel.Hugetlb

open Library

variable {W head : ℕ} {inode : Inode} {xs : List Entry} {f t : ℤ}

/-! ## The callers -/

variable {turns : ℕ} {alloc : Option ℕ} {enough : Bool} {s : Account}

theorem hugetlbReservePages_eq {quota : Bool} {out : ℤ × Regions}
    (hchg : regionChg W turns inode.regions head f t alloc = some out) :
    hugetlbReservePages W turns inode head f t alloc quota enough =
      if out.1 < 0 then some (out.1, { inode with regions := out.2 })
      else if quota = false then some (-enospc, { inode with regions := out.2 })
      else if out.1 > 0 ∧ enough = false then some (-enomem, { inode with regions := out.2 })
      else (regionAdd turns out.2 head f t).bind fun regions =>
        some (0, ⟨regions, inode.quota + out.1, inode.resvHugePages + out.1⟩) := by
  rw [hugetlbReservePages, hchg]
  refine if_congr Iff.rfl rfl (if_congr Iff.rfl rfl ?_)
  by_cases hmem : out.1 > 0 ∧ enough = false
  · simp only [hugetlbAcctMemory, if_pos hmem]
    rw [if_pos (by decide)]
    rw [add_sub_cancel_right]
  · simp only [hugetlbAcctMemory, if_neg hmem]
    rfl

/-- The outcome of a reservation: the range is added to the set and the pages that were not in it
are charged; or it fails and changes neither the set nor the accounts. -/
structure Reserves (W head : ℕ) (inode : Inode) (xs : List Entry) (f t : ℤ) (out : ℤ × Inode)
    (xs' : List Entry) : Prop where
  keeps : Keeps out.2.regions head xs'
  sorted : Sorted W xs'
  outcome : (out.1 = 0 ∧ pages xs' = pages xs ∪ Finset.Ico f t ∧
      out.2.quota = inode.quota + (Finset.Ico f t \ pages xs).card ∧
      out.2.resvHugePages = inode.resvHugePages + (Finset.Ico f t \ pages xs).card) ∨
    (out.1 < 0 ∧ pages xs' = pages xs ∧ out.2.quota = inode.quota ∧
      out.2.resvHugePages = inode.resvHugePages)

/-- **A reservation** adds its range to the set, or fails. -/
theorem hugetlbReservePages_spec (quota enough : Bool) (H : Keeps inode.regions head xs)
    (hs : Sorted W xs) (hf : 0 ≤ f) (hft : f < t) (ht : t < 2 ^ (W - 1))
    (halloc : Fresh inode.regions head alloc) :
    ∃ out xs', Returns (fun turns => hugetlbReservePages W turns inode head f t alloc quota enough)
        out ∧ Reserves W head inode xs f t out xs' := by
  obtain ⟨chg, xs', ⟨n, hchg⟩, hkeeps, hsorted, hpages, hout⟩ :=
    regionChg_spec H hs hf hft ht halloc
  -- a failure leaves the regions that `region_chg` left
  have hfail : ∀ e < 0, Reserves W head inode xs f t (e, { inode with regions := chg.2 }) xs' :=
    fun e he => ⟨hkeeps, hsorted, Or.inr ⟨he, hpages, rfl, rfl⟩⟩
  rcases hout with ⟨hcard, hready⟩ | ⟨-, herr, -⟩
  · have hnonneg : ¬chg.1 < 0 := by
      rw [hcard]
      exact (Int.natCast_nonneg _).not_gt
    cases quota with
    | false =>
      refine ⟨_, xs', ⟨n, fun turns hturns => ?_⟩, hfail (-enospc) (by decide)⟩
      dsimp only
      rw [hugetlbReservePages_eq (hchg turns hturns), if_neg hnonneg, if_pos rfl]
    | true =>
      by_cases hmem : chg.1 > 0 ∧ enough = false
      · refine ⟨_, xs', ⟨n, fun turns hturns => ?_⟩, hfail (-enomem) (by decide)⟩
        dsimp only
        rw [hugetlbReservePages_eq (hchg turns hturns), if_neg hnonneg, if_neg (by decide),
          if_pos hmem]
      · obtain ⟨m', xs'', ⟨n', hadd⟩, hkeeps', hsorted', hpages'⟩ :=
          regionAdd_spec hkeeps hsorted hready hf hft ht
        refine ⟨(0, ⟨m', inode.quota + chg.1, inode.resvHugePages + chg.1⟩), xs'',
          ⟨max n n', fun turns hturns => ?_⟩, hkeeps', hsorted', Or.inl ⟨rfl, ?_, ?_, ?_⟩⟩
        · have hadd' : regionAdd turns chg.2 head f t = some m' :=
            hadd turns ((le_max_right _ _).trans hturns)
          dsimp only
          rw [hugetlbReservePages_eq (hchg turns ((le_max_left _ _).trans hturns)), if_neg hnonneg,
            if_neg hmem, hadd']
          rfl
        · rw [hpages', hpages]
        · rw [hcard]
        · rw [hcard]
  · have hneg : chg.1 < 0 := by
      rw [herr]
      decide
    refine ⟨_, xs', ⟨n, fun turns hturns => ?_⟩, hfail chg.1 hneg⟩
    dsimp only
    rw [hugetlbReservePages_eq (hchg turns hturns), if_pos hneg]

/-! ## Runs -/

/-- What happens to a file: a reservation, with the outcomes of its allocation and of the checks of
the quota and of the memory; or a truncation, when `freed` pages were in use. -/
inductive Event
  | reserve (f t : ℤ) (alloc : Option ℕ) (quota enough : Bool)
  | unreserve (offset freed : ℤ) (enough : Bool)

/-- A file with the sums of the reservations that were charged and of those that `region_truncate`
returned. -/
structure Account where
  inode : Inode
  charged : ℤ
  returned : ℤ

/-- A reservation is for a range of page indices, which are values of a `long` that are not
negative. -/
def Allowed (W head : ℕ) (inode : Inode) : Event → Prop
  | .reserve f t alloc _ _ => 0 ≤ f ∧ f < t ∧ t < 2 ^ (W - 1) ∧ Fresh inode.regions head alloc
  | .unreserve _ _ _ => True

/-- One event. -/
def Step (W head : ℕ) (s : Account) : Event → Account → Prop
  | .reserve f t alloc quota enough, s' =>
    ∃ out, Returns (fun turns =>
        hugetlbReservePages W turns s.inode head f t alloc quota enough) out ∧
      s' = ⟨out.2, s.charged + (out.2.resvHugePages - s.inode.resvHugePages), s.returned⟩
  | .unreserve offset freed enough, s' =>
    ∃ chg out, Returns (fun turns => regionTruncate W turns s.inode.regions head offset) chg ∧
      Returns (fun turns => hugetlbUnreservePages W turns s.inode head offset freed enough) out ∧
      s' = ⟨out, s.charged, s.returned + chg.1⟩

/-- The runs of a file that has no regions at first. -/
def system (W head : ℕ) : System Account Event where
  init s := Circular s.inode.regions.links head [] ∧ s.charged = 0 ∧ s.returned = 0
  step _ s e s' := Allowed W head s.inode e ∧ Step W head s e s'

/-- The regions are sorted, and the pages charged and not returned are those of the set. -/
structure Counts (W head : ℕ) (s : Account) (xs : List Entry) : Prop where
  keeps : Keeps s.inode.regions head xs
  sorted : Sorted W xs
  count : s.charged - s.returned = (pages xs).card

theorem Step.unique {s1 s2 : Account} {e : Event} (h1 : Step W head s e s1)
    (h2 : Step W head s e s2) : s1 = s2 := by
  cases e with
  | reserve f t alloc quota enough =>
    obtain ⟨out1, hrun1, rfl⟩ := h1
    obtain ⟨out2, hrun2, rfl⟩ := h2
    rw [hrun1.unique hrun2]
  | unreserve offset freed enough =>
    obtain ⟨chg1, out1, hchg1, hrun1, rfl⟩ := h1
    obtain ⟨chg2, out2, hchg2, hrun2, rfl⟩ := h2
    rw [hchg1.unique hchg2, hrun1.unique hrun2]

/-- **One event.**  It comes to an end, and keeps the count. -/
theorem Counts.step {s : Account} (h : Counts W head s xs) {e : Event}
    (he : Allowed W head s.inode e) : ∃ s' xs', Step W head s e s' ∧ Counts W head s' xs' := by
  cases e with
  | reserve f t alloc quota enough =>
    obtain ⟨hf, hft, ht, halloc⟩ := he
    obtain ⟨out, xs', hrun, ⟨hkeeps, hsorted, hout⟩⟩ :=
      hugetlbReservePages_spec quota enough h.keeps h.sorted hf hft ht halloc
    refine ⟨_, xs', ⟨out, hrun, rfl⟩, hkeeps, hsorted, ?_⟩
    show s.charged + (out.2.resvHugePages - s.inode.resvHugePages) - s.returned = _
    have hcount := h.count
    rcases hout with ⟨-, hpages, -, hresv⟩ | ⟨-, hpages, -, hresv⟩
    · have hcard : (pages xs ∪ Finset.Ico f t).card =
          (Finset.Ico f t \ pages xs).card + (pages xs).card := by
        rw [Finset.union_comm, Finset.card_sdiff_add_card]
      rw [hpages]
      omega
    · rw [hpages]
      omega
  | unreserve offset freed enough =>
    obtain ⟨chg, xs', ⟨n, hrun⟩, hkeeps, hsorted, hpages, hchg⟩ :=
      regionTruncate_spec h.keeps h.sorted offset
    refine ⟨_, xs', ⟨chg, _, ⟨n, hrun⟩, ⟨n, fun turns hturns =>
      Option.bind_eq_some_iff.mpr ⟨chg, hrun turns hturns, rfl⟩⟩, rfl⟩, ?_, hsorted, ?_⟩
    · rw [hugetlbAcctMemory]
      split_ifs <;> exact hkeeps
    · have hcount := h.count
      have hcard := Finset.card_filter_add_card_filter_not (s := pages xs) (· < offset)
      simp only [not_lt] at hcard
      show s.charged - (s.returned + chg.1) = _
      rw [hpages]
      omega

theorem counts_of_reach {tr : List Event} (h : (system W head).Reach tr s) :
    ∃ xs, Counts W head s xs := by
  refine h.invariant (P := fun _ s => ∃ xs, Counts W head s xs) (fun s hinit => ?_) ?_
  · obtain ⟨hring, hcharged, hreturned⟩ := hinit
    refine ⟨[], ⟨hring, fun p hp => absurd hp List.not_mem_nil⟩, ?_, ?_⟩
    · exact ⟨fun p hp => absurd hp List.not_mem_nil, List.Pairwise.nil,
        fun p hp => absurd hp List.not_mem_nil⟩
    · rw [hcharged, hreturned]
      rfl
  · rintro tr s e s' ⟨xs, hcounts⟩ ⟨hallowed, hstep⟩
    obtain ⟨s'', xs', hstep', hcounts'⟩ := hcounts.step hallowed
    rw [hstep.unique hstep']
    exact ⟨xs', hcounts'⟩

/-- **Main theorem.**  In every run, the list of the regions is sorted and disjoint, and the pages
charged less the pages returned are the number of the pages in its set `S`.  `region_chg` returns
how many pages of a range are not in `S`, and leaves `S` as it is, and `region_add` then adds the
range; `region_truncate` returns how many pages there are in `S` behind a point, and takes them out.
All come to an end, and only an allocation can fail. -/
theorem reservations_count_set {tr : List Event} {s : Account} (h : (system W head).Reach tr s) :
    ∃ xs, Counts W head s xs ∧
      (∀ f t alloc, 0 ≤ f → f < t → t < 2 ^ (W - 1) → Fresh s.inode.regions head alloc →
        ∃ out xs', Returns (fun turns => regionChg W turns s.inode.regions head f t alloc) out ∧
          Keeps out.2 head xs' ∧ Sorted W xs' ∧ pages xs' = pages xs ∧
          ((out.1 = (Finset.Ico f t \ pages xs).card ∧
              ∃ m' xs'', Returns (fun turns => regionAdd turns out.2 head f t) m' ∧
                Keeps m' head xs'' ∧ Sorted W xs'' ∧ pages xs'' = pages xs ∪ Finset.Ico f t) ∨
            (alloc = none ∧ out.1 = -enomem ∧ out.2 = s.inode.regions))) ∧
      (∀ stop, ∃ out xs', Returns (fun turns =>
          regionTruncate W turns s.inode.regions head stop) out ∧
        Keeps out.2 head xs' ∧ Sorted W xs' ∧ pages xs' = (pages xs).filter (· < stop) ∧
        out.1 = ((pages xs).filter (stop ≤ ·)).card) ∧
      ∀ e, Allowed W head s.inode e → ∃ s', Step W head s e s' := by
  obtain ⟨xs, hcounts⟩ := counts_of_reach h
  refine ⟨xs, hcounts, fun f t alloc hf hft ht halloc => ?_, fun stop => ?_, fun e he => ?_⟩
  · obtain ⟨out, xs', hrun, hkeeps, hsorted, hpages, hout⟩ :=
      regionChg_spec hcounts.keeps hcounts.sorted hf hft ht halloc
    refine ⟨out, xs', hrun, hkeeps, hsorted, hpages, hout.imp_left fun hchg => ⟨hchg.1, ?_⟩⟩
    rw [← hpages]
    exact regionAdd_spec hkeeps hsorted hchg.2 hf hft ht
  · exact regionTruncate_spec hcounts.keeps hcounts.sorted stop
  · obtain ⟨s', -, hstep, -⟩ := hcounts.step he
    exact ⟨s', hstep⟩

/-- A file without reservations; the head of its list is at `0`. -/
def newAccount : Account := ⟨⟨⟨fun _ => ⟨0, 0⟩, fun _ => none⟩, 0, 0⟩, 0, 0⟩

theorem reservations_count_set_2to5 :
    ∃ s, (system 32 0).Reach [.reserve 2 5 (some 1) true true] s ∧ ∃ xs, Counts 32 0 s xs ∧
      (∀ f t alloc, 0 ≤ f → f < t → t < 2 ^ (32 - 1) → Fresh s.inode.regions 0 alloc →
        ∃ out xs', Returns (fun turns => regionChg 32 turns s.inode.regions 0 f t alloc) out ∧
          Keeps out.2 0 xs' ∧ Sorted 32 xs' ∧ pages xs' = pages xs ∧
          ((out.1 = (Finset.Ico f t \ pages xs).card ∧
              ∃ m' xs'', Returns (fun turns => regionAdd turns out.2 0 f t) m' ∧
                Keeps m' 0 xs'' ∧ Sorted 32 xs'' ∧ pages xs'' = pages xs ∪ Finset.Ico f t) ∨
            (alloc = none ∧ out.1 = -enomem ∧ out.2 = s.inode.regions))) ∧
      (∀ stop, ∃ out xs', Returns (fun turns =>
          regionTruncate 32 turns s.inode.regions 0 stop) out ∧
        Keeps out.2 0 xs' ∧ Sorted 32 xs' ∧ pages xs' = (pages xs).filter (· < stop) ∧
        out.1 = ((pages xs).filter (stop ≤ ·)).card) ∧
      ∀ e, Allowed 32 0 s.inode e → ∃ s', Step 32 0 s e s' := by
  have hinit : (system 32 0).Reach [] newAccount :=
    .init ⟨⟨⟨rfl, rfl⟩, List.nodup_singleton 0⟩, rfl, rfl⟩
  have hallowed : Allowed 32 0 newAccount.inode (.reserve 2 5 (some 1) true true) := by
    refine ⟨by decide, by decide, by decide, ?_⟩
    rintro nrg hnrg
    obtain rfl := Option.some.inj hnrg
    exact ⟨Nat.one_ne_zero, rfl⟩
  obtain ⟨xs, hcounts⟩ := counts_of_reach hinit
  obtain ⟨s, -, hstep, -⟩ := hcounts.step hallowed
  have hreach : (system 32 0).Reach [.reserve 2 5 (some 1) true true] s :=
    .step hinit ⟨hallowed, hstep⟩
  exact ⟨s, hreach, reservations_count_set hreach⟩

end Gp2xKernel.Hugetlb
