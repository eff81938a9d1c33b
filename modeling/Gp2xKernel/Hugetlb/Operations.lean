import Gp2xKernel.Hugetlb.Pages

/-!
# The operations on the set of pages

`region_chg` counts the pages of a range that are not in the set, `region_add` adds the range to the
set, and `region_truncate` takes out the pages behind a point and counts them.

## Main definitions

* `Ready`: the list has a region that `region_add` can extend

## Main results

* `chgLoop_spec`, `addLoop_spec`, `truncateLoop_spec`: the loops
* `regionChg_spec`, `regionAdd_spec`, `regionTruncate_spec`: the operations
-/

namespace Gp2xKernel.Hugetlb

open Library List Finset Nat

variable {W head : ℕ} {m : Regions} {xs ys : List Entry} {p : Entry} {f t : ℤ}

/-- A list that has a region at `f` that the range up to `t` touches. -/
def Ready (f t : ℤ) (xs : List Entry) : Prop :=
  ∃ pre p post, xs = pre ++ p :: post ∧ (∀ q ∈ pre, q.2.toPage < f) ∧ f ≤ p.2.toPage ∧
    p.2.fromPage ≤ t

/-! ## Counting -/

theorem chgLoop_head (turns : ℕ) (t chg : ℤ) : chgLoop W m head turns head t chg = some chg := by
  by_cases hprev : head = (m.links head).prev
  · cases turns <;> exact if_pos hprev
  · cases turns <;> exact (if_neg hprev).trans (if_pos rfl)

variable {turns : ℕ} {alloc : Option ℕ} {stop : ℤ}

/-- The loop subtracts the pages below `t` that are in the set. -/
theorem chgLoop_spec (H : Keeps m head (xs ++ ys)) (hs : Sorted W ys) (t chg : ℤ)
    (hturns : ys.length ≤ turns) :
    chgLoop W m head turns (addr head ys) t (long W chg) = some (long W (chg - below t ys)) := by
  induction ys generalizing xs t chg turns with
  | nil =>
    show chgLoop W m head turns head t _ = _
    rw [chgLoop_head, below, pages_nil, filter_empty, card_empty, cast_zero, sub_zero]
  | cons p ys ih =>
    obtain ⟨n, rfl⟩ := Nat.exists_eq_add_of_le' hturns
    rw [length_cons, ← add_assoc]
    show chgLoop W m head _ p.1 t _ = _
    have hmax : (if p.2.toPage > t then p.2.toPage else t) = max p.2.toPage t := by
      rw [max_comm, max_def_lt]
    rw [chgLoop, if_neg H.ne_prev, if_neg H.ne_head, H.range_mid, H.next, Option.bind_eq_bind,
      Option.bind_some]
    dsimp only
    rw [hmax]
    have hrest := fun t chg =>
      ih H.snoc (hs.sublist (sublist_cons_self p ys)) t chg (le_add_left ys.length n)
    split_ifs with hfrom hto
    · rw [hs.below_eq_zero hfrom.le, sub_zero]
    · -- the region reaches further than `t`
      rw [long_add, long_sub, hrest, hs.below_cons (not_lt.mp hfrom)]
      congr 2
      omega
    · rw [long_sub, hrest, hs.below_cons (not_lt.mp hfrom)]
      congr 2
      omega

theorem pages_placeholder (xs ys : List Entry) (n : ℕ) (f : ℤ) :
    pages (xs ++ (n, ⟨f, f⟩) :: ys) = pages (xs ++ ys) := by
  rw [pages_append, pages_cons, Finset.Ico_self, empty_union, pages_append]

/-- The address that `kmalloc` returns is that of no region and not that of the head. -/
def Fresh (m : Regions) (head : ℕ) (alloc : Option ℕ) : Prop :=
  ∀ nrg, alloc = some nrg → nrg ≠ head ∧ m.range nrg = none

theorem Sorted.behind (hs : Sorted W (p :: ys)) (ht : t < p.2.fromPage) :
    ∀ q ∈ p :: ys, t < q.2.fromPage := by
  intro q hq
  rcases mem_cons.mp hq with rfl | hq
  · exact ht
  · have hgap := (pairwise_cons.mp hs.gaps).1 q hq
    have hproper := hs.proper p mem_cons_self
    omega

/-- A range that touches no region has no page in the set. -/
theorem Sorted.card_sdiff_apart (hft : f < t) (hxs : ∀ q ∈ xs, q.2.toPage < f)
    (hys : ∀ q ∈ ys, t < q.2.fromPage) :
    ((Finset.Ico f t \ pages (xs ++ ys)).card : ℤ) = t - f := by
  have hdisj : Disjoint (Finset.Ico f t) (pages (xs ++ ys)) := by
    rw [Finset.disjoint_left]
    intro i hi hmem
    obtain ⟨hlo, hhi⟩ := mem_Ico.mp hi
    obtain ⟨q, hq, hqlo, hqhi⟩ := mem_pages.mp hmem
    rcases mem_append.mp hq with hq | hq
    · have := hxs q hq
      omega
    · have := hys q hq
      omega
  rw [sdiff_eq_self_of_disjoint hdisj, Int.card_Ico, Int.toNat_of_nonneg (by omega)]

theorem isBelow_head (m : Regions) (head : ℕ) (t : ℤ) : isBelow m head head t = some true :=
  if_pos rfl

theorem regionChg_new {rg : ℕ} (hlocate : locate m head f turns (m.links head).next = some rg)
    (hnew : isBelow m head rg t = some true) :
    regionChg W turns m head f t alloc =
      alloc.elim (some (-enomem, m)) fun nrg => some (long W (t - f), m.placeholder nrg rg f) := by
  rw [regionChg, hlocate]
  show (isBelow m head rg t).bind _ = _
  rw [hnew]
  cases alloc <;> rfl

theorem addLoop_head (nrg turns : ℕ) (m : Regions) (trg : ℕ) (t : ℤ) :
    addLoop head nrg turns m head trg t = some (m, t) := by
  by_cases hprev : head = (m.links head).prev
  · cases turns <;> exact if_pos hprev
  · cases turns <;> exact (if_neg hprev).trans (if_pos rfl)

theorem truncateLoop_head (turns : ℕ) (m : Regions) (trg : ℕ) (chg : ℤ) :
    truncateLoop W head turns m head trg chg = some (chg, m) := by
  by_cases hprev : head = (m.links head).prev
  · cases turns <;> exact if_pos hprev
  · cases turns <;> exact (if_neg hprev).trans (if_pos rfl)

section

variable (H : Keeps m head (xs ++ p :: ys))
include H

theorem isBelow_region (t : ℤ) : isBelow m head p.1 t = some (decide (t < p.2.fromPage)) := by
  rw [isBelow, if_neg H.ne_head, H.range_mid, Option.map_some]

/-- Without a new region, the loop computes the value. -/
theorem regionChg_old (hlocate : locate m head f turns (m.links head).next = some p.1)
    (ht : p.2.fromPage ≤ t) :
    regionChg W turns m head f t alloc =
      (chgLoop W m head turns p.1 t (long W (t - min f p.2.fromPage))).bind
        fun chg => some (chg, m) := by
  have hback : (m.links (m.links p.1).prev).next = p.1 := H.next_prev
  rw [regionChg, hlocate]
  show (isBelow m head p.1 t).bind _ = _
  rw [isBelow_region H, decide_eq_false (not_lt.mpr ht)]
  rw [H.range_mid, min_comm f, min_def_lt]
  show (chgLoop W m head turns (m.links (m.links p.1).prev).next t _).bind _ = _
  rw [hback]

omit H in
/-- **`region_chg`** returns how many pages of the range are not in the set, and does not change the
set; and it makes sure that there is a region for `region_add`.  Only an allocation can fail. -/
theorem regionChg_spec (H : Keeps m head xs) (hs : Sorted W xs) (hf : 0 ≤ f) (hft : f < t)
    (ht : t < 2 ^ (W - 1)) (halloc : Fresh m head alloc) :
    ∃ out xs', Returns (fun turns => regionChg W turns m head f t alloc) out ∧
      Keeps out.2 head xs' ∧ Sorted W xs' ∧ pages xs' = pages xs ∧
      ((out.1 = (Finset.Ico f t \ pages xs).card ∧ Ready f t xs') ∨
        (alloc = none ∧ out.1 = -enomem ∧ out.2 = m)) := by
  obtain ⟨pre, post, rfl, hpre, hpost⟩ := exists_cut f xs
  have hlocate : ∀ turns, (pre ++ post).length ≤ turns →
      locate m head f turns (m.links head).next = some (addr head post) :=
    fun turns hturns => locate_first H hpre hpost hturns
  by_cases hnew : ∀ q ∈ post, t < q.2.fromPage
  · -- the range lies in a gap
    have hcard := Sorted.card_sdiff_apart hft hpre hnew
    have hrg : isBelow m head (addr head post) t = some true := by
      cases post with
      | nil => exact isBelow_head m head t
      | cons p post =>
        refine (isBelow_region H t).trans ?_
        rw [decide_eq_true (hnew p mem_cons_self)]
    cases alloc with
    | none =>
      refine ⟨(-enomem, m), pre ++ post, ⟨(pre ++ post).length, fun turns hturns => ?_⟩, H, hs, rfl,
        Or.inr ⟨rfl, rfl, rfl⟩⟩
      exact regionChg_new (hlocate turns hturns) hrg
    | some nrg =>
      obtain ⟨hhead, hrange⟩ := halloc nrg rfl
      have hlong : long W (t - f) = t - f := long_eq (by omega) (by omega)
      refine ⟨(long W (t - f), m.placeholder nrg (addr head post) f),
        pre ++ (nrg, ⟨f, f⟩) :: post, ⟨(pre ++ post).length, fun turns hturns => ?_⟩,
        H.placeholder hhead hrange f, ?_, pages_placeholder _ _ _ _, Or.inl ⟨?_, ?_⟩⟩
      · exact regionChg_new (hlocate turns hturns) hrg
      · exact hs.insert hpre le_rfl (fun q hq => hft.trans (hnew q hq)) hf (hft.trans ht) nrg
      · rw [hlong, hcard]
      · exact ⟨pre, _, post, rfl, hpre, le_rfl, hft.le⟩
  · -- the range touches the region that was found
    cases post with
    | nil => exact absurd (fun q hq => absurd hq not_mem_nil) hnew
    | cons p post =>
      have hsorted : Sorted W (p :: post) := hs.sublist (sublist_append_right _ _)
      have hpt : p.2.fromPage ≤ t := by
        by_contra hlt
        exact hnew (hsorted.behind (not_le.mp hlt))
      have hcard := hs.card_sdiff hpre (hpost p post rfl) hft
      have hlong : long W (t - min f p.2.fromPage - below t (p :: post)) =
          (Finset.Ico f t \ pages (pre ++ p :: post)).card := by
        rw [← hcard]
        refine long_eq (Int.natCast_nonneg _) ?_
        have hle := card_le_card
          (sdiff_subset (s := Finset.Ico f t) (t := pages (pre ++ p :: post)))
        rw [Int.card_Ico] at hle
        omega
      refine ⟨(((Finset.Ico f t \ pages (pre ++ p :: post)).card : ℤ), m), pre ++ p :: post,
        ⟨(pre ++ p :: post).length, fun turns hturns => ?_⟩, H, hs, rfl,
        Or.inl ⟨rfl, pre, p, post, rfl, hpre, hpost p post rfl, hpt⟩⟩
      have hlen : (p :: post).length ≤ turns := by
        rw [length_append] at hturns
        omega
      have hloop := chgLoop_spec H hsorted t (t - min f p.2.fromPage) hlen
      rw [hlong] at hloop
      show regionChg W turns m head f t alloc = _
      rw [regionChg_old H (hlocate turns hturns) hpt]
      exact congrArg (Option.bind · fun chg => some (chg, m)) hloop

/-! ## Adding -/

theorem addLoop_region (nrg turns trg : ℕ) (t : ℤ) :
    addLoop head nrg (turns + 1) m p.1 trg t =
      if p.2.fromPage > t then some (m, t)
      else addLoop head nrg turns (if p.1 ≠ nrg then m.free p.1 else m) trg
        ((if p.1 ≠ nrg then m.free p.1 else m).links trg).next (max p.2.toPage t) := by
  have hmax : (if p.2.toPage > t then p.2.toPage else t) = max p.2.toPage t := by
    rw [max_comm, max_def_lt]
  rw [addLoop, if_neg H.ne_prev, if_neg H.ne_head, H.range_mid, ← hmax]
  rfl

/-- Behind the region that is extended, the loop deletes the regions that the range touches, and
extends the range to their ends. -/
theorem addLoop_spec (hs : Sorted W ys) (t : ℤ) :
    ∃ out zs, zs <:+ ys ∧ Keeps out.1 head (xs ++ p :: zs) ∧ t ≤ out.2 ∧
      (∀ q ∈ zs, out.2 < q.2.fromPage) ∧ (out.2 = t ∨ ∃ q ∈ ys, out.2 = q.2.toPage) ∧
      (∀ f, f ≤ t → (∀ q ∈ ys, f ≤ q.2.fromPage) →
        Finset.Ico f out.2 ∪ pages zs = Finset.Ico f t ∪ pages ys) ∧
      ∀ turns, ys.length ≤ turns →
        addLoop head p.1 turns m (addr head ys) (m.links (addr head ys)).next t = some out := by
  induction ys generalizing m t with
  | nil =>
    refine ⟨(m, t), [], suffix_rfl, H, le_rfl, by simp, Or.inl rfl, fun f _ _ => rfl,
      fun turns _ => ?_⟩
    exact addLoop_head _ _ _ _ _
  | cons q ys ih =>
    have Hq := H.snoc
    have hqp : q.1 ≠ p.1 := H.ne_mid (mem_append_right _ mem_cons_self)
    by_cases hfrom : q.2.fromPage > t
    · refine ⟨(m, t), q :: ys, suffix_rfl, H, le_rfl, hs.behind hfrom, Or.inl rfl,
        fun f _ _ => rfl, fun turns hturns => ?_⟩
      obtain ⟨n, rfl⟩ := Nat.exists_eq_add_of_le' hturns
      exact (addLoop_region Hq _ _ _ _).trans (if_pos hfrom)
    · have Hfree : Keeps (m.free q.1) head (xs ++ p :: ys) := by
        rw [append_cons]
        exact Hq.free
      obtain ⟨out, zs, hzs, hkeeps, hle, hbehind, hends, hpages, hrun⟩ :=
        ih Hfree (hs.sublist (sublist_cons_self q ys)) (max q.2.toPage t)
      refine ⟨out, zs, hzs.trans (suffix_cons q ys), hkeeps, (le_max_right _ _).trans hle,
        hbehind, ?_, fun f hft hf => ?_, fun turns hturns => ?_⟩
      · rcases hends with hout | ⟨r, hr, hout⟩
        · rcases max_choice q.2.toPage t with hmax | hmax
          · exact Or.inr ⟨q, mem_cons_self, hout.trans hmax⟩
          · exact Or.inl (hout.trans hmax)
        · exact Or.inr ⟨r, mem_cons_of_mem _ hr, hout⟩
      · rw [hpages f (hft.trans (le_max_right _ _)) fun r hr => hf r (mem_cons_of_mem _ hr),
          pages_cons, ← union_assoc]
        congr 1
        ext i
        have hfq := hf q mem_cons_self
        rw [mem_union, mem_Ico, mem_Ico, mem_Ico, lt_max_iff]
        omega
      · obtain ⟨n, rfl⟩ := Nat.exists_eq_add_of_le' hturns
        show addLoop head p.1 (n + ys.length + 1) m q.1 (m.links q.1).next t = some out
        rw [addLoop_region Hq, if_neg hfrom, if_pos hqp, Hq.next]
        exact hrun _ (le_add_left _ _)

omit H in
/-- **`region_add`** adds the range to the set. -/
theorem regionAdd_spec (H : Keeps m head xs) (hs : Sorted W xs) (hready : Ready f t xs) (hf : 0 ≤ f)
    (hft : f < t) (ht : t < 2 ^ (W - 1)) :
    ∃ m' xs', Returns (fun turns => regionAdd turns m head f t) m' ∧
      Keeps m' head xs' ∧ Sorted W xs' ∧ pages xs' = pages xs ∪ Finset.Ico f t := by
  obtain ⟨pre, p, post, rfl, hpre, hfp, hpt⟩ := hready
  have hsorted : Sorted W (p :: post) := hs.sublist (sublist_append_right _ _)
  obtain ⟨hproper, hbounds⟩ := And.intro (hsorted.proper p mem_cons_self)
    (hsorted.bounds p mem_cons_self)
  have hgap := (pairwise_cons.mp hsorted.gaps).1
  obtain ⟨out, zs, hzs, hkeeps, hle, hbehind, hends, hpages, hrun⟩ :=
    addLoop_spec H (hsorted.sublist (sublist_cons_self p post)) (max p.2.toPage t)
  have hmin : min f p.2.fromPage ≤ max p.2.toPage t :=
    (min_le_left _ _).trans (hft.le.trans (le_max_right _ _))
  have hlast : out.2 < 2 ^ (W - 1) := by
    rcases hends with h | ⟨q, hq, h⟩
    · rw [h]
      exact max_lt hbounds.2 ht
    · rw [h]
      exact (hsorted.bounds q (mem_cons_of_mem _ hq)).2
  refine ⟨out.1.setRange p.1 ⟨min f p.2.fromPage, out.2⟩,
    pre ++ (p.1, ⟨min f p.2.fromPage, out.2⟩) :: zs,
    ⟨(pre ++ p :: post).length, fun turns hturns => ?_⟩, hkeeps.setRange _, ?_, ?_⟩
  · have hlocate : locate m head f turns (m.links head).next = some p.1 := by
      refine locate_first H hpre ?_ hturns
      rintro q rest h
      obtain ⟨rfl, -⟩ := List.cons.inj h
      exact hfp
    have hlen : post.length + 1 ≤ turns := by
      rw [length_append, length_cons] at hturns
      omega
    obtain ⟨n, rfl⟩ := Nat.exists_eq_add_of_le' hlen
    show regionAdd (n + (post.length + 1)) m head f t = _
    have hback : (m.links (m.links p.1).prev).next = p.1 := H.next_prev
    rw [regionAdd, hlocate]
    show (m.range p.1).bind _ = _
    rw [H.range_mid, min_comm f, min_def_lt]
    show (addLoop head p.1 _ m (m.links (m.links p.1).prev).next _ t).bind _ = _
    rw [hback, ← add_assoc, addLoop_region H, if_neg (not_lt.mpr hpt),
      if_neg (fun h => h rfl), H.next, hrun _ (le_add_left _ _)]
    rfl
  · have hold : Sorted W (pre ++ zs) :=
      hs.sublist ((hzs.sublist.trans (sublist_cons_self p post)).append_left pre)
    refine hold.insert (fun q hq => ?_) (hmin.trans hle) hbehind (le_min hf hbounds.1) hlast p.1
    exact lt_min (hpre q hq) ((pairwise_append.mp hs.gaps).2.2 q hq p mem_cons_self)
  · have hrest := hpages (min f p.2.fromPage) hmin fun q hq => by
      have := hgap q hq
      exact (min_le_right _ _).trans (by omega)
    -- the pages between the ends of the region and those of the range
    have hmid : Finset.Ico (min f p.2.fromPage) (max p.2.toPage t) =
        Finset.Ico p.2.fromPage p.2.toPage ∪ Finset.Ico f t := by
      ext i
      rw [mem_union, mem_Ico, mem_Ico, mem_Ico, lt_max_iff]
      omega
    rw [pages_append, pages_cons, hrest, hmid, pages_append, pages_cons]
    ext i
    simp only [mem_union]
    tauto

/-! ## Truncation -/

omit H in
/-- The loop deletes all regions, and counts their pages. -/
theorem truncateLoop_spec (H : Keeps m head (xs ++ ys)) (hs : Sorted W ys) (chg : ℤ) :
    ∃ m', Keeps m' head xs ∧ ∀ turns, ys.length ≤ turns →
      truncateLoop W head turns m (addr head ys) (m.links (addr head ys)).next (long W chg) =
        some (long W (chg + (pages ys).card), m') := by
  induction ys generalizing m chg with
  | nil =>
    refine ⟨m, by rwa [append_nil] at H, fun turns _ => ?_⟩
    rw [pages_nil, card_empty, cast_zero, add_zero]
    exact truncateLoop_head _ _ _ _
  | cons p ys ih =>
    obtain ⟨m', hkeeps, hrun⟩ := ih H.free (hs.sublist (sublist_cons_self p ys))
      (chg + (p.2.toPage - p.2.fromPage))
    refine ⟨m', hkeeps, fun turns hturns => ?_⟩
    obtain ⟨n, rfl⟩ := Nat.exists_eq_add_of_le' hturns
    show truncateLoop W head (n + ys.length + 1) m p.1 (m.links p.1).next (long W chg) = _
    rw [truncateLoop, if_neg H.ne_prev, if_neg H.ne_head, H.range_mid, Option.bind_eq_bind,
      Option.bind_some, H.next, long_add, hrun _ (le_add_left _ _), hs.card_pages_cons, add_assoc]

theorem regionTruncate_eq (hlocate : locate m head stop turns (m.links head).next = some p.1) :
    regionTruncate W turns m head stop =
      if stop > p.2.fromPage then
        truncateLoop W head turns (m.setRange p.1 ⟨p.2.fromPage, stop⟩) (addr head ys)
          ((m.setRange p.1 ⟨p.2.fromPage, stop⟩).links (addr head ys)).next
          (long W (p.2.toPage - stop))
      else truncateLoop W head turns m p.1 (m.links p.1).next 0 := by
  have hback : (m.links (m.links p.1).prev).next = p.1 := H.next_prev
  rw [regionTruncate, hlocate]
  show (if p.1 = head then some (0, m) else (m.range p.1).bind _) = _
  rw [if_neg H.ne_head, H.range_mid]
  by_cases hstop : stop > p.2.fromPage
  · simp only [Option.bind_some, if_pos hstop]
    -- the links are not changed yet
    have hnext : ((m.setRange p.1 ⟨p.2.fromPage, stop⟩).links p.1).next = addr head ys := H.next
    have hfirst : ((m.setRange p.1 ⟨p.2.fromPage, stop⟩).links
        ((m.setRange p.1 ⟨p.2.fromPage, stop⟩).links (addr head ys)).prev).next = addr head ys :=
      H.snoc.next_prev
    rw [hnext, hfirst]
  · simp only [Option.bind_some, if_neg hstop]
    rw [hback]

end

/-- All pages before the region that was found are kept. -/
theorem filter_pages_of_lt (hxs : ∀ q ∈ xs, q.2.toPage < stop) :
    (pages xs).filter (· < stop) = pages xs ∧ (pages xs).filter (stop ≤ ·) = ∅ := by
  have hlt : ∀ i ∈ pages xs, i < stop := by
    intro i hi
    obtain ⟨q, hq, -, hlt⟩ := mem_pages.mp hi
    exact hlt.trans (hxs q hq)
  exact ⟨filter_true_of_mem hlt, filter_false_of_mem fun i hi => (hlt i hi).not_ge⟩

theorem filter_pages_of_le (hle : ∀ i ∈ pages xs, stop ≤ i) :
    (pages xs).filter (· < stop) = ∅ ∧ (pages xs).filter (stop ≤ ·) = pages xs :=
  ⟨filter_false_of_mem fun i hi => (hle i hi).not_gt, filter_true_of_mem hle⟩

/-- **`region_truncate`** takes the pages from `stop` on out of the set, and returns how many they
are. -/
theorem regionTruncate_spec (H : Keeps m head xs) (hs : Sorted W xs) (stop : ℤ) :
    ∃ out xs', Returns (fun turns => regionTruncate W turns m head stop) out ∧
      Keeps out.2 head xs' ∧ Sorted W xs' ∧ pages xs' = (pages xs).filter (· < stop) ∧
      out.1 = ((pages xs).filter (stop ≤ ·)).card := by
  obtain ⟨pre, post, rfl, hpre, hpost⟩ := exists_cut stop xs
  obtain ⟨hkept, hnone⟩ := filter_pages_of_lt hpre
  rw [pages_append, filter_union, filter_union, hkept, hnone, empty_union]
  cases post with
  | nil =>
    refine ⟨(0, m), pre ++ [], ⟨(pre ++ []).length, fun turns hturns => ?_⟩, H, hs, ?_, rfl⟩
    · have hlocate : locate m head stop turns (m.links head).next = some head :=
        locate_first H hpre hpost hturns
      show regionTruncate W turns m head stop = _
      rw [regionTruncate, hlocate]
      exact if_pos rfl
    · rw [append_nil, pages_nil, filter_empty, union_empty]
  | cons p post =>
    have hsorted : Sorted W (p :: post) := hs.sublist (sublist_append_right _ _)
    have hgap := (pairwise_cons.mp hsorted.gaps).1
    have hbounds := hsorted.bounds p mem_cons_self
    have hstop := hpost p post rfl
    have hlocate : ∀ turns, (pre ++ p :: post).length ≤ turns →
        locate m head stop turns (m.links head).next = some p.1 :=
      fun turns hturns => locate_first H hpre hpost hturns
    by_cases hmid : stop > p.2.fromPage
    · -- the region is cut
      have Hcut : Keeps (m.setRange p.1 ⟨p.2.fromPage, stop⟩) head
          ((pre ++ [(p.1, ⟨p.2.fromPage, stop⟩)]) ++ post) := by
        rw [← append_cons]
        exact H.setRange _
      have hbehind : Sorted W ([] ++ post) := hsorted.sublist (sublist_cons_self p post)
      have hrest : Sorted W ([] ++ (p.1, ⟨stop, p.2.toPage⟩) :: post) :=
        hbehind.insert (r := ⟨stop, p.2.toPage⟩) (fun q hq => absurd hq not_mem_nil) hstop hgap
          (hbounds.1.trans hmid.le) hbounds.2 p.1
      obtain ⟨m', hkeeps, hrun⟩ := truncateLoop_spec Hcut hbehind (p.2.toPage - stop)
      obtain ⟨hgone, hall⟩ := filter_pages_of_le fun i hi =>
        hstop.trans (hsorted.lt_of_mem_pages hi).le
      have hcard : p.2.toPage - stop + ((pages post).card : ℤ) =
          (pages ([] ++ (p.1, ⟨stop, p.2.toPage⟩) :: post)).card := hrest.card_pages_cons.symm
      refine ⟨(long W (p.2.toPage - stop + (pages post).card), m'),
        pre ++ [(p.1, ⟨p.2.fromPage, stop⟩)],
        ⟨(pre ++ p :: post).length, fun turns hturns => ?_⟩, hkeeps, ?_, ?_, ?_⟩
      · have hlen : post.length ≤ turns := by
          rw [length_append, length_cons] at hturns
          omega
        show regionTruncate W turns m head stop = _
        rw [regionTruncate_eq H (hlocate turns hturns), if_pos hmid]
        exact hrun turns hlen
      · have hpre' : Sorted W (pre ++ []) :=
          hs.sublist ((nil_sublist _).append_left pre)
        refine hpre'.insert (r := ⟨p.2.fromPage, stop⟩) (fun q hq => ?_) hmid.le
          (fun q hq => absurd hq not_mem_nil) hbounds.1 (hstop.trans_lt hbounds.2) p.1
        exact (pairwise_append.mp hs.gaps).2.2 q hq p mem_cons_self
      · rw [pages_append, pages_cons, pages_nil, union_empty, pages_cons, filter_union, hgone,
          union_empty, Ico_filter_lt, min_eq_right hstop]
      · have hfilter : (pages (p :: post)).filter (stop ≤ ·) =
            pages ([] ++ (p.1, ⟨stop, p.2.toPage⟩) :: post) := by
          rw [nil_append, pages_cons, pages_cons, filter_union, hall, Ico_filter_le,
            max_eq_right hmid.le]
        rw [hfilter, hcard]
        exact long_eq (Int.natCast_nonneg _) hrest.card_lt
    · -- the region is dropped with those behind it
      obtain ⟨m', hkeeps, hrun⟩ := truncateLoop_spec H hsorted 0
      obtain ⟨hgone, hall⟩ := filter_pages_of_le fun i hi =>
        (not_lt.mp hmid).trans (hsorted.le_of_mem_pages hi)
      rw [hgone, hall, union_empty]
      refine ⟨(long W (0 + (pages (p :: post)).card), m'), pre,
        ⟨(pre ++ p :: post).length, fun turns hturns => ?_⟩, hkeeps,
        hs.sublist (sublist_append_left _ _), rfl, ?_⟩
      · have hlen : (p :: post).length ≤ turns := by
          rw [length_append] at hturns
          omega
        have hzero : long W 0 = 0 := long_eq le_rfl (by positivity)
        have hloop := hrun turns hlen
        rw [hzero] at hloop
        show regionTruncate W turns m head stop = _
        rw [regionTruncate_eq H (hlocate turns hturns), if_neg hmid]
        exact hloop
      · rw [zero_add]
        exact long_eq (Int.natCast_nonneg _) hsorted.card_lt

end Gp2xKernel.Hugetlb
