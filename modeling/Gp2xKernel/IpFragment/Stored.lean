import Gp2xKernel.IpFragment.Basic
import Mathlib.Data.List.TakeWhile

/-!
# What the queue holds

The fragments in the queue are in order, do not overlap, lie within the length that is known of the
datagram, and hold bytes of fragments that were accepted.  This is so after every fragment that
arrives, whether it is accepted or not.

## Main definitions

* `Stored`: what holds of a queue and the fragments that were accepted

## Main results

* `eatNext_spec`: the loop over the fragments that are overlapped
* `Stored.queueFrag`: one fragment arrives
* `Stored.covers_iff`: the counts say whether anything is missing
-/

namespace Gp2xKernel.IpFragment

open Library List Nat

/-- The bytes that fragments hold. -/
def segs (l : List Frag) : List (Segment Byte) := l.map Frag.seg

@[simp] theorem segs_append (l m : List Frag) : segs (l ++ m) = segs l ++ segs m := map_append

@[simp] theorem segs_cons (f : Frag) (l : List Frag) : segs (f :: l) = f.seg :: segs l := rfl

@[simp] theorem segs_nil : segs [] = [] := rfl

variable {s : Segment Byte} {skb : Skb} {i offset : ℕ} {back front : List Frag} {e : Eaten}
  {o : Outcome} {qp' : Ipq}

theorem mem_segs {l : List Frag} : s ∈ segs l ↔ ∃ f ∈ l, f.seg = s :=
  mem_map

/-- **What holds of a queue** and the fragments it has accepted. -/
structure Stored (qp : Ipq) (accepted : List Skb) : Prop where
  ordered : Ordered (segs qp.fragments)
  nonempty : ∀ s ∈ segs qp.fragments, s.data ≠ []
  within : ∀ s ∈ segs qp.fragments, s.stop ≤ qp.len
  meat : qp.meat = total (segs qp.fragments)
  bytes : ∀ s ∈ segs qp.fragments, ∀ p b, s.get? p = some b →
    ∃ skb ∈ accepted, skb.segment.get? p = some b
  first : ∀ s ∈ segs qp.fragments, s.start = 0 → qp.firstIn = true
  pos : ∀ skb ∈ accepted, 0 < skb.fragEnd
  final : ∀ skb ∈ accepted, skb.moreFragments = false → qp.lastIn = true ∧ skb.fragEnd = qp.len

/-! ## Positions of a fragment -/

namespace Skb

variable (skb : Skb)

theorem eight_dvd_offset : skb.offset % 8 = 0 := by
  rw [offset]
  omega

theorem offset_le_fragEnd : skb.offset ≤ skb.fragEnd := by
  have hdvd := skb.eight_dvd_offset
  rw [fragEnd, rawEnd]
  split_ifs <;> omega

theorem fragEnd_le : skb.fragEnd ≤ skb.offset + skb.payload.length := by
  rw [fragEnd, rawEnd]
  split_ifs <;> omega

end Skb

theorem trimmed_start (skb : Skb) (i : ℕ) : (trimmed skb i).seg.start = skb.offset + i := rfl

theorem trimmed_stop (h : skb.offset + i ≤ skb.fragEnd) :
    (trimmed skb i).seg.stop = skb.fragEnd := by
  have hle := skb.fragEnd_le
  have hlen : (skb.payload.take (skb.fragEnd - skb.offset)).length = skb.fragEnd - skb.offset := by
    rw [length_take]
    omega
  rw [trimmed, Segment.stop_cut]
  · simp only [Segment.stop]
    omega
  · rw [hlen]
    omega

/-- The bytes of a fragment are at the same positions after it is trimmed. -/
theorem trimmed_get? {p : ℕ} {b : Byte} (h : (trimmed skb i).seg.get? p = some b) :
    skb.segment.get? p = some b := by
  obtain ⟨hle, hget⟩ := Segment.get?_eq_some_iff.mp (Segment.get?_of_cut h)
  refine Segment.get?_eq_some_iff.mpr ⟨hle, ?_⟩
  rw [List.getElem?_take] at hget
  split_ifs at hget
  exact hget

/-! ## The fragments that are overlapped -/

/-- What the loop leaves of the fragments `back`. -/
structure Eats (fin : ℕ) (back : List Frag) (meat : ℤ) (e : Eaten) : Prop where
  ordered : Ordered (segs e.rest)
  part : ∀ s ∈ segs e.rest, ∃ t ∈ segs back, ∃ n < t.data.length, s = t.cut n
  meat : e.meat + total (segs back) = meat + total (segs e.rest)
  beyond : e.ok = true → ∀ s ∈ segs e.rest, fin ≤ s.start

theorem cut_zero (s : Segment Byte) : s.cut 0 = s := rfl

/-- **The loop over the fragments that are overlapped.** -/
theorem eatNext_spec (pullNext : Bool) (fin : ℕ) (hord : Ordered (segs back))
    (hne : ∀ s ∈ segs back, s.data ≠ []) (meat : ℤ) :
    Eats fin back meat (eatNext pullNext fin back meat) := by
  induction back generalizing meat with
  | nil => exact ⟨hord, by simp [eatNext], by simp [eatNext], by simp [eatNext]⟩
  | cons next rest ih =>
    obtain ⟨hfirst, hrest⟩ := pairwise_cons.mp hord
    have hself : ∀ s ∈ segs (next :: rest), ∃ t ∈ segs (next :: rest), ∃ n < t.data.length,
        s = t.cut n := by
      intro s hs
      exact ⟨s, hs, 0, length_pos_iff.mpr (hne s hs), (cut_zero s).symm⟩
    rw [eatNext]
    split_ifs with hover hpart hpull
    · -- the head of the next fragment is eaten, and the others lie behind it
      have hn : fin - next.seg.start < next.seg.data.length := hpart
      have hstart : (next.seg.cut (fin - next.seg.start)).start = fin :=
        Nat.add_sub_cancel' hover.le
      refine ⟨?_, ?_, ?_, ?_⟩
      · refine pairwise_cons.mpr ⟨?_, hrest⟩
        intro s hs
        rw [Segment.stop_cut hn.le]
        exact hfirst s hs
      · intro s hs
        rcases mem_cons.mp hs with rfl | hs
        · exact ⟨next.seg, mem_cons_self, _, hn, rfl⟩
        · exact hself s (mem_cons_of_mem _ hs)
      · have hlen : (next.seg.cut (fin - next.seg.start)).data.length =
            next.seg.data.length - (fin - next.seg.start) := length_drop
        simp only [segs_cons, total_cons, hlen]
        omega
      · intro _ s hs
        rcases mem_cons.mp hs with rfl | hs
        · exact hstart.ge
        · have hstop := hfirst s hs
          rw [Segment.stop] at hstop
          omega
    · exact ⟨hord, hself, rfl, by simp⟩
    · -- the next fragment is dropped
      have hih := ih hrest (fun s hs => hne s (mem_cons_of_mem _ hs)) (meat - next.seg.data.length)
      refine ⟨hih.ordered, ?_, ?_, hih.beyond⟩
      · intro s hs
        obtain ⟨t, ht, hcut⟩ := hih.part s hs
        exact ⟨t, mem_cons_of_mem _ ht, hcut⟩
      · have := hih.meat
        simp only [segs_cons, total_cons]
        omega
    · refine ⟨hord, hself, rfl, ?_⟩
      intro _ s hs
      rcases mem_cons.mp hs with rfl | hs
      · omega
      · have hstop := hfirst s hs
        rw [Segment.stop] at hstop
        omega

/-! ## The place of a fragment -/

theorem inFront_append_behind (qp : Ipq) (offset : ℕ) :
    inFront qp offset ++ behind qp offset = qp.fragments :=
  takeWhile_append_dropWhile

theorem inFront_lt {qp : Ipq} (hs : s ∈ segs (inFront qp offset)) : s.start < offset := by
  obtain ⟨f, hf, rfl⟩ := mem_segs.mp hs
  simpa using mem_takeWhile_imp hf

variable {qp : Ipq} {accepted : List Skb}

/-- The length that is known of the datagram, and whether it is that of the last fragment. -/
theorem noteEnd_spec {noted : Ipq} (h : noteEnd qp skb = some noted) :
    ∃ len lastIn, noted = { qp with len := len, lastIn := lastIn } ∧ qp.len ≤ len ∧
      skb.fragEnd ≤ len ∧ (qp.lastIn = true → lastIn = true ∧ len = qp.len) ∧
      (skb.moreFragments = false → lastIn = true ∧ len = skb.fragEnd) ∧
      (skb.moreFragments = true → lastIn = qp.lastIn) := by
  rw [noteEnd] at h
  by_cases hmore : skb.moreFragments = false
  · split_ifs at h with hbad
    obtain rfl := Option.some.inj h
    rw [not_or] at hbad
    refine ⟨skb.fragEnd, true, rfl, not_lt.mp hbad.1, le_rfl, ?_, fun _ => ⟨rfl, rfl⟩, ?_⟩
    · intro hlast
      refine ⟨rfl, ?_⟩
      by_contra hne
      exact hbad.2 ⟨hlast, hne⟩
    · simp [hmore]
  · split_ifs at h with hbeyond hlast
    · obtain rfl := Option.some.inj h
      exact ⟨skb.fragEnd, qp.lastIn, rfl, hbeyond.le, le_rfl, fun hl => absurd hl hlast,
        fun hm => absurd hm hmore, fun _ => rfl⟩
    · obtain rfl := Option.some.inj h
      exact ⟨qp.len, qp.lastIn, rfl, le_rfl, not_lt.mp hbeyond, fun hl => ⟨hl, rfl⟩,
        fun hm => absurd hm hmore, fun _ => rfl⟩

theorem finished_accepted (qp : Ipq) : (finished qp).accepted = true := by
  rw [finished]
  split_ifs <;> rfl

section

variable (h : Stored qp accepted)
include h

/-- The fragments in front end where a new fragment starts, after its overlap with the last of
them is cut off. -/
theorem Stored.inFront_stop_le (hs : s ∈ segs (inFront qp offset)) :
    s.stop ≤ offset + (overlap (inFront qp offset).getLast? offset).toNat := by
  obtain ⟨f, hf, rfl⟩ := mem_segs.mp hs
  have hord : Ordered (segs (inFront qp offset)) :=
    h.ordered.sublist ((takeWhile_sublist _).map _)
  rcases eq_nil_or_concat (inFront qp offset) with hnil | ⟨init, prev, hconcat⟩
  · rw [hnil] at hf
    exact absurd hf not_mem_nil
  · rw [hconcat, concat_eq_append] at hf hord ⊢
    rw [List.getLast?_append, List.getLast?_singleton, Option.some_or, overlap]
    rw [segs_append] at hord
    have hlast := pairwise_append.mp hord
    rcases mem_append.mp hf with hf | hf
    · have hle := hlast.2.2 f.seg (mem_segs.mpr ⟨f, hf, rfl⟩) prev.seg (by simp)
      omega
    · rw [mem_singleton.mp hf, Segment.stop]
      omega

/-! ## A fragment arrives -/

/-- Noting the length changes nothing that is stored. -/
theorem Stored.noted {len : ℕ} {lastIn : Bool} (hlen : qp.len ≤ len)
    (hlast : qp.lastIn = true → lastIn = true ∧ len = qp.len) :
    Stored { qp with len := len, lastIn := lastIn } accepted where
  ordered := h.ordered
  nonempty := h.nonempty
  within s hs := (h.within s hs).trans hlen
  meat := h.meat
  bytes := h.bytes
  first := h.first
  pos := h.pos
  final skb hskb hmore := by
    obtain ⟨hin, hend⟩ := h.final skb hskb hmore
    exact ⟨(hlast hin).1, hend.trans (hlast hin).2.symm⟩

/-- Some of the fragments behind are cut or dropped. -/
theorem Stored.eaten (hqueue : front ++ back = qp.fragments) {fin : ℕ}
    (heats : Eats fin back qp.meat e) :
    Stored { qp with fragments := front ++ e.rest, meat := e.meat } accepted := by
  have hsplit : segs qp.fragments = segs front ++ segs back := by rw [← hqueue, segs_append]
  have hold := h.ordered
  rw [hsplit] at hold
  obtain ⟨hfront, -, hcross⟩ := pairwise_append.mp hold
  -- each piece is one of before, possibly without its first bytes
  have hpart : ∀ s ∈ segs (front ++ e.rest), ∃ t ∈ segs qp.fragments, ∃ n < t.data.length,
      s = t.cut n := by
    intro s hs
    rw [segs_append, mem_append] at hs
    rw [hsplit]
    rcases hs with hs | hs
    · have hmem : s ∈ segs front ++ segs back := mem_append.mpr (.inl hs)
      exact ⟨s, hmem, 0, length_pos_iff.mpr (h.nonempty s (hsplit ▸ hmem)), (cut_zero s).symm⟩
    · obtain ⟨t, ht, hcut⟩ := heats.part s hs
      exact ⟨t, mem_append.mpr (.inr ht), hcut⟩
  refine ⟨?_, ?_, ?_, ?_, ?_, ?_, h.pos, h.final⟩
  · rw [segs_append]
    refine pairwise_append.mpr ⟨hfront, heats.ordered, ?_⟩
    intro s hs t ht
    obtain ⟨t', ht', n, -, rfl⟩ := heats.part t ht
    exact (hcross s hs t' ht').trans (le_add_right _ _)
  · intro s hs
    obtain ⟨t, -, n, hn, rfl⟩ := hpart s hs
    simp [Segment.cut, hn]
  · intro s hs
    obtain ⟨t, ht, n, hn, rfl⟩ := hpart s hs
    rw [Segment.stop_cut hn.le]
    exact h.within t ht
  · have hmeat := h.meat
    have heaten := heats.meat
    rw [hsplit, total_append] at hmeat
    dsimp only
    rw [segs_append, total_append]
    omega
  · intro s hs p b hb
    obtain ⟨t, ht, n, -, rfl⟩ := hpart s hs
    exact h.bytes t ht p b (Segment.get?_of_cut hb)
  · intro s hs hzero
    obtain ⟨t, ht, n, -, rfl⟩ := hpart s hs
    exact h.first t ht (eq_zero_of_add_eq_zero hzero).1

omit h in
theorem Stored.insert {rest : List Frag} {meat : ℤ}
    (h : Stored { qp with fragments := front ++ rest, meat := meat } accepted)
    (hne : skb.offset + i < skb.fragEnd) (hlen : skb.fragEnd ≤ qp.len)
    (hfront : ∀ s ∈ segs front, s.stop ≤ skb.offset + i)
    (hrest : ∀ s ∈ segs rest, skb.fragEnd ≤ s.start)
    (hlast : skb.moreFragments = false → qp.lastIn = true ∧ skb.fragEnd = qp.len)
    (he : e.rest = rest ∧ e.meat = meat) :
    Stored (insertFrag qp front (trimmed skb i) e) (skb :: accepted) := by
  obtain ⟨rfl, rfl⟩ := he
  have hold := h.ordered
  rw [segs_append] at hold
  obtain ⟨hofront, horest, hcross⟩ := pairwise_append.mp hold
  have hstop := trimmed_stop hne.le
  have hmem : ∀ s ∈ segs (front ++ trimmed skb i :: e.rest),
      s = (trimmed skb i).seg ∨ s ∈ segs (front ++ e.rest) := by
    intro s hs
    simp only [segs_append, segs_cons, mem_append, mem_cons] at hs ⊢
    tauto
  refine ⟨?_, ?_, ?_, ?_, ?_, ?_, ?_, ?_⟩
  · rw [insertFrag, segs_append]
    refine pairwise_append.mpr ⟨hofront, pairwise_cons.mpr ⟨?_, horest⟩, ?_⟩
    · intro s hs
      rw [hstop]
      exact hrest s hs
    · intro s hs t ht
      rcases mem_cons.mp ht with rfl | ht
      · exact hfront s hs
      · exact hcross s hs t ht
  · intro s hs
    rcases hmem s hs with rfl | hs
    · intro hnil
      rw [Segment.stop, hnil, trimmed_start, length_nil] at hstop
      omega
    · exact h.nonempty s hs
  · intro s hs
    rcases hmem s hs with rfl | hs
    · rw [hstop]
      exact hlen
    · exact h.within s hs
  · have hmeat := h.meat
    dsimp only [insertFrag] at hmeat ⊢
    rw [segs_append, total_append] at hmeat
    rw [segs_append, segs_cons, total_append, total_cons]
    omega
  · intro s hs p b hb
    rcases hmem s hs with rfl | hs
    · exact ⟨skb, mem_cons_self, trimmed_get? hb⟩
    · obtain ⟨skb', hskb', hb'⟩ := h.bytes s hs p b hb
      exact ⟨skb', mem_cons_of_mem _ hskb', hb'⟩
  · intro s hs hzero
    rw [insertFrag, Bool.or_eq_true, decide_eq_true_eq]
    rcases hmem s hs with rfl | hs
    · exact .inr hzero
    · exact .inl (h.first s hs hzero)
  · intro skb' hskb'
    rcases mem_cons.mp hskb' with rfl | hskb'
    · exact (zero_le _).trans_lt hne
    · exact h.pos skb' hskb'
  · intro skb' hskb' hmore
    rcases mem_cons.mp hskb' with rfl | hskb'
    · exact hlast hmore
    · exact h.final skb' hskb' hmore

/-- The fragment has no bytes of its own, or there is no memory for it. -/
def TurnedDown (mem : Memory) (qp : Ipq) (skb : Skb) : Prop :=
  skb.fragEnd = skb.offset ∨ mem.pullHeader = false ∨ mem.trim = false ∨
    overlap (inFront qp skb.offset).getLast? skb.offset > 0 ∧
      ((skb.fragEnd : ℤ) ≤ skb.offset + overlap (inFront qp skb.offset).getLast? skb.offset ∨
        mem.pullPrev = false)

omit h in
/-- A fragment is turned down, or it gets to its place without what the one before has of it. -/
theorem queueNoted_cases (mem : Memory) (qp : Ipq) (skb : Skb) :
    (TurnedDown mem qp skb ∧ ∃ e, queueNoted mem qp skb = (.error e, qp)) ∨
      ¬ TurnedDown mem qp skb ∧ ∃ i,
      i = (overlap (inFront qp skb.offset).getLast? skb.offset).toNat ∧
        skb.offset + i < skb.fragEnd ∧ queueNoted mem qp skb =
          placeFrag mem qp (inFront qp skb.offset) (behind qp skb.offset) (trimmed skb i)
            skb.fragEnd := by
  have hle := skb.offset_le_fragEnd
  rw [queueNoted, findPlace, TurnedDown]
  split_ifs with hempty hpull htrim hover hinside hprev
  · exact .inl ⟨.inl hempty, _, rfl⟩
  · exact .inl ⟨.inr (.inl hpull), _, rfl⟩
  · exact .inl ⟨.inr (.inr (.inl htrim)), _, rfl⟩
  · exact .inl ⟨.inr (.inr (.inr ⟨hover, .inl hinside⟩)), _, rfl⟩
  · exact .inl ⟨.inr (.inr (.inr ⟨hover, .inr hprev⟩)), _, rfl⟩
  · exact .inr ⟨by simp [hempty, hpull, htrim, hinside, hprev], _, rfl, by omega, rfl⟩
  · exact .inr ⟨by simp [hempty, hpull, htrim, hover], 0, by omega, by omega, rfl⟩

/-- The fragments that have been accepted, after one more has arrived. -/
def record (o : Outcome) (skb : Skb) (accepted : List Skb) : List Skb :=
  if o.accepted then skb :: accepted else accepted

/-- What the loop does to the queue. -/
theorem Stored.eats (pullNext : Bool) (offset fin : ℕ) :
    Eats fin (behind qp offset) qp.meat (eatNext pullNext fin (behind qp offset) qp.meat) := by
  have hsub : (segs (behind qp offset)).Sublist (segs qp.fragments) := (dropWhile_sublist _).map _
  exact eatNext_spec pullNext fin (h.ordered.sublist hsub)
    (fun s hs => h.nonempty s (hsub.subset hs)) _

theorem Stored.placeFrag (mem : Memory)
    (hi : i = (overlap (inFront qp skb.offset).getLast? skb.offset).toNat)
    (hne : skb.offset + i < skb.fragEnd) (hlen : skb.fragEnd ≤ qp.len)
    (hlast : skb.moreFragments = false → qp.lastIn = true ∧ skb.fragEnd = qp.len)
    (hplace : placeFrag mem qp (inFront qp skb.offset) (behind qp skb.offset)
      (trimmed skb i) skb.fragEnd = (o, qp')) :
    Stored qp' (record o skb accepted) := by
  have heats := h.eats mem.pullNext skb.offset skb.fragEnd
  have heaten := h.eaten (inFront_append_behind qp skb.offset) heats
  rw [IpFragment.placeFrag] at hplace
  split_ifs at hplace with hok
  · obtain ⟨rfl, rfl⟩ := Prod.mk.inj hplace
    rw [record, if_pos (finished_accepted _)]
    exact heaten.insert hne hlen (fun s hs => hi ▸ h.inFront_stop_le hs) (heats.beyond hok) hlast
      ⟨rfl, rfl⟩
  · obtain ⟨rfl, rfl⟩ := Prod.mk.inj hplace
    exact heaten

/-- **A fragment arrives**: what holds of the queue holds after it. -/
theorem Stored.queueFrag (mem : Memory)
    (hq : queueFrag mem qp skb = (o, qp')) : Stored qp' (record o skb accepted) := by
  rw [IpFragment.queueFrag] at hq
  cases hnote : noteEnd qp skb with
  | none =>
    rw [hnote] at hq
    obtain ⟨rfl, rfl⟩ := Prod.mk.inj hq
    exact h
  | some noted =>
    obtain ⟨len, lastIn, rfl, hlen, hend, hlast, hfinal, -⟩ := noteEnd_spec hnote
    have hnoted := h.noted hlen hlast
    have hlast' : skb.moreFragments = false →
        lastIn = true ∧ skb.fragEnd = len := fun hm => ⟨(hfinal hm).1, (hfinal hm).2.symm⟩
    rw [hnote] at hq
    rcases queueNoted_cases mem { qp with len, lastIn } skb with ⟨-, e, hrun⟩ |
      ⟨-, i, hi, hne, hrun⟩
    · obtain ⟨rfl, rfl⟩ := Prod.mk.inj (hrun.symm.trans hq)
      exact hnoted
    · exact hnoted.placeFrag mem hi hne hend hlast' (hrun.symm.trans hq)

/-! ## Whether anything is missing -/

/-- **The counts say whether anything is missing.** -/
theorem Stored.covers_iff : Covers (segs qp.fragments) 0 qp.len ↔ qp.meat = qp.len := by
  rw [h.ordered.covers_iff h.nonempty (fun s _ => zero_le _) h.within (zero_le _), h.meat, zero_add]
  exact cast_inj.symm

/-- What is stored is made up of bytes of the fragments that were accepted. -/
theorem Stored.join (hfill : qp.meat = qp.len) :
    (qp.fragments.flatMap fun f => f.seg.data).length = qp.len ∧
      ∀ p b, (qp.fragments.flatMap fun f => f.seg.data)[p]? = some b →
        ∃ skb ∈ accepted, skb.segment.get? p = some b := by
  have hjoin : (qp.fragments.flatMap fun f => f.seg.data) =
      (segs qp.fragments).flatMap Segment.data := by
    rw [segs, flatMap_map]
  have htotal : total (segs qp.fragments) = qp.len := by
    have hmeat := h.meat
    rw [hfill] at hmeat
    exact (cast_inj.mp hmeat).symm
  rw [hjoin]
  refine ⟨(Ordered.length_join _).trans htotal, fun p b hb => ?_⟩
  obtain ⟨s, hs, hget⟩ := h.ordered.join_spec (fun s _ => zero_le _) h.within
    ((zero_add _).trans htotal) hb
  rw [zero_add] at hget
  exact h.bytes s hs p b hget

end

end Gp2xKernel.IpFragment
