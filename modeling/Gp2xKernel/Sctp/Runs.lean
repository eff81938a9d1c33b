import Gp2xKernel.Library.Run
import Gp2xKernel.Sctp.Gaps

/-!
# The map tracks the received set

In every run of marks and skips, the cumulative point, the test for duplicates and the blocks that
are reported are those of the set of received positions.  A map has at most 32767 bytes in an array,
so that 16 bits hold the offsets of the blocks, and only numbers that the map can hold are skipped.

## Main definitions

* `State`, `Event`, `system`, `heldSystem`: the runs
* `Exact`: the map answers for the received set

## Main results

* `tsnmap_exact`: the map answers for the received set in all runs
-/

namespace Gp2xKernel.Sctp

open Library List

variable {map : TsnMap} {initial : BitVec 32} {len : BitVec 16} {R : Set ℕ}

/-- A map, the position of its base, and the positions that were marked or skipped over. -/
structure State where
  map : TsnMap
  base : ℕ
  received : Set ℕ

/-- What happens to the map. -/
inductive Event
  | mark (tsn : BitVec 32)
  | skip (tsn : BitVec 32)

/-- The functions that are called. -/
def perform (turns : ℕ) (map : TsnMap) : Event → Option TsnMap
  | .mark tsn => sctpTsnmapMark turns map tsn
  | .skip tsn => sctpTsnmapSkip turns map tsn

/-- The positions that an event adds. -/
def added (s : State) : Event → Set ℕ
  | .mark tsn => {p | (p : ℤ) = position s.map s.base tsn}
  | .skip tsn => {p | (p : ℤ) ≤ position s.map s.base tsn}

/-- Only numbers for which `sctp_tsnmap_check` returns 0 are marked. -/
def Allowed (s : State) : Event → Prop
  | .mark tsn => sctpTsnmapCheck s.map tsn = 0
  | .skip _ => True

/-- No number is skipped that is too large to track. -/
def Held (s : State) : Event → Prop
  | .mark _ => True
  | .skip tsn => 0 ≤ sctpTsnmapCheck s.map tsn

/-- One event. -/
def Step (s : State) (e : Event) (s' : State) : Prop :=
  ∃ m, Returns (fun turns => perform turns s.map e) m ∧
    s' = ⟨m, s.base + (m.baseTsn - s.map.baseTsn).toNat, s.received ∪ added s e⟩

/-- The runs of a new map. -/
def system (len : BitVec 16) (initial : BitVec 32) : System State Event where
  init s := s = ⟨sctpTsnmapInit len initial, 0, ∅⟩
  step _ s e s' := Allowed s e ∧ Step s e s'

/-- The runs in which no number is skipped that is too large to track. -/
def heldSystem (len : BitVec 16) (initial : BitVec 32) : System State Event where
  init s := s = ⟨sctpTsnmapInit len initial, 0, ∅⟩
  step _ s e s' := Allowed s e ∧ Held s e ∧ Step s e s'

/-- The map answers for the set of received positions, whose first gap is at `k`. -/
structure Exact (initial : BitVec 32) (s : State) (k : ℕ) : Prop where
  below : ∀ p < k, p ∈ s.received
  missing : k ∉ s.received
  cumulative : s.map.cumulativeTsnAckPoint = tsnAt initial (k - 1)
  seen : ∀ tsn, sctpTsnmapCheck s.map tsn > 0 ↔ position s.map s.base tsn < s.base ∨
    ∃ p ∈ s.received, (p : ℤ) = position s.map s.base tsn
  unseen : ∀ tsn, sctpTsnmapCheck s.map tsn = 0 ↔ (s.base : ℤ) ≤ position s.map s.base tsn ∧
    position s.map s.base tsn < s.base + 2 * s.map.len.toNat ∧
    ¬∃ p ∈ s.received, (p : ℤ) = position s.map s.base tsn
  beyond : ∀ tsn, sctpTsnmapCheck s.map tsn < 0 ↔
    s.base + 2 * s.map.len.toNat ≤ position s.map s.base tsn
  gaps :
    ∃ blocks runs, Returns (fun turns => gapAcks s.map turns (sctpTsnmapIterInit s.map)) blocks ∧
    IsRuns s.received k runs ∧
    blocks.map (fun block => (block.1.toNat, block.2.toNat)) =
      runs.map fun run => (run.1 + 1 - k, run.2 + 1 - k)

/-- The invariant of the runs. -/
structure Good (len : BitVec 16) (initial : BitVec 32) (s : State) (k : ℕ) : Prop where
  tracks : Tracks s.map initial s.base k s.received
  length : s.map.len = len

variable {k q p : ℕ} {s : State} {runs : List (ℕ × ℕ)}

/-- The state after an operation that moved the base from `b` to `b'`. -/
theorem Tracks.base_move {m : TsnMap} {b b' k' : ℕ} {R' : Set ℕ} (h : Tracks map initial b k R)
    (h' : Tracks m initial b' k' R') (hb : b ≤ b') (hb' : b' ≤ b + 2 * map.len.toNat) :
    b + (m.baseTsn - map.baseTsn).toNat = b' := by
  rw [h.holds.base, h'.holds.base, tsnAt_sub, toNat_ofInt_of_lt (by omega) (by omega)]
  omega

/-- **One event.** -/
theorem Good.step {s : State} {k : ℕ} (h : Good len initial s k) {e : Event} (ha : Allowed s e)
    (hh : Held s e) : ∃ s' k', Step s e s' ∧ Good len initial s' k' := by
  have hcheck := h.tracks.holds.check
  cases e with
  | mark tsn =>
    obtain ⟨hlo, hhi, hnot⟩ := (hcheck tsn).2.1.mp ha
    obtain ⟨p, hp⟩ := exists_position hlo
    obtain ⟨m, b', k', hrun, hlen, htracks, hb, hb'⟩ := h.tracks.mark hp (by omega) (by omega)
      fun hmem => hnot ⟨p, hmem, hp⟩
    have hset : s.received ∪ added s (.mark tsn) = insert p s.received := by
      have hadded : added s (.mark tsn) = {p} := by
        ext q
        show (q : ℤ) = position s.map s.base tsn ↔ q = p
        rw [← hp, Nat.cast_inj]
      rw [hadded, Set.union_singleton]
    refine ⟨_, k', ⟨m, hrun, rfl⟩, ?_, hlen.trans h.length⟩
    rw [hset, h.tracks.base_move htracks hb hb']
    exact htracks
  | skip tsn =>
    have hhi : position s.map s.base tsn < s.base + 2 * s.map.len.toNat := by
      by_contra hfar
      exact absurd ((hcheck tsn).2.2.mpr (not_lt.mp hfar)) (not_lt.mpr hh)
    rcases lt_or_ge (position s.map s.base tsn) s.base with hold | hlo
    · -- everything before the base was received
      have hset : s.received ∪ added s (.skip tsn) = s.received := by
        refine Set.union_eq_left.mpr fun q hq => h.tracks.holds.before q ?_
        have hle : (q : ℤ) ≤ position s.map s.base tsn := hq
        omega
      have hlt : tsnLt tsn s.map.baseTsn = true := by
        rw [h.tracks.holds.tsnLt_base]
        exact decide_eq_true hold
      refine ⟨_, k, ⟨s.map, ⟨0, fun turns _ => if_pos hlt⟩, rfl⟩, ?_, h.length⟩
      rw [hset, BitVec.sub_self]
      exact h.tracks
    · obtain ⟨p, hp⟩ := exists_position hlo
      obtain ⟨m, b', k', hrun, hlen, htracks, hb, hb'⟩ :=
        h.tracks.skip hp (by omega) (by omega)
      have hadded : added s (.skip tsn) = {q | q ≤ p} := by
        ext q
        show (q : ℤ) ≤ position s.map s.base tsn ↔ q ≤ p
        rw [← hp]
        exact Int.ofNat_le
      refine ⟨_, k', ⟨m, hrun, rfl⟩, ?_, hlen.trans h.length⟩
      rw [hadded, h.tracks.base_move htracks hb hb']
      exact htracks

theorem Step.unique {s1 s2 : State} {e : Event} (h1 : Step s e s1) (h2 : Step s e s2) :
    s1 = s2 := by
  obtain ⟨m1, hrun1, rfl⟩ := h1
  obtain ⟨m2, hrun2, rfl⟩ := h2
  rw [hrun1.unique hrun2]

theorem good_of_reach {tr : List Event} (h : (heldSystem len initial).Reach tr s) :
    ∃ k, Good len initial s k := by
  refine h.invariant (P := fun _ s => ∃ k, Good len initial s k) (fun s hinit => ?_) ?_
  · obtain rfl : s = ⟨sctpTsnmapInit len initial, 0, ∅⟩ := hinit
    exact ⟨0, Tracks.init len initial, rfl⟩
  · rintro tr s e s' ⟨k, hgood⟩ ⟨ha, hh, hstep⟩
    obtain ⟨s'', k', hstep', hgood'⟩ := hgood.step ha hh
    rw [hstep.unique hstep']
    exact ⟨k', hgood'⟩

theorem IsRuns.le (h : IsRuns R q runs) : ∀ run ∈ runs, run.1 ≤ run.2 := by
  induction runs generalizing q with
  | nil => exact fun run hrun => absurd hrun not_mem_nil
  | cons r runs ih =>
    obtain ⟨-, hle, -, -, -, hrest⟩ := h
    exact forall_mem_cons.mpr ⟨hle, ih hrest⟩

/-- In the state of a run, the map answers for the received set. -/
theorem Good.exact (h : Good len initial s k) (hlen : len.toNat ≤ 32767) : Exact initial s k := by
  have hlen' : s.map.len.toNat ≤ 32767 := by rwa [h.length]
  have hcheck := h.tracks.holds.check
  have hbase := h.tracks.base_le
  have hk : k ≤ s.base + 2 * s.map.len.toNat := by
    by_contra hlt
    have := h.tracks.holds.bound _ (h.tracks.below (s.base + 2 * s.map.len.toNat) (by omega))
    omega
  obtain ⟨runs, hruns, hends, hrest⟩ :=
    gapAcks_spec h.tracks hlen' le_rfl h.tracks.missing hk
  have hstart : sctpTsnmapIterInit s.map = tsnAt initial k := by
    rw [sctpTsnmapIterInit, h.tracks.cumulative, tsnAt_add_one, sub_add_cancel]
  refine ⟨h.tracks.below, h.tracks.missing, h.tracks.cumulative, fun tsn => (hcheck tsn).1,
    fun tsn => (hcheck tsn).2.1, fun tsn => (hcheck tsn).2.2, ?_⟩
  refine ⟨runs.map (report k), runs,
    ⟨s.base + 2 * s.map.len.toNat - k, fun turns hturns => ?_⟩, hruns, ?_⟩
  · show gapAcks s.map turns (sctpTsnmapIterInit s.map) = _
    rw [hstart]
    exact hrest turns hturns
  · rw [map_map]
    refine map_congr_left fun run hrun => ?_
    have hend := hends run hrun
    have hle := hruns.le run hrun
    show ((report k run).1.toNat, (report k run).2.toNat) = _
    rw [report, BitVec.toNat_ofNat, BitVec.toNat_ofNat, Nat.mod_eq_of_lt (by omega),
      Nat.mod_eq_of_lt (by omega)]

/-- **Main theorem.**  For every map with at most 32767 bytes in an array, and in every run in which
no number is skipped that is too large to track, the map answers for the set of received positions;
and each operation comes to an end. -/
theorem tsnmap_exact {tr : List Event} {s : State} (hlen : len.toNat ≤ 32767)
    (h : (heldSystem len initial).Reach tr s) :
    (∃ k, Exact initial s k) ∧ ∀ e, Allowed s e → Held s e → ∃ s', Step s e s' := by
  obtain ⟨k, hgood⟩ := good_of_reach h
  refine ⟨⟨k, hgood.exact hlen⟩, fun e ha hh => ?_⟩
  obtain ⟨s', -, hstep, -⟩ := hgood.step ha hh
  exact ⟨s', hstep⟩

/-- The theorem applies to a map whose numbers are about to wrap, after the third was marked. -/
theorem tsnmap_exact_wrap :
    ∃ s, (heldSystem 2048 0xfffffffe).Reach [.mark 0] s ∧
      (∃ k, Exact 0xfffffffe s k) ∧ ∀ e, Allowed s e → Held s e → ∃ s', Step s e s' := by
  have hinit : (heldSystem 2048 0xfffffffe).Reach []
      ⟨sctpTsnmapInit 2048 0xfffffffe, 0, ∅⟩ := .init rfl
  have hgood : Good 2048 0xfffffffe ⟨sctpTsnmapInit 2048 0xfffffffe, 0, ∅⟩ 0 :=
    ⟨Tracks.init 2048 0xfffffffe, rfl⟩
  have hallowed : Allowed ⟨sctpTsnmapInit 2048 0xfffffffe, 0, ∅⟩ (.mark 0) := by
    refine (hgood.tracks.holds.check 0).2.1.mpr ⟨by decide, by decide, ?_⟩
    rintro ⟨p, hp, -⟩
    exact Set.notMem_empty p hp
  obtain ⟨s, -, hstep, -⟩ := hgood.step hallowed trivial
  have hreach : (heldSystem 2048 0xfffffffe).Reach [.mark 0] s :=
    .step hinit ⟨hallowed, trivial, hstep⟩
  exact ⟨s, hreach, tsnmap_exact (by decide) hreach⟩

/-! ## Longer maps -/

theorem IsRuns.exists_run (h : IsRuns R q runs) (hq : q ≤ p)
    (hp : p ∈ R) : ∃ run ∈ runs, p ≤ run.2 := by
  induction runs generalizing q with
  | nil => exact absurd hp (h p hq)
  | cons r runs ih =>
    obtain ⟨-, -, -, -, -, hrest⟩ := h
    rcases le_or_gt p r.2 with hle | hlt
    · exact ⟨r, mem_cons_self, hle⟩
    · obtain ⟨run, hrun, hle⟩ := ih hrest hlt
      exact ⟨run, mem_cons_of_mem _ hrun, hle⟩

theorem Exact.offset_lt (h : Exact initial s k) (hp : p ∈ s.received)
    (hk : k ≤ p) : p + 1 - k < 2 ^ 16 := by
  obtain ⟨blocks, runs, -, hruns, hmap⟩ := h.gaps
  obtain ⟨run, hrun, hle⟩ := hruns.exists_run hk hp
  have hmem : (run.1 + 1 - k, run.2 + 1 - k) ∈
      runs.map fun run => (run.1 + 1 - k, run.2 + 1 - k) := mem_map.mpr ⟨run, hrun, rfl⟩
  rw [← hmap] at hmem
  obtain ⟨block, -, hblock⟩ := mem_map.mp hmem
  have heq : block.2.toNat = run.2 + 1 - k := congrArg Prod.snd hblock
  omega

/-- A map with 32768 bytes in an array, in which the last number is marked, reports no right block:
the offset 65536 does not fit. -/
theorem tsnmap_offset_wraps :
    ∃ s, (system 32768 0).Reach [.mark 65535] s ∧ ¬∃ k, Exact 0 s k := by
  have hinit : (system 32768 0).Reach [] ⟨sctpTsnmapInit 32768 0, 0, ∅⟩ := .init rfl
  have hgood : Good 32768 0 ⟨sctpTsnmapInit 32768 0, 0, ∅⟩ 0 := ⟨Tracks.init 32768 0, rfl⟩
  have hallowed : Allowed ⟨sctpTsnmapInit 32768 0, 0, ∅⟩ (.mark 65535) := by
    refine (hgood.tracks.holds.check 65535).2.1.mpr ⟨by decide, by decide, ?_⟩
    rintro ⟨p, hp, -⟩
    exact Set.notMem_empty p hp
  obtain ⟨s, -, hstep, -⟩ := hgood.step hallowed trivial
  refine ⟨s, .step hinit ⟨hallowed, hstep⟩, ?_⟩
  rintro ⟨k, hexact⟩
  obtain ⟨m, -, rfl⟩ := hstep
  have hmem : ∀ p : ℕ, p ∈ (∅ : Set ℕ) ∪ added ⟨sctpTsnmapInit 32768 0, 0, ∅⟩ (.mark 65535) ↔
      p = 65535 := by
    intro p
    rw [Set.empty_union]
    show (p : ℤ) = position (sctpTsnmapInit 32768 0) 0 65535 ↔ p = 65535
    have hpos : position (sctpTsnmapInit 32768 0) 0 65535 = 65535 := by decide
    omega
  have hzero : k = 0 := by
    by_contra hne
    have := (hmem 0).mp (hexact.below 0 (Nat.pos_of_ne_zero hne))
    omega
  have := hexact.offset_lt ((hmem 65535).mpr rfl) (by omega)
  omega

end Gp2xKernel.Sctp
