import Gp2xKernel.Sctp.Track

/-!
# The blocks above the cumulative point

The iterator gives the maximal runs of received positions above the first gap, in order, as offsets
from the cumulative point.  The offsets have 16 bits, and so the arrays must not have more than
32767 bytes.

## Main definitions

* `IsRuns`: the maximal runs from a position on

## Main results

* `findGapAck_open`: the search of one array
* `searchMaps_spec`: the search of both
* `gapAcks_spec`: the iterator
-/

namespace Gp2xKernel.Sctp

open Library BitVec Nat
open BitVec (ofNat ofInt)

variable {map : TsnMap} {initial : BitVec 32} {b k : ℕ} {R : Set ℕ}

/-- The maximal runs of `R` from `q` on, in order: the first and the last position of each. -/
def IsRuns (R : Set ℕ) : ℕ → List (ℕ × ℕ) → Prop
  | q, [] => ∀ p, q ≤ p → p ∉ R
  | q, run :: runs => q ≤ run.1 ∧ run.1 ≤ run.2 ∧ (∀ p, q ≤ p → p < run.1 → p ∉ R) ∧
    (∀ p, run.1 ≤ p → p ≤ run.2 → p ∈ R) ∧ run.2 + 1 ∉ R ∧ IsRuns R (run.2 + 1) runs

/-! ## One array -/

/-- An array says which of the positions from `c` on were received. -/
def Covers (xs : List (BitVec 8)) (c n : ℕ) (R : Set ℕ) : Prop :=
  ∀ i < n, xs.getD i 0 ≠ 0 ↔ c + i ∈ R

variable {xs : List (BitVec 8)} {c n i j q : ℕ} {zero : Bool} {g : Gap} {off len : BitVec 16}
  {start : BitVec 32}

theorem Covers.beq_eq (h : Covers xs c n R) (hi : i < n)
    (zero : Bool) : ((xs.getD i 0 == 0) == zero) = true ↔ (c + i ∈ R ↔ zero = false) := by
  rw [← h i hi]
  generalize xs.getD i 0 = v
  cases zero <;> by_cases hz : v = 0 <;> simp [hz]

/-- A scan stops at the first byte of its kind. -/
theorem scan_some (hcov : Covers xs c n R) (h : scan zero xs i n = some j) :
    i ≤ j ∧ j < n ∧ (c + j ∈ R ↔ zero = false) ∧
      ∀ p, c + i ≤ p → p < c + j → (p ∈ R ↔ zero = true) := by
  rw [scan, List.find?_range'_eq_some] at h
  obtain ⟨hj, hmem, hbefore⟩ := h
  rw [List.mem_range'_1] at hmem
  refine ⟨hmem.1, by omega, (hcov.beq_eq (by omega) zero).mp hj, fun p hlo hhi => ?_⟩
  have hp := hbefore (p - c) (by omega) (by omega)
  have hbyte := hcov.beq_eq (i := p - c) (by omega) zero
  rw [Nat.add_sub_cancel' (by omega : c ≤ p)] at hbyte
  cases zero <;> simp_all

theorem scan_none (hcov : Covers xs c n R)
    (h : scan zero xs i n = none) : ∀ p, c + i ≤ p → p < c + n → (p ∈ R ↔ zero = true) := by
  rw [scan, List.find?_range'_eq_none] at h
  intro p hlo hhi
  have hp := h (p - c) (by omega) (by omega)
  have hbyte := hcov.beq_eq (i := p - c) (by omega) zero
  rw [Nat.add_sub_cancel' (by omega : c ≤ p)] at hbyte
  cases zero <;> simp_all

/-- What is known when the positions from `q` to before `N` were searched: there is no received
position; or a run has started that reaches to the end; or there is a whole run. -/
inductive Scanned (R : Set ℕ) (b q N : ℕ) (g : Gap) : Prop
  | unstarted (hstarted : g.started = false) (hended : g.ended = false)
      (hnone : ∀ p, q ≤ p → p < N → p ∉ R)
  | running (s : ℕ) (hstarted : g.started = true) (hended : g.ended = false)
      (hstart : g.start = BitVec.ofNat 16 (s - b)) (hq : q ≤ s) (hs : s < N)
      (hnone : ∀ p, q ≤ p → p < s → p ∉ R) (hrun : ∀ p, s ≤ p → p < N → p ∈ R)
  | found (s e : ℕ) (hended : g.ended = true) (hstart : g.start = BitVec.ofNat 16 (s - b))
      (hstop : g.stop = BitVec.ofNat 16 (e - b)) (hq : q ≤ s) (hse : s ≤ e)
      (hnone : ∀ p, q ≤ p → p < s → p ∉ R) (hrun : ∀ p, s ≤ p → p ≤ e → p ∈ R) (he : e + 1 ∉ R)

theorem ofNat_sub_one (h : 0 < n) : ofNat 16 n - 1 = ofNat 16 (n - 1) := by
  obtain ⟨m, rfl⟩ := exists_eq_succ_of_ne_zero h.ne'
  rw [sub_eq_iff_eq_add, succ_eq_add_one, ofNat_add]
  rfl

/-- The search for the end of a run that has started. -/
theorem findStop_scanned {s : ℕ} (hcov : Covers xs c n R) (hb : b ≤ c) (hstarted : g.started = true)
    (hended : g.ended = false) (hstart : g.start = ofNat 16 (s - b)) (hbs : b ≤ s)
    (hq : q ≤ s) (hs : s ≤ c + i) (hsn : s < c + n) (hsR : s ∈ R)
    (hnone : ∀ p, q ≤ p → p < s → p ∉ R) (hrun : ∀ p, s ≤ p → p < c + i → p ∈ R) :
    Scanned R b q (c + n) (findStop xs i n (c - b) g) := by
  rw [findStop]
  cases hscan : scan true xs i n with
  | none =>
    refine .running s hstarted hended hstart hq hsn hnone fun p hlo hhi => ?_
    rcases lt_or_ge p (c + i) with hp | hp
    · exact hrun p hlo hp
    · exact (scan_none hcov hscan p hp hhi).mpr rfl
  | some j =>
    obtain ⟨hij, -, hj, hbefore⟩ := scan_some hcov hscan
    have hjR : c + j ∉ R := fun hmem => absurd (hj.mp hmem) (by decide)
    have hsj : s ≠ c + j := fun h => hjR (h ▸ hsR)
    refine .found s (c + j - 1) rfl hstart ?_ hq (by omega) hnone (fun p hlo hhi => ?_) ?_
    · show ofNat 16 (c - b + j) - 1 = _
      rw [ofNat_sub_one (by omega)]
      congr 1
      omega
    · rcases lt_or_ge p (c + i) with hp | hp
      · exact hrun p hlo hp
      · exact (hbefore p hp (by omega)).mpr rfl
    · rwa [Nat.sub_add_cancel (by omega)]

/-- **The search of an array** continues the search of the positions before it. -/
theorem findGapAck_scanned {base : BitVec 16} (hcov : Covers xs c len.toNat R) (hb : b ≤ c)
    (hbase : base.toNat = c - b) (hoff : off.toNat ≤ len.toNat) (hbq : b ≤ q)
    (hq : q ≤ c + off.toNat) (hg : Scanned R b q (c + off.toNat) g) (hne : g.ended = false) :
    Scanned R b q (c + len.toNat) (sctpTsnmapFindGapAck xs off len base g) := by
  cases hg with
  | unstarted hstarted hended hnone =>
    rw [sctpTsnmapFindGapAck, hstarted, if_neg Bool.false_ne_true, findStart]
    cases hscan : scan false xs off.toNat len.toNat with
    | none =>
      rw [hstarted]
      refine .unstarted hstarted hended fun p hlo hhi => ?_
      rcases lt_or_ge p (c + off.toNat) with hp | hp
      · exact hnone p hlo hp
      · exact fun hmem => absurd ((scan_none hcov hscan p hp hhi).mp hmem) (by decide)
    | some j =>
      obtain ⟨hij, hjn, hj, hbefore⟩ := scan_some hcov hscan
      dsimp only
      rw [hbase]
      have hstart : ofNat 16 (c - b + j) = ofNat 16 (c + j - b) := by
        congr 1
        omega
      -- the run starts with the byte at `j`, which the second scan reads again
      refine findStop_scanned hcov hb rfl hended hstart (by omega) (by omega) le_rfl (by omega)
        (hj.mpr rfl) (fun p hlo hhi => ?_) (fun p hlo hhi => absurd hlo (by omega))
      rcases lt_or_ge p (c + off.toNat) with hp | hp
      · exact hnone p hlo hp
      · exact fun hmem => absurd ((hbefore p hp hhi).mp hmem) (by decide)
  | running s hstarted hended hstart hqs hs hnone hrun =>
    rw [sctpTsnmapFindGapAck, if_pos hstarted, if_pos hstarted, hbase]
    exact findStop_scanned hcov hb hstarted hended hstart (by omega) hqs hs.le (by omega)
      (hrun s le_rfl hs) hnone hrun
  | found s e hended => exact absurd hended (by rw [hne]; decide)

/-! ## Both arrays -/

theorem toNat_setWidth_ofInt {x : ℤ} (hlo : 0 ≤ x) (hhi : x < 2 ^ 16) :
    ((ofInt 32 x).setWidth 16).toNat = x.toNat := by
  rw [toNat_setWidth, toNat_ofInt_of_lt hlo (by omega)]
  omega

section

variable (h : Holds map initial b R)
include h

theorem Holds.sub_lt_len32 (hbq : b ≤ q)
    (hq : q < b + 2 * map.len.toNat) :
    tsnAt initial q - map.baseTsn < map.len32 ↔ q < b + map.len.toNat := by
  rw [h.base, tsnAt_sub, lt_def, len32_eq, toNat_ofInt_of_lt (by omega) (by omega),
    toNat_ofInt_of_lt (by omega) (by omega)]
  omega

/-- The first array is searched, if the search starts in it. -/
theorem searchMap_scanned (hbq : b ≤ q)
    (hq : q < b + 2 * map.len.toNat) :
    Scanned R b q (max q (b + map.len.toNat))
      (searchMap map (tsnAt initial q) ⟨false, 0, false, 0⟩) := by
  have hlow := h.sub_lt_len32 hbq hq
  rw [searchMap]
  split_ifs with hlt
  · have hqb := hlow.mp hlt
    have hoff : ((tsnAt initial q - map.baseTsn).setWidth 16).toNat = q - b := by
      rw [h.base, tsnAt_sub, toNat_setWidth_ofInt (by omega) (by omega)]
      omega
    rw [max_eq_right hqb.le]
    refine findGapAck_scanned h.low le_rfl (Nat.sub_self b).symm (by omega) hbq (by omega) ?_ rfl
    exact .unstarted rfl rfl fun p hlo hhi => absurd hlo (by omega)
  · rw [max_eq_left (not_lt.mp (fun hq' => hlt (hlow.mpr hq')))]
    exact .unstarted rfl rfl fun p hlo hhi => absurd hlo (by omega)

/-- The overflow map is searched, unless a whole run was found. -/
theorem searchOverflow_scanned (hbq : b ≤ q)
    (hq : q < b + 2 * map.len.toNat) (hg : Scanned R b q (max q (b + map.len.toNat)) g) :
    Scanned R b q (b + 2 * map.len.toNat) (searchOverflow map (tsnAt initial q) g) := by
  have hlow := h.sub_lt_len32 hbq hq
  rw [searchOverflow]
  cases hended : g.ended with
  | true =>
    cases hg with
    | unstarted _ hne | running s _ hne => exact absurd hne (by rw [hended]; decide)
    | found s e hended hstart hstop hqs hse hnone hrun he =>
      exact .found s e hended hstart hstop hqs hse hnone hrun he
  | false =>
    have hbase : map.len.toNat = b + map.len.toNat - b := by omega
    have hend : b + 2 * map.len.toNat = b + map.len.toNat + map.len.toNat := by omega
    rw [hend]
    by_cases hlt : tsnAt initial q - map.baseTsn < map.len32
    · rw [max_eq_right (hlow.mp hlt).le] at hg
      simp only [if_pos hlt]
      exact findGapAck_scanned h.high (le_add_right _ _) hbase (zero_le _) hbq
        (hlow.mp hlt).le hg hended
    · have hge : b + map.len.toNat ≤ q := not_lt.mp fun hq' => hlt (hlow.mpr hq')
      have hoff : ((tsnAt initial q - map.baseTsn - map.len32).setWidth 16).toNat =
          q - b - map.len.toNat := by
        rw [h.base, tsnAt_sub, len32_eq, ← ofInt_sub, toNat_setWidth_ofInt (by omega) (by omega)]
        omega
      rw [max_eq_left hge] at hg
      simp only [if_neg hlt]
      refine findGapAck_scanned h.high (le_add_right _ _) hbase (by omega) hbq (by omega) ?_ hended
      rwa [hoff, show b + map.len.toNat + (q - b - map.len.toNat) = q by omega]

/-- **The search of both arrays** finds the next run, if there is one. -/
theorem closeGap_spec {r : ℕ} (hbq : b ≤ q) (hqr : q ≤ r) (hr : r ∈ R)
    (hg : Scanned R b q (b + 2 * map.len.toNat) g) :
    ∃ s e, q ≤ s ∧ s ≤ e ∧ (∀ p, q ≤ p → p < s → p ∉ R) ∧ (∀ p, s ≤ p → p ≤ e → p ∈ R) ∧
      e + 1 ∉ R ∧ (closeGap map g).ended = true ∧
      (closeGap map g).start = ofNat 16 (s - b) ∧
      (closeGap map g).stop = ofNat 16 (e - b) := by
  cases hg with
  | unstarted _ _ hnone => exact absurd hr (hnone r hqr (h.bound r hr))
  | running s hstarted hended hstart hqs hs hnone hrun =>
    have hclose : closeGap map g = { g with ended := true, stop := map.len + map.len - 1 } := by
      rw [closeGap, hstarted, hended]
      rfl
    rw [hclose]
    refine ⟨s, b + 2 * map.len.toNat - 1, hqs, by omega, hnone, fun p hlo hhi => ?_, ?_, rfl,
      hstart, ?_⟩
    · exact hrun p hlo (by omega)
    · intro hmem
      have := h.bound _ hmem
      omega
    · have hsum : map.len + map.len = ofNat 16 (map.len.toNat + map.len.toNat) := by
        rw [ofNat_add, ofNat_toNat, setWidth_eq]
      show map.len + map.len - 1 = _
      rw [hsum, ofNat_sub_one (by omega)]
      congr 1
      omega
  | found s e hended hstart hstop hqs hse hnone hrun he =>
    have hclose : closeGap map g = g := by
      rw [closeGap, hended, Bool.not_true, Bool.and_false]
      rfl
    rw [hclose]
    exact ⟨s, e, hqs, hse, hnone, hrun, he, hended, hstart, hstop⟩

end

/-! ## The iterator -/

theorem setWidth_ofInt (x : ℤ) : (ofInt 32 x).setWidth 16 = ofInt 16 x := by
  apply eq_of_toNat_eq
  rw [toNat_setWidth, toNat_ofInt, toNat_ofInt]
  omega

theorem setWidth_ofNat (h : n < 2 ^ 16) : (ofNat 16 n).setWidth 32 = ofInt 32 n := by
  apply eq_of_toNat_eq
  rw [toNat_setWidth, toNat_ofNat, toNat_ofInt_of_lt (by omega) (by omega)]
  omega

/-- The next `iter->start` is behind the block. -/
theorem nextGapAck_spec (h : Tracks map initial b k R) (hlen : map.len.toNat ≤ 32767) (hkq : k ≤ q)
    (hqR : q ∉ R) (hq : q ≤ b + 2 * map.len.toNat) :
    (sctpTsnmapNextGapAck map (tsnAt initial q) = none ∧ ∀ p, q ≤ p → p ∉ R) ∨
      ∃ s e, q < s ∧ s ≤ e ∧ (∀ p, q ≤ p → p < s → p ∉ R) ∧ (∀ p, s ≤ p → p ≤ e → p ∈ R) ∧
        e + 1 ∉ R ∧ sctpTsnmapNextGapAck map (tsnAt initial q) =
          some ((ofNat 16 (s + 1 - k), ofNat 16 (e + 1 - k)), tsnAt initial ((e + 1 : ℕ) : ℤ)) := by
  obtain ⟨M, hmax, hkM, hM, hM'⟩ := h.max
  have hbk := h.base_le
  have htop := h.max_le hM'
  have hlte : tsnLte map.maxTsnSeen (tsnAt initial q) = true ↔ (M : ℤ) - 1 ≤ q := by
    rw [hmax]
    exact tsnLte_tsnAt (by omega) (by omega)
  by_cases hend : (M : ℤ) - 1 ≤ q
  · -- no received position is behind `q`
    refine Or.inl ⟨?_, fun p hp hmem => ?_⟩
    · rw [sctpTsnmapNextGapAck, if_pos (hlte.mpr hend)]
    · have hlt := hM p hmem
      obtain rfl : p = q := by omega
      exact hqR hmem
  · have hr : M - 1 ∈ R := by
      rcases hM' with rfl | hmem
      · exact absurd hkq (by omega)
      · exact hmem
    obtain ⟨s, e, hqs, hse, hnone, hrun, he, hended, hstart, hstop⟩ :=
      closeGap_spec h.holds (hbk.trans hkq) (by omega : q ≤ M - 1) hr
        (searchOverflow_scanned h.holds (hbk.trans hkq) (by omega)
          (searchMap_scanned h.holds (hbk.trans hkq) (by omega)))
    have hsq : q ≠ s := fun heq => hqR (heq ▸ hrun s le_rfl hse)
    have heb := h.holds.bound e (hrun e hse le_rfl)
    -- both ends are given from the cumulative point, in 16 bits
    have hgap : (map.cumulativeTsnAckPoint - map.baseTsn).setWidth 16 =
        ofInt 16 ((k : ℤ) - 1 - b) := by
      rw [h.cumulative, h.holds.base, tsnAt_sub, setWidth_ofInt]
    have hoffset : ∀ x : ℕ, k ≤ x → ofNat 16 (x - b) - ofInt 16 ((k : ℤ) - 1 - b) =
        ofNat 16 (x + 1 - k) := by
      intro x hx
      rw [← ofInt_natCast, ← ofInt_sub, ← ofInt_natCast]
      congr 1
      omega
    refine Or.inr ⟨s, e, by omega, hse, hnone, hrun, he, ?_⟩
    rw [sctpTsnmapNextGapAck, if_neg (fun hle => hend (hlte.mp hle))]
    simp only [hended, if_true, hstart, hstop, hgap]
    rw [hoffset s (by omega), hoffset e (by omega), setWidth_ofNat (by omega), h.cumulative,
      tsnAt_add, tsnAt_add_one]
    congr 3
    omega

theorem gapAcks_none (h : sctpTsnmapNextGapAck map start = none) (turns : ℕ) :
    gapAcks map turns start = some [] := by
  cases turns <;> rw [gapAcks, h]

/-- The blocks as they are reported: offsets from the cumulative point, which is at `k - 1`. -/
def report (k : ℕ) (run : ℕ × ℕ) : BitVec 16 × BitVec 16 :=
  (BitVec.ofNat 16 (run.1 + 1 - k), BitVec.ofNat 16 (run.2 + 1 - k))

/-- **The iterator** gives the maximal runs from `q` on. -/
theorem gapAcks_spec (h : Tracks map initial b k R) (hlen : map.len.toNat ≤ 32767) (hkq : k ≤ q)
    (hqR : q ∉ R) (hq : q ≤ b + 2 * map.len.toNat) :
    ∃ runs, IsRuns R q runs ∧ (∀ run ∈ runs, run.2 < b + 2 * map.len.toNat) ∧
      ∀ turns, b + 2 * map.len.toNat - q ≤ turns →
        gapAcks map turns (tsnAt initial q) = some (runs.map (report k)) := by
  induction hd : b + 2 * map.len.toNat - q using Nat.strong_induction_on generalizing q with
  | _ d ih =>
    rcases nextGapAck_spec h hlen hkq hqR hq with
      ⟨hnext, hclear⟩ | ⟨s, e, hqs, hse, hnone, hrun, he, hnext⟩
    · exact ⟨[], hclear, fun run hrun => absurd hrun List.not_mem_nil,
        fun turns _ => gapAcks_none hnext turns⟩
    · have heb := h.holds.bound e (hrun e hse le_rfl)
      obtain ⟨runs, hruns, hends, hrest⟩ :=
        ih (b + 2 * map.len.toNat - (e + 1)) (by omega) (by omega : k ≤ e + 1) he (by omega) rfl
      refine ⟨(s, e) :: runs, ⟨hqs.le, hse, hnone, hrun, he, hruns⟩, ?_, fun turns hturns => ?_⟩
      · exact List.forall_mem_cons.mpr ⟨heb, hends⟩
      · obtain ⟨n, rfl⟩ : ∃ n, turns = n + 1 := ⟨turns - 1, by omega⟩
        rw [gapAcks, hnext]
        dsimp only
        rw [hrest n (by omega)]
        rfl

end Gp2xKernel.Sctp
