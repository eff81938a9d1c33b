import Gp2xKernel.Library.Turns
import Gp2xKernel.Sctp.Tsnmap

/-!
# The map holds the set of received numbers

The sequence numbers are counted from the initial one without wrapping: `p` stands for the number
`initial + p` modulo `2 ^ 32`.  The arrays of the map say which of the `2 * len` numbers from the
base on were received, and all numbers before the base were.

## Main definitions

* `tsnAt`: the sequence number of a position
* `Holds`: the arrays agree with the set of received positions
* `Tracks`: so do the cumulative point and the highest number

## Main results

* `Holds.check`: what `sctp_tsnmap_check` returns
* `updateLoop_spec`: the loop finds the first position that was not received
* `Tracks.mark`, `Tracks.skip`: the operations add to the set
-/

namespace Gp2xKernel.Sctp

open Library List Nat Or
open BitVec (ofInt ofInt_add)

variable {map : TsnMap} {initial tsn : BitVec 32} {b k : ℕ} {R : Set ℕ}

/-! ## Positions -/

/-- The sequence number of a position. -/
def tsnAt (initial : BitVec 32) (p : ℤ) : BitVec 32 := initial + BitVec.ofInt 32 p

section

variable (initial : BitVec 32) (p q : ℤ)

theorem tsnAt_zero : tsnAt initial 0 = initial := BitVec.add_zero initial

theorem tsnAt_add : tsnAt initial p + ofInt 32 q = tsnAt initial (p + q) := by
  rw [tsnAt, tsnAt, ofInt_add, BitVec.add_assoc]

theorem ofInt_sub {w : ℕ} (x y : ℤ) : ofInt w (x - y) = ofInt w x - ofInt w y := by
  rw [sub_eq_add_neg x y, ofInt_add, BitVec.ofInt_neg, ← sub_eq_add_neg]

theorem tsnAt_sub : tsnAt initial p - tsnAt initial q = ofInt 32 (p - q) := by
  rw [tsnAt, tsnAt, ofInt_sub, add_sub_add_left_eq_sub]

theorem tsnAt_add_one (p : ℤ) :
    tsnAt initial p + 1 = tsnAt initial (p + 1) := tsnAt_add initial p 1

theorem tsnAt_sub_one (p : ℤ) : tsnAt initial p - 1 = tsnAt initial (p - 1) := by
  rw [BitVec.sub_eq_iff_eq_add, tsnAt_add_one, sub_add_cancel]

end

variable {x q : ℤ} {xs : List (BitVec 8)} {n j p : ℕ} {ctsn : BitVec 32} {v : BitVec 8}

theorem toInt_ofInt_of_lt (hlo : -2 ^ 31 ≤ x) (hhi : x < 2 ^ 31) : (ofInt 32 x).toInt = x := by
  rw [BitVec.toInt_ofInt]
  exact Int.bmod_eq_of_le (by omega) (by omega)

theorem toNat_ofInt_of_lt (hlo : 0 ≤ x) (hhi : x < 2 ^ 32) : (ofInt 32 x).toNat = x.toNat := by
  rw [BitVec.toNat_ofInt]
  omega

/-- The position of a sequence number, as seen from the base at position `b`. -/
def position (map : TsnMap) (b : ℕ) (tsn : BitVec 32) : ℤ := b + (tsn - map.baseTsn).toInt

theorem tsnAt_inj {p : ℤ} (h : tsnAt initial p = tsnAt initial q) (hlo : -2 ^ 31 ≤ p - q)
    (hhi : p - q < 2 ^ 31) : p = q := by
  have hsub := tsnAt_sub initial p q
  rw [h, BitVec.sub_self] at hsub
  have hint := congrArg BitVec.toInt hsub
  rw [toInt_ofInt_of_lt hlo hhi, BitVec.toInt_zero] at hint
  omega

theorem tsnLt_tsnAt {p : ℤ} (hlo : -2 ^ 31 ≤ p - q) (hhi : p - q < 2 ^ 31) :
    tsnLt (tsnAt initial p) (tsnAt initial q) = decide (p < q) := by
  rw [tsnLt, tsnAt_sub, BitVec.msb_eq_toInt, toInt_ofInt_of_lt hlo hhi]
  exact decide_eq_decide.mpr (by omega)

theorem tsnLte_tsnAt {p : ℤ} (hlo : -2 ^ 31 ≤ p - q) (hhi : p - q < 2 ^ 31) :
    tsnLte (tsnAt initial p) (tsnAt initial q) = true ↔ p ≤ q := by
  have hlt : tsnLt (tsnAt initial p) (tsnAt initial q) = decide (p < q) := tsnLt_tsnAt hlo hhi
  rw [tsnLte, Bool.or_eq_true, beq_iff_eq]
  rw [tsnLt] at hlt
  rw [hlt, decide_eq_true_eq]
  constructor
  · rintro (h | h)
    · exact (tsnAt_inj h hlo hhi).le
    · exact h.le
  · intro h
    rcases h.lt_or_eq with h | rfl
    · exact inr h
    · exact inl rfl

/-! ## The arrays -/

/-- The arrays of a map whose base is at position `b` say which positions were received. -/
structure Holds (map : TsnMap) (initial : BitVec 32) (b : ℕ) (R : Set ℕ) : Prop where
  base : map.baseTsn = tsnAt initial b
  overflow : map.overflowTsn = tsnAt initial (b + map.len.toNat)
  length : map.tsnMap.length = map.len.toNat
  overflowLength : map.overflowMap.length = map.len.toNat
  low : ∀ i < map.len.toNat, map.tsnMap.getD i 0 ≠ 0 ↔ b + i ∈ R
  high : ∀ i < map.len.toNat, map.overflowMap.getD i 0 ≠ 0 ↔ b + map.len.toNat + i ∈ R
  before : ∀ p < b, p ∈ R
  bound : ∀ p ∈ R, p < b + 2 * map.len.toNat

theorem len32_eq (map : TsnMap) : map.len32 = ofInt 32 map.len.toNat := by
  apply BitVec.eq_of_toNat_eq
  rw [TsnMap.len32, BitVec.toNat_setWidth, toNat_ofInt_of_lt (by omega) (by omega)]
  omega

namespace Holds

/-- Each sequence number is that of its position. -/
theorem tsn_eq (h : Holds map initial b R) (tsn : BitVec 32) :
    tsn = tsnAt initial (position map b tsn) := by
  rw [position, ← tsnAt_add, ← h.base, BitVec.ofInt_toInt, BitVec.add_comm, BitVec.sub_add_cancel]

theorem position_range (map : TsnMap) (b : ℕ) (tsn : BitVec 32) :
    -2 ^ 31 ≤ position map b tsn - b ∧ position map b tsn - b < 2 ^ 31 := by
  have hlo := BitVec.le_toInt (tsn - map.baseTsn)
  have hhi := BitVec.toInt_lt (x := tsn - map.baseTsn)
  rw [position]
  constructor <;> omega

/-- **`sctp_tsnmap_check`** looks up the position. -/
theorem check (h : Holds map initial b R) (tsn : BitVec 32) :
    (sctpTsnmapCheck map tsn > 0 ↔
      position map b tsn < b ∨ ∃ p ∈ R, (p : ℤ) = position map b tsn) ∧
    (sctpTsnmapCheck map tsn = 0 ↔ (b : ℤ) ≤ position map b tsn ∧
      position map b tsn < b + 2 * map.len.toNat ∧ ¬∃ p ∈ R, (p : ℤ) = position map b tsn) ∧
    (sctpTsnmapCheck map tsn < 0 ↔ b + 2 * map.len.toNat ≤ position map b tsn) := by
  have hgap : (tsn - map.baseTsn).toInt = position map b tsn - b := by
    rw [position]
    omega
  rw [sctpTsnmapCheck, hgap]
  generalize position map b tsn = pos
  -- the byte for a position in the map
  have hseen : pos - b < 2 * map.len.toNat → ((pos - b < 0 ∨
      (pos - b < map.len.toNat ∧ map.tsnMap.getD (pos - b).toNat 0 ≠ 0) ∨
      (pos - b ≥ map.len.toNat ∧ map.overflowMap.getD (pos - b - map.len.toNat).toNat 0 ≠ 0)) ↔
      pos < b ∨ ∃ p ∈ R, (p : ℤ) = pos) := by
    intro hhi
    constructor
    · rintro (hneg | ⟨hlt, hbyte⟩ | ⟨hge, hbyte⟩)
      · exact inl (by omega)
      · rcases lt_or_ge pos b with hneg | hnonneg
        · exact inl hneg
        · exact inr ⟨_, (h.low _ (by omega)).mp hbyte, by omega⟩
      · exact inr ⟨_, (h.high _ (by omega)).mp hbyte, by omega⟩
    · rintro (hneg | ⟨p, hp, rfl⟩)
      · exact inl (by omega)
      · rcases lt_or_ge p b with hneg | hnonneg
        · exact inl (by omega)
        · rcases lt_or_ge p (b + map.len.toNat) with hlow | hhigh
          · refine inr (inl ⟨by omega, (h.low _ (by omega)).mpr ?_⟩)
            rwa [show b + ((p : ℤ) - b).toNat = p by omega]
          · refine inr (inr ⟨by omega, (h.high _ (by omega)).mpr ?_⟩)
            rwa [show b + map.len.toNat + ((p : ℤ) - b - map.len.toNat).toNat = p by omega]
  split_ifs with hfar hdup
  · have hnot : ¬∃ p ∈ R, (p : ℤ) = pos := by
      rintro ⟨p, hp, rfl⟩
      have := h.bound p hp
      omega
    refine ⟨?_, ?_, ?_⟩
    · exact iff_of_false (by decide) (fun hor => hor.elim (by omega) hnot)
    · exact iff_of_false (by decide) (fun hand => by omega)
    · exact iff_of_true (by decide) (by omega)
  · have hor := (hseen (by omega)).mp hdup
    refine ⟨iff_of_true (by decide) hor, iff_of_false (by decide) ?_, iff_of_false (by decide) ?_⟩
    · rintro ⟨hlo, -, hnot⟩
      exact hor.elim (by omega) hnot
    · omega
  · have hnot := mt (hseen (by omega)).mpr hdup
    refine ⟨iff_of_false (by decide) hnot, iff_of_true rfl ⟨?_, ?_, fun h => hnot (inr h)⟩,
      iff_of_false (by decide) ?_⟩
    · omega
    · omega
    · omega

end Holds

/-! ## The cumulative point -/

theorem getD_memset (xs : List (BitVec 8)) (v : BitVec 8) (n i : ℕ) :
    (memset xs v n).getD i 0 = if i < n then v else xs.getD i 0 := by
  rw [memset, getD_eq_getElem?_getD, getElem?_append, length_replicate]
  split_ifs with h
  · rw [getElem?_replicate, if_pos h]
    rfl
  · rw [getElem?_drop, Nat.add_sub_cancel' (not_lt.mp h), getD_eq_getElem?_getD]

theorem length_memset (v : BitVec 8) (h : n ≤ xs.length) : (memset xs v n).length = xs.length := by
  rw [memset, length_append, length_replicate, length_drop, Nat.add_sub_cancel' h]

theorem updateLoop_stop (turns : ℕ)
    (hv : (map.reach ctsn).tsnMap[(ctsn - (map.reach ctsn).baseTsn).toNat]? = some 0) :
    updateLoop turns map ctsn = some { map.reach ctsn with cumulativeTsnAckPoint := ctsn - 1 } := by
  cases turns <;> rw [updateLoop, hv, Option.bind_eq_bind, Option.bind_some] <;>
    exact if_neg (not_not.mpr rfl)

theorem updateLoop_next (turns : ℕ) (hne : v ≠ 0)
    (hv : (map.reach ctsn).tsnMap[(ctsn - (map.reach ctsn).baseTsn).toNat]? = some v) :
    updateLoop (turns + 1) map ctsn = updateLoop turns (map.reach ctsn) (ctsn + 1) := by
  rw [updateLoop, hv]
  exact if_pos hne

theorem reach_len (map : TsnMap) (ctsn : BitVec 32) : (map.reach ctsn).len = map.len := by
  rw [TsnMap.reach]
  split_ifs <;> rfl

theorem reach_maxTsnSeen (map : TsnMap) (ctsn : BitVec 32) :
    (map.reach ctsn).maxTsnSeen = map.maxTsnSeen := by
  rw [TsnMap.reach]
  split_ifs <;> rfl

theorem exists_first_missing (h : ∀ p ∈ R, p < n) : ∃ k, (∀ p < k, p ∈ R) ∧ k ∉ R := by
  classical
  have hex : ∃ k, k ∉ R := ⟨n, fun hn => absurd (h n hn) (lt_irrefl n)⟩
  exact ⟨Nat.find hex, fun p hp => not_not.mp (Nat.find_min hex hp), Nat.find_spec hex⟩

theorem getD_replicate_zero (n i : ℕ) : (replicate n (0 : BitVec 8)).getD i 0 = 0 := by
  rw [getD_eq_getElem?_getD, getElem?_replicate]
  split_ifs <;> rfl

section

variable (h : Holds map initial b R)
include h

/-- When all positions of the first array were received, the arrays are exchanged. -/
theorem Holds.swap (hall : ∀ p < b + map.len.toNat, p ∈ R) :
    Holds map.swap initial (b + map.len.toNat) R where
  base := by
    show map.baseTsn + map.len32 = _
    rw [h.base, len32_eq, tsnAt_add]
    rfl
  overflow := by
    show map.overflowTsn + map.len32 = _
    rw [h.overflow, len32_eq, tsnAt_add]
    rfl
  length := h.overflowLength
  overflowLength := by
    show (memset map.tsnMap 0 map.len.toNat).length = _
    rw [length_memset 0 h.length.ge, h.length]
    rfl
  low := h.high
  high := by
    intro i hi
    have hout : b + map.len.toNat + map.len.toNat + i ∉ R := by
      intro hmem
      have := h.bound _ hmem
      omega
    have hbyte : (memset map.tsnMap 0 map.len.toNat).getD i 0 = 0 := by
      rw [getD_memset]
      exact if_pos hi
    exact iff_of_false (not_not.mpr hbyte) hout
  before := hall
  bound := by
    intro p hp
    show p < b + map.len.toNat + 2 * map.len.toNat
    have := h.bound p hp
    omega

/-- Reading the first array. -/
theorem Holds.getElem_low (hj : b ≤ j) (hj' : j < b + map.len.toNat) :
    ∃ v, map.tsnMap[(tsnAt initial j - map.baseTsn).toNat]? = some v ∧ (v ≠ 0 ↔ j ∈ R) := by
  have hidx : (tsnAt initial j - map.baseTsn).toNat = j - b := by
    rw [h.base, tsnAt_sub, toNat_ofInt_of_lt (by omega) (by omega)]
    omega
  have hi : j - b < map.tsnMap.length := by
    rw [h.length]
    omega
  refine ⟨map.tsnMap[j - b], ?_, ?_⟩
  · rw [hidx, getElem?_eq_getElem hi]
  · have hlow := h.low (j - b) (by omega)
    rwa [Nat.add_sub_cancel' hj, getD_eq_getElem?_getD,
      getElem?_eq_getElem hi, Option.getD_some] at hlow

/-- When the loop reaches a position, it is in the first array. -/
theorem Holds.reach (hlen : 0 < map.len.toNat) (hj : ∀ p < j, p ∈ R)
    (hbj : b ≤ j) (hjb : j ≤ b + map.len.toNat) :
    ∃ b', Holds (map.reach (tsnAt initial j)) initial b' R ∧ b ≤ b' ∧ b' ≤ j ∧
      j < b' + map.len.toNat := by
  rcases hjb.lt_or_eq with hjb | rfl
  · have hne : tsnAt initial j ≠ map.overflowTsn := by
      rw [h.overflow]
      intro heq
      have := tsnAt_inj heq (by omega) (by omega)
      omega
    rw [TsnMap.reach, if_neg hne]
    exact ⟨b, h, le_rfl, hbj, hjb⟩
  · have heq : tsnAt initial ((b + map.len.toNat : ℕ) : ℤ) = map.overflowTsn := by
      rw [h.overflow, cast_add]
    rw [TsnMap.reach, if_pos heq]
    exact ⟨_, h.swap hj, Nat.le_add_right _ _, le_rfl, Nat.lt_add_of_pos_right hlen⟩

/-- **The loop** ends at the first position that was not received.  On the way, the base moves with
the arrays. -/
theorem updateLoop_spec (hlen : 0 < map.len.toNat) (hk : ∀ p < k, p ∈ R)
    (hk' : k ∉ R) (hbj : b ≤ j) (hjb : j ≤ b + map.len.toNat) (hjk : j ≤ k) :
    ∃ m b', (∀ turns, k - j ≤ turns → updateLoop turns map (tsnAt initial j) =
        some { m with cumulativeTsnAckPoint := tsnAt initial (k - 1) }) ∧
      Holds m initial b' R ∧ m.len = map.len ∧ m.maxTsnSeen = map.maxTsnSeen ∧
      b ≤ b' ∧ b' ≤ k ∧ k < b' + map.len.toNat := by
  induction hd : k - j generalizing map b j with
  | zero =>
    obtain rfl : j = k := by omega
    obtain ⟨b', hreach, hb, hb', hj⟩ := h.reach hlen hk hbj hjb
    obtain ⟨v, hv, hv'⟩ := hreach.getElem_low hb' (by rwa [reach_len])
    obtain rfl : v = 0 := by
      by_contra hne
      exact hk' (hv'.mp hne)
    refine ⟨map.reach (tsnAt initial j), b', fun turns _ => ?_, hreach, reach_len _ _,
      reach_maxTsnSeen _ _, hb, hb', hj⟩
    rw [updateLoop_stop turns hv, tsnAt_sub_one]
  | succ d ih =>
    have hmem : j ∈ R := hk j (by omega)
    obtain ⟨b', hreach, hb, hb', hj⟩ := h.reach hlen (fun p hp => hk p (by omega)) hbj hjb
    obtain ⟨v, hv, hv'⟩ := hreach.getElem_low hb' (by rwa [reach_len])
    have hlen' : 0 < (map.reach (tsnAt initial j)).len.toNat := by rwa [reach_len]
    have hnext : tsnAt initial j + 1 = tsnAt initial ((j + 1 : ℕ) : ℤ) := by
      rw [tsnAt_add_one, cast_add, cast_one]
    obtain ⟨m, b'', hrun, hholds, hm, hmax, hlo, hhi, hroom⟩ :=
      ih hreach hlen' (by omega : b' ≤ j + 1) (by rw [reach_len]; omega) (by omega) (by omega)
    refine ⟨m, b'', fun turns hturns => ?_, hholds, ?_, ?_, hb.trans hlo, hhi, ?_⟩
    · obtain ⟨n, rfl⟩ : ∃ n, turns = n + 1 := ⟨turns - 1, by omega⟩
      rw [updateLoop_next n (hv'.mpr hmem) hv, hnext]
      exact hrun n (by omega)
    · rw [hm, reach_len]
    · rw [hmax, reach_maxTsnSeen]
    · rwa [reach_len] at hroom

/-! ## The operations -/

/-- The map is that of the set `R` of received positions, whose first gap is at `k`. -/
structure Tracks (map : TsnMap) (initial : BitVec 32) (b k : ℕ) (R : Set ℕ) : Prop where
  holds : Holds map initial b R
  below : ∀ p < k, p ∈ R
  missing : k ∉ R
  cumulative : map.cumulativeTsnAckPoint = tsnAt initial (k - 1)
  base_le : b ≤ k
  room : 0 < map.len.toNat → k < b + map.len.toNat
  max : ∃ M : ℕ, map.maxTsnSeen = tsnAt initial (M - 1) ∧ k ≤ M ∧ (∀ p ∈ R, p < M) ∧
    (M = k ∨ M - 1 ∈ R)

omit h in
theorem Tracks.init (len : BitVec 16) (initial : BitVec 32) :
    Tracks (sctpTsnmapInit len initial) initial 0 0 ∅ where
  holds :=
    { base := by
        rw [cast_zero, tsnAt_zero]
        rfl
      overflow := by
        have hlen := len32_eq (sctpTsnmapInit len initial)
        rw [tsnAt, cast_zero, zero_add, ← hlen]
        rfl
      length := length_replicate
      overflowLength := length_replicate
      low := fun i _ => iff_of_false (not_not.mpr (getD_replicate_zero _ i)) (Set.notMem_empty _)
      high := fun i _ => iff_of_false (not_not.mpr (getD_replicate_zero _ i)) (Set.notMem_empty _)
      before := fun p hp => absurd hp (not_lt_zero p)
      bound := fun p hp => absurd hp (Set.notMem_empty p) }
  below := fun p hp => absurd hp (not_lt_zero p)
  missing := Set.notMem_empty 0
  cumulative := by
    rw [← tsnAt_sub_one, cast_zero, tsnAt_zero]
    rfl
  base_le := le_rfl
  room := fun h => by rwa [zero_add]
  max := by
    refine ⟨0, ?_, le_rfl, fun p hp => absurd hp (Set.notMem_empty p), inl rfl⟩
    rw [← tsnAt_sub_one, cast_zero, tsnAt_zero]
    rfl

/-- The tests at the start of `sctp_tsnmap_mark` and `sctp_tsnmap_skip`. -/
theorem Holds.tsnLt_base (tsn : BitVec 32) :
    tsnLt tsn map.baseTsn = decide (position map b tsn < b) := by
  obtain ⟨hlo, hhi⟩ := Holds.position_range map b tsn
  conv_lhs => rw [h.tsn_eq tsn, h.base]
  exact tsnLt_tsnAt hlo hhi

theorem Holds.tsnLt_end {tsn : BitVec 32}
    (hb : (b : ℤ) ≤ position map b tsn) :
    tsnLt tsn (map.baseTsn + map.len32 + map.len32) =
      decide (position map b tsn < b + 2 * map.len.toNat) := by
  obtain ⟨-, hhi⟩ := Holds.position_range map b tsn
  have hend : map.baseTsn + map.len32 + map.len32 = tsnAt initial (b + 2 * map.len.toNat) := by
    rw [h.base, len32_eq, tsnAt_add, tsnAt_add]
    congr 1
    omega
  rw [hend]
  conv_lhs => rw [h.tsn_eq tsn]
  exact tsnLt_tsnAt (by omega) (by omega)

omit h in
/-- After the arrays got further positions, the cumulative point is moved.  Only positions in the
map were added, and the highest of all is known. -/
theorem Tracks.update {m : TsnMap} {R' : Set ℕ} (h : Tracks map initial b k R)
    (hholds : Holds m initial b R') (hlen : m.len = map.len) (hpos : 0 < map.len.toNat)
    (hcum : m.cumulativeTsnAckPoint = map.cumulativeTsnAckPoint) (hsub : R ⊆ R') {M : ℕ}
    (hmax : m.maxTsnSeen = tsnAt initial (M - 1)) (hM : ∀ p ∈ R', p < M) (hM' : M - 1 ∈ R') :
    ∃ m' b' k', Returns (fun turns => sctpTsnmapUpdate turns m) m' ∧ m'.len = map.len ∧
      Tracks m' initial b' k' R' ∧ b ≤ b' ∧ b' ≤ b + 2 * map.len.toNat := by
  obtain ⟨k', hk, hk'⟩ := exists_first_missing hholds.bound
  have hkk : k ≤ k' := by
    by_contra hlt
    exact hk' (hsub (h.below k' (not_le.mp hlt)))
  have hroom := h.room hpos
  have hbase := h.base_le
  have hstart : m.cumulativeTsnAckPoint + 1 = tsnAt initial k := by
    rw [hcum, h.cumulative, tsnAt_add_one, sub_add_cancel]
  obtain ⟨m', b', hrun, hholds', hlen', hmax', hb, hb', hk''⟩ := updateLoop_spec hholds
    (by rwa [hlen]) hk hk' hbase (by rw [hlen]; omega) hkk
  refine ⟨{ m' with cumulativeTsnAckPoint := tsnAt initial (k' - 1) }, b', k', ⟨k' - k, ?_⟩, ?_, ?_,
    hb, ?_⟩
  · intro turns hturns
    show updateLoop turns m (m.cumulativeTsnAckPoint + 1) = _
    rw [hstart]
    exact hrun turns hturns
  · exact hlen'.trans hlen
  · refine ⟨⟨hholds'.base, hholds'.overflow, hholds'.length, hholds'.overflowLength, hholds'.low,
      hholds'.high, hholds'.before, hholds'.bound⟩, hk, hk', rfl, hb', fun _ => ?_, M, ?_, ?_, hM,
      inr hM'⟩
    · show k' < b' + m'.len.toNat
      rwa [hlen']
    · exact hmax'.trans hmax
    · by_contra hlt
      exact absurd (hM _ (hk M (not_le.mp hlt))) (lt_irrefl M)
  · -- all positions below the new base were received, and are in the map of the old one
    by_contra hlt
    have hbound := hholds.bound (b + 2 * map.len.toNat) (hk _ (by omega))
    rw [hlen] at hbound
    exact lt_irrefl _ hbound

/-- The map can hold the number. -/
theorem Holds.tsnLt_of_mem (tsn : BitVec 32)
    (hb : (b : ℤ) ≤ position map b tsn) (hend : position map b tsn < b + 2 * map.len.toNat) :
    tsnLt tsn map.baseTsn = false ∧ tsnLt tsn (map.baseTsn + map.len32 + map.len32) = true := by
  rw [h.tsnLt_base, h.tsnLt_end hb]
  exact ⟨decide_eq_false (not_lt.mpr hb), decide_eq_true hend⟩

end

theorem exists_position (hb : (b : ℤ) ≤ position map b tsn) :
    ∃ p : ℕ, (p : ℤ) = position map b tsn :=
  ⟨(position map b tsn).toNat, by omega⟩

theorem Tracks.max_le (h : Tracks map initial b k R) {M : ℕ} (hM : M = k ∨ M - 1 ∈ R) :
    M ≤ b + 2 * map.len.toNat ∨ M = k := by
  rcases hM with rfl | hmem
  · exact inr rfl
  · have := h.holds.bound _ hmem
    omega

/-- The highest sequence number, after one in the map was received. -/
theorem Tracks.bumpMax (h : Tracks map initial b k R) (tsn : BitVec 32)
    (hb : (b : ℤ) ≤ position map b tsn) (hend : position map b tsn < b + 2 * map.len.toNat) :
    ∃ M : ℕ, (map.bumpMax tsn).maxTsnSeen = tsnAt initial (M - 1) ∧ (∀ p ∈ R, p < M) ∧
      position map b tsn < M ∧ (M - 1 ∈ R ∨ ((M : ℤ) - 1 = position map b tsn)) := by
  obtain ⟨M, hmax, hkM, hM, hM'⟩ := h.max
  have hkb := h.base_le
  have htop := h.max_le hM'
  have hkroom : k ≤ b + 2 * map.len.toNat := by
    have := h.room (by omega)
    omega
  have hlt : tsnLt map.maxTsnSeen tsn = decide ((M : ℤ) - 1 < position map b tsn) := by
    rw [hmax]
    conv_lhs => rw [h.holds.tsn_eq tsn]
    exact tsnLt_tsnAt (by omega) (by omega)
  obtain ⟨p, hp⟩ := exists_position hb
  by_cases hnew : (M : ℤ) - 1 < position map b tsn
  · refine ⟨p + 1, ?_, fun q hq => ?_, by omega, inr (by omega)⟩
    · rw [TsnMap.bumpMax, hlt, decide_eq_true hnew, cast_add, cast_one,
        add_sub_cancel_right, hp]
      exact h.holds.tsn_eq tsn
    · have := hM q hq
      omega
  · refine ⟨M, ?_, hM, by omega, ?_⟩
    · rw [TsnMap.bumpMax, hlt, decide_eq_false hnew]
      exact hmax
    · rcases hM' with rfl | hmem
      · -- a position below the first gap
        left
        exact h.below (M - 1) (by omega)
      · exact inl hmem

theorem Holds.bumpMax (h : Holds map initial b R) (tsn : BitVec 32) :
    Holds (map.bumpMax tsn) initial b R := by
  rw [TsnMap.bumpMax]
  split_ifs
  · exact ⟨h.base, h.overflow, h.length, h.overflowLength, h.low, h.high, h.before, h.bound⟩
  · exact h

theorem bumpMax_same (map : TsnMap) (tsn : BitVec 32) :
    (map.bumpMax tsn).len = map.len ∧ (map.bumpMax tsn).baseTsn = map.baseTsn ∧
      (map.bumpMax tsn).cumulativeTsnAckPoint = map.cumulativeTsnAckPoint := by
  rw [TsnMap.bumpMax]
  split_ifs <;> exact ⟨rfl, rfl, rfl⟩

theorem getD_modify {i : ℕ} (hj : j < xs.length) :
    (xs.modify i (· + 1)).getD j 0 = if i = j then xs.getD j 0 + 1 else xs.getD j 0 := by
  rw [getD_eq_getElem?_getD, getElem?_modify, getD_eq_getElem?_getD, getElem?_eq_getElem hj]
  split_ifs <;> rfl

/-- An array in which a byte is counted up. -/
theorem covers_modify {c i : ℕ} (hlen : xs.length = n) (h : ∀ j < n, xs.getD j 0 ≠ 0 ↔ c + j ∈ R)
    (hp : c + i ∉ R) :
    ∀ j < n, (xs.modify i (· + 1)).getD j 0 ≠ 0 ↔ c + j ∈ insert (c + i) R := by
  intro j hj
  rw [getD_modify (hlen ▸ hj), Set.mem_insert_iff]
  split_ifs with hij
  · subst hij
    have hzero : xs.getD i 0 = 0 := not_not.mp fun hne => hp ((h i hj).mp hne)
    rw [hzero]
    exact iff_of_true (by decide) (inl rfl)
  · rw [h j hj, or_iff_right (by omega)]

/-- An array whose first bytes are set. -/
theorem covers_memset {c i : ℕ} (h : ∀ j < n, xs.getD j 0 ≠ 0 ↔ c + j ∈ R)
    (hi : ∀ j < n, j < i ↔ c + j ≤ p) :
    ∀ j < n, (memset xs 1 i).getD j 0 ≠ 0 ↔ c + j ∈ R ∪ {q | q ≤ p} := by
  intro j hj
  show _ ↔ c + j ∈ R ∨ c + j ≤ p
  rw [getD_memset, h j hj |>.symm, ← hi j hj]
  split_ifs with hji
  · exact iff_of_true (by decide) (inr hji)
  · exact (or_iff_left hji).symm

/-- One position is marked. -/
theorem Holds.mark (h : Holds map initial b R) (hb : b ≤ p) (hend : p < b + 2 * map.len.toNat)
    (hp : p ∉ R) :
    Holds (if ((p : ℤ) - b) < map.len.toNat then
        { map with tsnMap := map.tsnMap.modify ((p : ℤ) - b).toNat (· + 1) }
      else { map with
        overflowMap := map.overflowMap.modify ((p : ℤ) - b - map.len.toNat).toNat (· + 1) })
      initial b (insert p R) := by
  have hbefore : ∀ q < b, q ∈ insert p R := fun q hq => inr (h.before q hq)
  have hbound : ∀ q ∈ insert p R, q < b + 2 * map.len.toNat := by
    rintro q (rfl | hq)
    · exact hend
    · exact h.bound q hq
  split_ifs with hlow
  · obtain ⟨i, rfl⟩ := Nat.exists_eq_add_of_le hb
    rw [show ((b + i : ℕ) : ℤ) - b = i by omega] at hlow ⊢
    refine ⟨h.base, h.overflow, (length_modify _ _ _).trans h.length, h.overflowLength,
      covers_modify h.length h.low hp, fun j hj => ?_, hbefore, hbound⟩
    refine (h.high j hj).trans (or_iff_right ?_).symm
    show ¬b + map.len.toNat + j = b + i
    omega
  · obtain ⟨i, rfl⟩ := Nat.exists_eq_add_of_le (by omega : b + map.len.toNat ≤ p)
    rw [show ((b + map.len.toNat + i : ℕ) : ℤ) - b - map.len.toNat = i by omega]
    refine ⟨h.base, h.overflow, h.length, (length_modify _ _ _).trans h.overflowLength,
      fun j hj => ?_, covers_modify h.overflowLength h.high hp, hbefore, hbound⟩
    have hj' : j < map.len.toNat := hj
    exact (h.low j hj).trans (or_iff_right (by omega)).symm

/-- **`sctp_tsnmap_mark`** of a number that the map can hold and that was not received. -/
theorem Tracks.mark (h : Tracks map initial b k R) (hp : (p : ℤ) = position map b tsn) (hb : b ≤ p)
    (hend : p < b + 2 * map.len.toNat) (hpR : p ∉ R) :
    ∃ m' b' k', Returns (fun turns => sctpTsnmapMark turns map tsn) m' ∧ m'.len = map.len ∧
      Tracks m' initial b' k' (insert p R) ∧ b ≤ b' ∧ b' ≤ b + 2 * map.len.toNat := by
  obtain ⟨M, hmax, hM, hpM, hM'⟩ := h.bumpMax tsn (by omega) (by omega)
  obtain ⟨hlen, hbase, hcum⟩ := bumpMax_same map tsn
  have hholds := (h.holds.bumpMax tsn).mark hb (by rwa [hlen]) hpR
  have hgap : (tsn - (map.bumpMax tsn).baseTsn).toInt = (p : ℤ) - b := by
    rw [hbase, hp, position]
    omega
  obtain ⟨hlt, hlt'⟩ := h.holds.tsnLt_of_mem tsn (by omega) (by omega)
  simp only [sctpTsnmapMark, hlt, hlt', hgap, Bool.false_eq_true, Bool.true_eq_false, if_false]
  exact h.update hholds (by split_ifs <;> exact hlen) (by omega) (by split_ifs <;> exact hcum)
    (Set.subset_insert p R) (by split_ifs <;> exact hmax)
    (by rintro q (rfl | hq); exacts [by omega, hM q hq])
    (hM'.elim inr fun hMp => inl (by omega))

/-- The positions up to `p` are marked. -/
theorem Holds.skip (h : Holds map initial b R) (hb : b ≤ p) (hend : p < b + 2 * map.len.toNat) :
    Holds (if ((p : ℤ) - b + 1) ≤ map.len.toNat then
        { map with tsnMap := memset map.tsnMap 1 ((p : ℤ) - b + 1).toNat }
      else
        { map with
          tsnMap := memset map.tsnMap 1 map.len.toNat
          overflowMap := memset map.overflowMap 1 ((p : ℤ) - b + 1 - map.len.toNat).toNat })
      initial b (R ∪ {q | q ≤ p}) := by
  have hbefore : ∀ q < b, q ∈ R ∪ {q | q ≤ p} := fun q hq => inl (h.before q hq)
  have hbound : ∀ q ∈ R ∪ {q | q ≤ p}, q < b + 2 * map.len.toNat := by
    rintro q (hq | hq)
    · exact h.bound q hq
    · exact lt_of_le_of_lt hq hend
  split_ifs with hlow
  · refine ⟨h.base, h.overflow, (length_memset 1 (by rw [h.length]; omega)).trans h.length,
      h.overflowLength, covers_memset h.low (by omega), fun i hi => ?_, hbefore, hbound⟩
    refine (h.high i hi).trans (or_iff_left ?_).symm
    show ¬b + map.len.toNat + i ≤ p
    omega
  · exact ⟨h.base, h.overflow, (length_memset 1 h.length.ge).trans h.length,
      (length_memset 1 (by rw [h.overflowLength]; omega)).trans h.overflowLength,
      covers_memset (n := map.len.toNat) h.low (by omega),
      covers_memset (c := b + map.len.toNat) h.high (by omega), hbefore,
      hbound⟩

/-- **`sctp_tsnmap_skip`** of a number in the map. -/
theorem Tracks.skip (h : Tracks map initial b k R) (hp : (p : ℤ) = position map b tsn) (hb : b ≤ p)
    (hend : p < b + 2 * map.len.toNat) :
    ∃ m' b' k', Returns (fun turns => sctpTsnmapSkip turns map tsn) m' ∧ m'.len = map.len ∧
      Tracks m' initial b' k' (R ∪ {q | q ≤ p}) ∧ b ≤ b' ∧ b' ≤ b + 2 * map.len.toNat := by
  obtain ⟨M, hmax, hM, hpM, hM'⟩ := h.bumpMax tsn (by omega) (by omega)
  obtain ⟨hlen, hbase, hcum⟩ := bumpMax_same map tsn
  have hholds := (h.holds.bumpMax tsn).skip hb (by rwa [hlen])
  have hgap : (tsn - (map.bumpMax tsn).baseTsn + 1).toInt = (p : ℤ) - b + 1 := by
    have hdiff : tsn - (map.bumpMax tsn).baseTsn + 1 = ofInt 32 ((p : ℤ) - b + 1) := by
      rw [ofInt_add, ← tsnAt_sub initial, hp, ← h.holds.tsn_eq tsn, hbase, h.holds.base]
      rfl
    rw [hdiff, toInt_ofInt_of_lt (by omega) (by omega)]
  obtain ⟨hlt, hlt'⟩ := h.holds.tsnLt_of_mem tsn (by omega) (by omega)
  simp only [sctpTsnmapSkip, hlt, hlt', hgap, Bool.false_eq_true, Bool.true_eq_false, if_false]
  exact h.update hholds (by split_ifs <;> exact hlen) (by omega) (by split_ifs <;> exact hcum)
    Set.subset_union_left (by split_ifs <;> exact hmax)
    (by rintro q (hq | hq); exacts [hM q hq, by have : q ≤ p := hq; omega])
    (hM'.elim inl fun hMp => inr (by show M - 1 ≤ p; omega))

end Gp2xKernel.Sctp
