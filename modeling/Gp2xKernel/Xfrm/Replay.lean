import Mathlib.Data.BitVec
import Mathlib.Data.List.Lemmas

/-!
# Replay protection

`xfrm_replay_check` and `xfrm_replay_advance` of `net/xfrm/xfrm_state.c`.  The check limits the
window to the 32 bits of the bitmap, but the update shifts the bitmap by any number below the
configured window.  In C a shift of a 32-bit value by 32 or more has no defined result, so the model
takes what the machine does then as a parameter, and records the shifts that are executed.

Sequence numbers are in host byte order.  The notification at the end of `xfrm_replay_advance` is
not modelled.

## Main definitions

* `replayCheck`, `replayAdvance`: the two functions
* `run`: a state that receives a list of sequence numbers
* `Sound`: what replay protection promises
* `Paced`: no sequence number is ahead by 32 or more and by less than the window

## Main results

* `Tracks.receive`: the bitmap records the last accepted numbers
* `replay_sound_iff`: replay protection holds along a run exactly if the run is paced
-/

namespace Gp2xKernel.Xfrm

open List

/-! ## The functions -/

/-- `<<` on 32-bit values, where `wide` is what the machine does if the shift is too large. -/
def shiftLeft (wide : BitVec 32 → ℕ → BitVec 32) (v : BitVec 32) (n : ℕ) : BitVec 32 :=
  if n < 32 then v <<< n else wide v n

/-- The fields of `struct xfrm_state` for replay protection. -/
structure XfrmState where
  replayWindow : BitVec 8
  seq : BitVec 32
  bitmap : BitVec 32
  statsReplayWindow : BitVec 32
  statsReplay : BitVec 32

/-- What a function returns, the state it leaves, and the shifts it has executed. -/
structure Outcome (α : Type) where
  value : α
  state : XfrmState
  shifts : List ℕ

/-- `EINVAL` -/
def einval : ℤ := 22

variable (wide : BitVec 32 → ℕ → BitVec 32)

/-- `xfrm_replay_check` -/
def replayCheck (x : XfrmState) (seq : BitVec 32) : Outcome ℤ :=
  if seq = 0 then ⟨-einval, x, []⟩
  else if x.seq < seq then ⟨0, x, []⟩
  else
    let diff := (x.seq - seq).toNat
    if min x.replayWindow.toNat 32 ≤ diff then
      ⟨-einval, { x with statsReplayWindow := x.statsReplayWindow + 1 }, []⟩
    else if x.bitmap &&& shiftLeft wide 1 diff ≠ 0 then
      ⟨-einval, { x with statsReplay := x.statsReplay + 1 }, [diff]⟩
    else ⟨0, x, [diff]⟩

/-- `xfrm_replay_advance` -/
def replayAdvance (x : XfrmState) (seq : BitVec 32) : Outcome Unit :=
  if x.seq < seq then
    let diff := (seq - x.seq).toNat
    if diff < x.replayWindow.toNat then
      ⟨(), { x with bitmap := shiftLeft wide x.bitmap diff ||| 1, seq }, [diff]⟩
    else ⟨(), { x with bitmap := 1, seq }, []⟩
  else
    let diff := (x.seq - seq).toNat
    ⟨(), { x with bitmap := x.bitmap ||| shiftLeft wide 1 diff }, [diff]⟩

/-! ## Runs -/

/-- The state, the accepted numbers and the executed shifts, latest first. -/
structure Run where
  state : XfrmState
  accepted : List (BitVec 32)
  shifts : List ℕ

/-- A sequence number is received: it is checked, and accepted if the check returns zero. -/
def receive (r : Run) (seq : BitVec 32) : Run :=
  let check := replayCheck wide r.state seq
  if check.value = 0 then
    let advance := replayAdvance wide check.state seq
    ⟨advance.state, seq :: r.accepted, advance.shifts ++ (check.shifts ++ r.shifts)⟩
  else ⟨check.state, r.accepted, check.shifts ++ r.shifts⟩

/-- A new state receives sequence numbers, the latest of which is the first of the list. -/
def run (window : BitVec 8) : List (BitVec 32) → Run
  | [] => ⟨⟨window, 0, 0, 0, 0⟩, [], []⟩
  | seq :: seqs => receive wide (run window seqs) seq

/-- The highest number of a list, zero if there is none. -/
def highest (seqs : List (BitVec 32)) : ℕ := seqs.foldr (fun seq top => max seq.toNat top) 0

/-- Replay protection, after some sequence numbers: none of them was accepted twice; a new number in
the window is going to be accepted; and no shift was too large. -/
structure Sound (window : BitVec 8) (seqs : List (BitVec 32)) : Prop where
  once : (run wide window seqs).accepted.Nodup
  fresh : ∀ seq, seq ≠ 0 → seq ∉ (run wide window seqs).accepted →
    highest (run wide window seqs).accepted < seq.toNat + min window.toNat 32 →
    (replayCheck wide (run wide window seqs).state seq).value = 0
  shifts : ∀ n ∈ (run wide window seqs).shifts, n < 32

/-- No sequence number is ahead of the highest accepted one by 32 or more, and by less than the
window. -/
def Paced (window : BitVec 8) : List (BitVec 32) → Prop
  | [] => True
  | seq :: seqs => Paced window seqs ∧
    ¬(highest (run wide window seqs).accepted + 32 ≤ seq.toNat ∧
      seq.toNat < highest (run wide window seqs).accepted + window.toNat)

/-! ## The highest number -/

theorem highest_cons (seq : BitVec 32) (seqs : List (BitVec 32)) :
    highest (seq :: seqs) = max seq.toNat (highest seqs) := rfl

variable {seqs : List (BitVec 32)} {seq v : BitVec 32} {diff i : ℕ} {shifts : List ℕ}

theorem le_highest (h : seq ∈ seqs) : seq.toNat ≤ highest seqs := by
  induction seqs with
  | nil => exact absurd h not_mem_nil
  | cons s seqs ih =>
    rcases mem_cons.mp h with rfl | h
    · exact Nat.le_max_left _ _
    · exact Nat.le_trans (ih h) (Nat.le_max_right _ _)

/-! ## One bit -/

theorem and_shiftLeft_one {n : ℕ} (hn : n < 32) :
    v &&& shiftLeft wide 1 n = 0 ↔ v.getLsbD n = false := by
  rw [shiftLeft, if_pos hn]
  constructor
  · intro h
    have hbit := congrArg (fun u => u.getLsbD n) h
    simpa [hn] using hbit
  · intro h
    apply BitVec.eq_of_getLsbD_eq
    intro i hi
    by_cases hin : i = n
    · subst hin
      simp [h]
    · simp [hi]
      omega

theorem getLsbD_one (i : ℕ) : (1 : BitVec 32).getLsbD i = true ↔ i = 0 := by
  simp

/-! ## What the functions do -/

theorem einval_ne_zero : -einval ≠ 0 := by decide

/-- The numbers that the check lets pass. -/
theorem replayCheck_eq_zero_iff {x : XfrmState} :
    (replayCheck wide x seq).value = 0 ↔ seq ≠ 0 ∧ (x.seq < seq ∨
      x.seq.toNat < seq.toNat + min x.replayWindow.toNat 32 ∧
        x.bitmap.getLsbD (x.seq.toNat - seq.toNat) = false) := by
  rw [replayCheck]
  by_cases hzero : seq = 0
  · rw [if_pos hzero]
    exact iff_of_false einval_ne_zero (fun h => h.1 hzero)
  rw [if_neg hzero, and_iff_right hzero]
  by_cases hlt : x.seq < seq
  · rw [if_pos hlt]
    exact iff_of_true rfl (Or.inl hlt)
  have hle : seq ≤ x.seq := BitVec.not_lt.mp hlt
  have hleNat : seq.toNat ≤ x.seq.toNat := hle
  rw [if_neg hlt, or_iff_right hlt]
  rw [BitVec.toNat_sub_of_le hle]
  by_cases hwin : min x.replayWindow.toNat 32 ≤ x.seq.toNat - seq.toNat
  · rw [if_pos hwin]
    exact iff_of_false einval_ne_zero (fun h => by omega)
  rw [if_neg hwin, and_iff_right (by omega : x.seq.toNat < seq.toNat + _)]
  have hbit := and_shiftLeft_one wide (v := x.bitmap) (by omega : x.seq.toNat - seq.toNat < 32)
  by_cases hset : x.bitmap &&& shiftLeft wide 1 (x.seq.toNat - seq.toNat) = 0
  · rw [if_neg (fun h => h hset)]
    exact iff_of_true rfl (hbit.mp hset)
  · rw [if_pos hset]
    exact iff_of_false einval_ne_zero (fun h => hset (hbit.mpr h))

/-- The check changes nothing but statistics, and executes no shift that is too large. -/
theorem replayCheck_frame (x : XfrmState) (seq : BitVec 32) :
    ((replayCheck wide x seq).state.replayWindow = x.replayWindow ∧
      (replayCheck wide x seq).state.seq = x.seq ∧
      (replayCheck wide x seq).state.bitmap = x.bitmap) ∧
    ∀ n ∈ (replayCheck wide x seq).shifts, n < 32 := by
  rw [replayCheck]
  dsimp only
  split_ifs with hzero hlt hwin hset
  · exact ⟨⟨rfl, rfl, rfl⟩, fun n hn => absurd hn not_mem_nil⟩
  · exact ⟨⟨rfl, rfl, rfl⟩, fun n hn => absurd hn not_mem_nil⟩
  · exact ⟨⟨rfl, rfl, rfl⟩, fun n hn => absurd hn not_mem_nil⟩
  · refine ⟨⟨rfl, rfl, rfl⟩, fun n hn => ?_⟩
    rw [mem_singleton] at hn
    omega
  · refine ⟨⟨rfl, rfl, rfl⟩, fun n hn => ?_⟩
    rw [mem_singleton] at hn
    omega

/-- The bitmap after a number that is ahead. -/
theorem getLsbD_shiftLeft_or_one (hdiff : diff < 32) (hi : i < 32) :
    (shiftLeft wide v diff ||| 1).getLsbD i = true ↔
      i = 0 ∨ diff ≤ i ∧ v.getLsbD (i - diff) = true := by
  rw [shiftLeft, if_pos hdiff, BitVec.getLsbD_or, Bool.or_eq_true, getLsbD_one, or_comm]
  simp only [BitVec.getLsbD_shiftLeft, hi, decide_true, Bool.true_and, Bool.and_eq_true,
    Bool.not_eq_true', decide_eq_false_iff_not, not_lt]

/-- The bitmap after a number that is behind. -/
theorem getLsbD_or_shiftLeft_one (hdiff : diff < 32) :
    (v ||| shiftLeft wide 1 diff).getLsbD i = true ↔ v.getLsbD i = true ∨ i = diff := by
  rw [shiftLeft, if_pos hdiff, BitVec.getLsbD_or, Bool.or_eq_true]
  refine or_congr Iff.rfl ?_
  simp
  omega

/-! ## The invariant -/

/-- The state keeps track of the accepted numbers: `seq` is the highest of them, and bit `i` of the
bitmap tells whether `seq - i` is one of them. -/
structure Tracks (window : BitVec 8) (r : Run) : Prop where
  replayWindow : r.state.replayWindow = window
  seq : r.state.seq.toNat = highest r.accepted
  bit : ∀ i < min window.toNat 32,
    r.state.bitmap.getLsbD i = true ↔ ∃ s ∈ r.accepted, s.toNat + i = r.state.seq.toNat
  once : r.accepted.Nodup
  shifts : ∀ n ∈ r.shifts, n < 32

theorem Tracks.init (window : BitVec 8) : Tracks window (run wide window []) := by
  refine ⟨rfl, rfl, fun i _ => ?_, nodup_nil, fun n hn => absurd hn not_mem_nil⟩
  rw [run]
  simp

variable {wide} {window : BitVec 8} {r : Run} {seq : BitVec 32}

section

variable (h : Tracks window r)
include h

theorem Tracks.not_mem_of_check (hcheck : (replayCheck wide r.state seq).value = 0) :
    seq ∉ r.accepted := by
  intro hmem
  obtain ⟨-, hlt | ⟨hwin, hbit⟩⟩ := (replayCheck_eq_zero_iff wide).mp hcheck
  · have := le_highest hmem
    rw [← h.seq] at this
    exact absurd hlt (BitVec.not_lt.mpr this)
  · have hle := le_highest hmem
    rw [← h.seq] at hle
    rw [h.replayWindow] at hwin
    have hset := (h.bit (r.state.seq.toNat - seq.toNat) (by omega)).mpr ⟨seq, hmem, by omega⟩
    rw [hbit] at hset
    cases hset

theorem Tracks.check_of_fresh (hzero : seq ≠ 0) (hnew : seq ∉ r.accepted)
    (hwin : highest r.accepted < seq.toNat + min window.toNat 32) :
    (replayCheck wide r.state seq).value = 0 := by
  rw [replayCheck_eq_zero_iff, h.replayWindow, h.seq]
  refine ⟨hzero, ?_⟩
  by_cases hlt : r.state.seq < seq
  · exact Or.inl hlt
  have hle : seq.toNat ≤ r.state.seq.toNat := BitVec.not_lt.mp hlt
  refine Or.inr ⟨hwin, ?_⟩
  rw [← Bool.not_eq_true, ← h.seq, h.bit _ (by rw [← h.seq] at hwin; omega)]
  rintro ⟨s, hs, heq⟩
  have : s = seq := BitVec.eq_of_toNat_eq (by omega)
  exact hnew (this ▸ hs)

/-- The state after a number that is ahead: the bitmap moves on by the distance. -/
theorem Tracks.advance_ahead (hlt : r.state.seq < seq)
    (hnew : seq ∉ r.accepted) (hshifts : ∀ n ∈ shifts, n < 32)
    (hpaced : ¬(highest r.accepted + 32 ≤ seq.toNat ∧
      seq.toNat < highest r.accepted + window.toNat)) :
    Tracks window ⟨(replayAdvance wide r.state seq).state, seq :: r.accepted,
      (replayAdvance wide r.state seq).shifts ++ shifts⟩ := by
  have hltNat : r.state.seq.toNat < seq.toNat := hlt
  have hsub : (seq - r.state.seq).toNat = seq.toNat - r.state.seq.toNat :=
    BitVec.toNat_sub_of_le (Nat.le_of_lt hltNat)
  rw [← h.seq] at hpaced
  have hold : ∀ s ∈ r.accepted, s.toNat ≤ r.state.seq.toNat := by
    intro s hs
    rw [h.seq]
    exact le_highest hs
  have htop : seq.toNat = highest (seq :: r.accepted) := by
    rw [highest_cons, ← h.seq]
    omega
  rw [replayAdvance, if_pos hlt]
  rw [hsub, h.replayWindow]
  by_cases hwin : seq.toNat - r.state.seq.toNat < window.toNat
  · rw [if_pos hwin]
    have hdiff : seq.toNat - r.state.seq.toNat < 32 := by omega
    refine ⟨rfl, htop, fun i hi => ?_, nodup_cons.mpr ⟨hnew, h.once⟩, ?_⟩
    · dsimp only
      rw [getLsbD_shiftLeft_or_one wide hdiff (by omega)]
      constructor
      · rintro (rfl | ⟨hge, hbit⟩)
        · exact ⟨seq, mem_cons_self, rfl⟩
        · obtain ⟨s, hs, heq⟩ := (h.bit _ (by omega)).mp hbit
          exact ⟨s, mem_cons_of_mem _ hs, by omega⟩
      · rintro ⟨s, hs, heq⟩
        rcases mem_cons.mp hs with rfl | hs
        · exact Or.inl (by omega)
        · have := hold s hs
          exact Or.inr ⟨by omega, (h.bit _ (by omega)).mpr ⟨s, hs, by omega⟩⟩
    · exact forall_mem_append.mpr ⟨forall_mem_singleton.mpr hdiff, hshifts⟩
  · rw [if_neg hwin]
    refine ⟨rfl, htop, fun i hi => ?_, nodup_cons.mpr ⟨hnew, h.once⟩, hshifts⟩
    -- everything that was accepted is out of the window
    dsimp only
    rw [getLsbD_one]
    constructor
    · rintro rfl
      exact ⟨seq, mem_cons_self, rfl⟩
    · rintro ⟨s, hs, heq⟩
      rcases mem_cons.mp hs with rfl | hs
      · omega
      · have := hold s hs
        omega

/-- The state after a number that is behind, in the window: its bit is set. -/
theorem Tracks.advance_behind (hle : seq.toNat ≤ r.state.seq.toNat)
    (hwin : r.state.seq.toNat < seq.toNat + min window.toNat 32) (hnew : seq ∉ r.accepted)
    (hshifts : ∀ n ∈ shifts, n < 32) :
    Tracks window ⟨(replayAdvance wide r.state seq).state, seq :: r.accepted,
      (replayAdvance wide r.state seq).shifts ++ shifts⟩ := by
  have hsub : (r.state.seq - seq).toNat = r.state.seq.toNat - seq.toNat :=
    BitVec.toNat_sub_of_le hle
  have hdiff : r.state.seq.toNat - seq.toNat < 32 := by omega
  have htop : r.state.seq.toNat = highest (seq :: r.accepted) := by
    rw [highest_cons, ← h.seq]
    omega
  rw [replayAdvance, if_neg (BitVec.not_lt.mpr hle)]
  rw [hsub]
  refine ⟨h.replayWindow, htop, fun i hi => ?_, nodup_cons.mpr ⟨hnew, h.once⟩, ?_⟩
  · dsimp only
    rw [getLsbD_or_shiftLeft_one wide hdiff, h.bit i hi]
    constructor
    · rintro (⟨s, hs, heq⟩ | rfl)
      · exact ⟨s, mem_cons_of_mem _ hs, heq⟩
      · exact ⟨seq, mem_cons_self, by omega⟩
    · rintro ⟨s, hs, heq⟩
      rcases mem_cons.mp hs with rfl | hs
      · exact Or.inr (by omega)
      · exact Or.inl ⟨s, hs, heq⟩
  · exact forall_mem_append.mpr ⟨forall_mem_singleton.mpr hdiff, hshifts⟩

/-- **A number is received.** -/
theorem Tracks.receive (hpaced : ¬(highest r.accepted + 32 ≤ seq.toNat ∧
      seq.toNat < highest r.accepted + window.toNat)) :
    Tracks window (receive wide r seq) := by
  obtain ⟨⟨hwindow, hseq, hbitmap⟩, hlt32⟩ := replayCheck_frame wide r.state seq
  have hshifts : ∀ n ∈ (replayCheck wide r.state seq).shifts ++ r.shifts, n < 32 := by
    exact forall_mem_append.mpr ⟨hlt32, h.shifts⟩
  -- the check leaves a state that is as good as the one before it
  have hchecked : Tracks window ⟨(replayCheck wide r.state seq).state, r.accepted,
      (replayCheck wide r.state seq).shifts ++ r.shifts⟩ := by
    refine ⟨hwindow.trans h.replayWindow, by rw [hseq]; exact h.seq, fun i hi => ?_, h.once,
      hshifts⟩
    rw [hbitmap, hseq]
    exact h.bit i hi
  rw [Xfrm.receive]
  by_cases hcheck : (replayCheck wide r.state seq).value = 0
  · rw [if_pos hcheck]
    have hnew := h.not_mem_of_check hcheck
    by_cases hlt : r.state.seq < seq
    · exact hchecked.advance_ahead (by rw [hseq]; exact hlt) hnew hshifts hpaced
    · obtain ⟨hwin, -⟩ := ((replayCheck_eq_zero_iff wide).mp hcheck).2.resolve_left hlt
      rw [h.replayWindow] at hwin
      exact hchecked.advance_behind (by rw [hseq]; exact BitVec.not_lt.mp hlt)
        (by rw [hseq]; exact hwin) hnew hshifts
  · rw [if_neg hcheck]
    exact hchecked

end

theorem tracks_of_paced (h : Paced wide window seqs) : Tracks window (run wide window seqs) := by
  induction seqs with
  | nil => exact Tracks.init wide window
  | cons seq seqs ih => exact (ih h.1).receive h.2

/-! ## The theorem -/

theorem Paced.sound (h : Paced wide window seqs) : Sound wide window seqs := by
  have htracks := tracks_of_paced h
  exact ⟨htracks.once, fun seq hzero hnew hwin => htracks.check_of_fresh hzero hnew hwin,
    htracks.shifts⟩

/-- A number that is ahead by 32 or more, and by less than the window, is shifted by too much. -/
theorem Tracks.exists_shift (h : Tracks window r) (hfar : highest r.accepted + 32 ≤ seq.toNat)
    (hwin : seq.toNat < highest r.accepted + window.toNat) :
    ∃ n ∈ (Xfrm.receive wide r seq).shifts, ¬n < 32 := by
  obtain ⟨⟨hwindow, hseq, -⟩, -⟩ := replayCheck_frame wide r.state seq
  rw [← h.seq] at hfar hwin
  have hlt : r.state.seq < seq := (by omega : r.state.seq.toNat < seq.toNat)
  have hzero : seq ≠ 0 := by
    rintro rfl
    exact absurd hlt (by simp)
  have hcheck : (replayCheck wide r.state seq).value = 0 :=
    (replayCheck_eq_zero_iff wide).mpr ⟨hzero, Or.inl hlt⟩
  have hsub : (seq - r.state.seq).toNat = seq.toNat - r.state.seq.toNat :=
    BitVec.toNat_sub_of_le (Nat.le_of_lt hlt)
  refine ⟨seq.toNat - r.state.seq.toNat, ?_, by omega⟩
  rw [Xfrm.receive]
  rw [if_pos hcheck, replayAdvance, hseq, hwindow, if_pos hlt]
  rw [hsub, h.replayWindow, if_pos (by omega)]
  exact mem_cons_self

/-- **Main theorem.**  For every window and every machine, replay protection holds at each point of
a run exactly if no sequence number of the run is ahead by 32 or more, and by less than the
window. -/
theorem replay_sound_iff (wide : BitVec 32 → ℕ → BitVec 32) (window : BitVec 8)
    (seqs : List (BitVec 32)) :
    (∀ before, before <:+ seqs → Sound wide window before) ↔ Paced wide window seqs := by
  induction seqs with
  | nil =>
    refine iff_of_true (fun before hbefore => ?_) trivial
    rw [suffix_nil.mp hbefore]
    exact Paced.sound trivial
  | cons seq seqs ih =>
    constructor
    · intro h
      have hbefore := ih.mp fun before hs => h before (hs.trans (suffix_cons seq seqs))
      refine ⟨hbefore, fun ⟨hfar, hwin⟩ => ?_⟩
      obtain ⟨n, hn, hge⟩ := (tracks_of_paced hbefore).exists_shift hfar hwin
      exact hge ((h (seq :: seqs) (suffix_refl _)).shifts n hn)
    · intro h before hs
      rcases suffix_cons_iff.mp hs with rfl | hs
      · exact h.sound
      · exact ih.mpr h.1 before hs

/-- Windows that the bitmap can hold are safe, whatever is received. -/
theorem paced_of_window_le (h : window.toNat ≤ 32) (seqs : List (BitVec 32)) :
    Paced wide window seqs := by
  induction seqs with
  | nil => exact trivial
  | cons seq seqs ih => exact ⟨ih, fun ⟨hfar, hwin⟩ => by omega⟩

/-- With a window of 64, a first number of 32 makes the update shift the bitmap by 32. -/
theorem replay_shift_too_large : ¬Sound (fun _ _ => 0) 64 [32] := by
  intro h
  exact absurd (h.shifts 32 (by decide)) (by decide)

end Gp2xKernel.Xfrm
