import Gp2xKernel.TimerWheel.Wheel

/-!
# The operations on timers

The beginning of an iteration collects exactly the timers that are due in it.  The other operations
change the iteration in which one timer is due, and nothing else.

## Main results

* `Inv.startIteration`: an iteration begins
* `Inv.detach`, `Inv.delTimer`: a timer is taken out
* `Inv.modTimerAlways`: a timer is added, or added again
-/

namespace Gp2xKernel.TimerWheel

open Library List Function

variable {c : Config} {Timer : Type} {n : ℕ} {due : Timer → Option ℕ}
  {base : Base c Timer}

/-! ## What moving timers leaves unchanged -/

/-- Only the lists of the vectors and the marks of the timers change. -/
structure SameBut (base base' : Base c Timer) : Prop where
  work : base'.work = base.work
  expires : base'.expires = base.expires
  jiffies : base'.jiffies = base.jiffies

theorem SameBut.trans {base base' base'' : Base c Timer} (h : SameBut base base')
    (h' : SameBut base' base'') : SameBut base base'' :=
  ⟨h'.work.trans h.work, h'.expires.trans h.expires, h'.jiffies.trans h.jiffies⟩

variable [DecidableEq Timer]

theorem foldl_internalAddTimer (timers : List Timer) (base : Base c Timer) :
    SameBut base (timers.foldl internalAddTimer base) := by
  induction timers generalizing base with
  | nil => exact ⟨rfl, rfl, rfl⟩
  | cons t timers ih =>
    have hadd : SameBut base (internalAddTimer base t) := ⟨rfl, rfl, rfl⟩
    exact hadd.trans (ih (internalAddTimer base t))

theorem cascade_same (base : Base c Timer) (level slot : ℕ) :
    SameBut base (cascade base level slot) := by
  have htake : SameBut base { base with tv := setVec base.tv level slot [] } := ⟨rfl, rfl, rfl⟩
  exact htake.trans (foldl_internalAddTimer _ _)

theorem cascadeTimers_same (base : Base c Timer) : SameBut base (cascadeTimers base) := by
  have hcascade := @cascade_same c Timer _
  rw [cascadeTimers]
  dsimp only
  split_ifs
  · exact ⟨rfl, rfl, rfl⟩
  · exact hcascade _ _ _
  · exact (hcascade _ _ _).trans (hcascade _ _ _)
  · exact ((hcascade _ _ _).trans (hcascade _ _ _)).trans (hcascade _ _ _)
  · exact (((hcascade _ _ _).trans (hcascade _ _ _)).trans (hcascade _ _ _)).trans (hcascade _ _ _)

/-! ## Iterations -/

variable {k : ℕ} {low : ℕ → ℕ} {t : Timer} {expires : BitVec c.W}

/-- The timers in the list of the next iteration are due in it, and only they are. -/
theorem sound_root_iff {low i : ℕ} (h : Sound c n low k 0 i) : i = n % 2 ^ c.tvrBits ↔ k = n := by
  cases h with
  | root hle hlt =>
    refine ⟨fun hmod => ?_, fun hk => by rw [hk]⟩
    have hdvd : 2 ^ c.tvrBits ∣ k - n := (Nat.modEq_iff_dvd' hle).mp hmod.symm
    have := Nat.eq_zero_of_dvd_of_lt hdvd (by omega)
    omega
  | vec hpos => exact absurd hpos (by decide)

omit [DecidableEq Timer] in
theorem collect_at (base : Base c Timer) (slot : ℕ) (timerJiffies : BitVec c.W) :
    ({ base with
        timerJiffies
        work := base.tv 0 slot
        tv := setVec base.tv 0 slot [] } : Base c Timer).at [] =
      update (update (base.at []) (.vec 0 slot) []) .work (base.at [] (.vec 0 slot)) := by
  rw [← setVec_at]
  funext p
  cases p with
  | vec | loose => rw [update_of_ne (fun hp => by cases hp), Base.at, Base.at]
  | work => rw [update_self, Base.at, Base.at]

/-- **An iteration begins.** -/
theorem Inv.startIteration (h : Inv n (fun _ => n) due [] base) (hwork : base.work = []) :
    Inv (n + 1) (fun _ => n + 1) due [] (startIteration base) := by
  have hslot : rootIndex base = n % 2 ^ c.tvrBits := by rw [rootIndex, h.time, rootBits_eq]
  have hb := h.cascadeTimers
  have hbwork : (TimerWheel.cascadeTimers base).work = [] := by
    rw [(cascadeTimers_same base).work, hwork]
  rw [TimerWheel.startIteration, hslot]
  generalize TimerWheel.cascadeTimers base = b at hb hbwork ⊢
  generalize hs : n % 2 ^ c.tvrBits = slot
  have hat := collect_at b slot (b.timerJiffies + 1)
  constructor
  · show b.timerJiffies + 1 = _
    rw [hb.time, BitVec.ofNat_add]
    rfl
  · rw [hat]
    exact hb.placed.move _ _
  · intro t k hk
    rw [hat]
    obtain ⟨p, hp⟩ := hb.located t k hk
    by_cases hvec : p = .vec 0 slot
    · subst hvec
      exact ⟨.work, Placed.mem_move.mpr (by rwa [if_pos rfl])⟩
    · have hne : p ≠ .work := fun hpw => by
        subst hpw
        rw [Base.at, hbwork] at hp
        exact absurd hp not_mem_nil
      exact ⟨p, Placed.mem_move.mpr (by rw [if_neg hne]; exact ⟨hvec, hp⟩)⟩
  · intro l i t ht
    obtain ⟨hother, ht⟩ := mem_setVec_nil.mp ht
    obtain ⟨k, hk, hsound, hahead⟩ := hb.vec l i t ht
    have hnext : Sound c (n + 1) (n + 1) k l i ∧ n + 1 ≤ k := by
      cases hsound with
      | root hle hlt =>
        have hne : k ≠ n := fun hkn => hother ⟨rfl, by rw [hkn, hs]⟩
        have hle' : n + 1 ≤ k := Nat.lt_of_le_of_ne hle (Ne.symm hne)
        exact ⟨Sound.root hle' (by omega), hle'⟩
      | vec hpos hmax hlow hle hvisit =>
        rw [passed_of_le hmax] at hlow
        exact ⟨Sound.vec hpos hmax hlow hle hvisit, le_trans hlow hle⟩
    refine ⟨k, hk, hnext.1, fun hl => ?_⟩
    have hold := hahead hl
    exact ⟨hold.expires_eq, hnext.2, lt_of_lt_of_le hold.lt (by omega)⟩
  · intro t ht
    obtain ⟨k, hk, hsound, -⟩ := hb.vec 0 slot t ht
    rw [← hs] at hsound
    exact ⟨k, hk, by rw [(sound_root_iff hsound).mp rfl]⟩
  · exact fun t ht => absurd ht not_mem_nil
  · exact fun t ht => hb.pending t ht

/-! ## Taking a timer out -/

variable (h : Inv n low due [] base)
include h

theorem Inv.mem_detachTimer {x : Timer} {b : Bool}
    {p : Place} : x ∈ (detachTimer base t b).at [] p ↔ x ≠ t ∧ x ∈ base.at [] p := by
  cases p with
  | vec l i => exact h.placed.mem_erase (p := .vec l i)
  | work => exact h.placed.mem_erase (p := .work)
  | loose => exact iff_of_false not_mem_nil (fun hx => absurd hx.2 not_mem_nil)

theorem Inv.placed_detachTimer (t : Timer) (b : Bool) : Placed ((detachTimer base t b).at []) := by
  refine h.placed.mono fun p => ?_
  cases p with
  | vec | work => exact erase_sublist
  | loose => exact List.Sublist.refl _

omit [DecidableEq Timer] in
/-- A timer that is not pending is nowhere. -/
theorem Inv.not_mem_of_not_pending (ht : base.pending t = false)
    (p : Place) : t ∉ base.at [] p := by
  intro hmem
  obtain ⟨k, hk⟩ := h.due_of_mem hmem
  have := (h.pending t not_mem_nil).mpr (by rw [hk]; rfl)
  rw [ht] at this
  cases this

/-- Detaching a timer that is not pending would not change the lists. -/
theorem Inv.erase_of_not_pending (ht : base.pending t = false) :
    (fun l i => (base.tv l i).erase t) = base.tv ∧ base.work.erase t = base.work := by
  refine ⟨?_, erase_of_not_mem (h.not_mem_of_not_pending ht .work)⟩
  funext l i
  exact erase_of_not_mem (h.not_mem_of_not_pending ht (.vec l i))

/-- **A timer is taken out.** -/
theorem Inv.detach (t : Timer) : Inv n low (update due t none) [] (detachTimer base t true) := by
  have hdue : ∀ x k, update due t none x = some k ↔ x ≠ t ∧ due x = some k := by
    intro x k
    by_cases hx : x = t
    · subst hx
      rw [update_self]
      exact iff_of_false (fun hk => by cases hk) (fun hk => hk.1 rfl)
    · rw [update_of_ne hx, and_iff_right hx]
  refine ⟨h.time, h.placed_detachTimer t true, ?_, ?_, ?_, ?_, ?_⟩
  · intro x k hk
    obtain ⟨hx, hk⟩ := (hdue x k).mp hk
    obtain ⟨p, hp⟩ := h.located x k hk
    exact ⟨p, h.mem_detachTimer.mpr ⟨hx, hp⟩⟩
  · intro l i x hx
    obtain ⟨hne, hx⟩ := (h.mem_detachTimer (p := .vec l i)).mp hx
    obtain ⟨k, hk, hrest⟩ := h.vec l i x hx
    exact ⟨k, (hdue x k).mpr ⟨hne, hk⟩, hrest⟩
  · intro x hx
    obtain ⟨hne, hx⟩ := (h.mem_detachTimer (p := .work)).mp hx
    obtain ⟨k, hk, hrest⟩ := h.work x hx
    exact ⟨k, (hdue x k).mpr ⟨hne, hk⟩, hrest⟩
  · exact fun x hx => absurd hx not_mem_nil
  · intro x _
    rw [detachTimer]
    by_cases hx : x = t
    · subst hx
      simp
    · simp only [if_true, update_of_ne hx]
      exact h.pending x not_mem_nil

theorem Inv.delTimer_eq (t : Timer) : delTimer base t = detachTimer base t true := by
  rw [delTimer]
  split_ifs with ht
  · rfl
  · rw [Bool.not_eq_true] at ht
    have hlists := h.erase_of_not_pending ht
    rw [detachTimer, hlists.1, hlists.2, if_pos rfl, ← ht, update_eq_self]

/-! ## Adding a timer -/

theorem Inv.prepare (t : Timer) (hready : Ready c n k expires) :
    Inv n low (update due t (some k)) [t] { detachTimer base t false with
      expires := update base.expires t expires } := by
  have hplaced := (h.placed_detachTimer t false).push
    (fun q hq => (h.mem_detachTimer.mp hq).1 rfl) (p := .loose) (List.Perm.refl [t])
  rw [← at_loose] at hplaced
  have hdue : ∀ x, x ≠ t → update due t (some k) x = due x :=
    fun x hx => update_of_ne hx _ _
  refine ⟨h.time, hplaced, ?_, ?_, ?_, ?_, ?_⟩
  · intro x k' hk'
    by_cases hx : x = t
    · exact ⟨.loose, mem_singleton.mpr hx⟩
    · rw [hdue x hx] at hk'
      obtain ⟨p, hp⟩ := h.located x k' hk'
      have hp' := (h.mem_detachTimer (b := false)).mpr ⟨hx, hp⟩
      cases p with
      | vec l i => exact ⟨.vec l i, hp'⟩
      | work => exact ⟨.work, hp'⟩
      | loose => exact absurd hp not_mem_nil
  · intro l i x hx
    obtain ⟨hne, hx⟩ := (h.mem_detachTimer (p := .vec l i) (b := false)).mp hx
    obtain ⟨k', hk', hsound, hahead⟩ := h.vec l i x hx
    refine ⟨k', by rwa [hdue x hne], hsound, ?_⟩
    dsimp only
    rwa [update_of_ne hne]
  · intro x hx
    obtain ⟨hne, hx⟩ := (h.mem_detachTimer (p := .work) (b := false)).mp hx
    obtain ⟨k', hk', hrest⟩ := h.work x hx
    exact ⟨k', by rwa [hdue x hne], hrest⟩
  · intro x hx
    obtain rfl := mem_singleton.mp hx
    dsimp only
    exact ⟨k, update_self _ _ _, by rwa [update_self]⟩
  · intro x hx
    have hne : x ≠ t := fun hxt => hx (mem_singleton.mpr hxt)
    rw [hdue x hne]
    exact h.pending x not_mem_nil

/-- **A timer is added, or added again.** -/
theorem Inv.modTimerAlways (hlow : ∀ l, low l ≤ n + 1) (t : Timer)
    (hready : Ready c n k expires) :
    Inv n low (update due t (some k)) [] (modTimerAlways base t expires) := by
  have hbase : (if base.pending t then detachTimer base t false else base) =
      detachTimer base t false := by
    split_ifs with ht
    · rfl
    · rw [Bool.not_eq_true] at ht
      have hlists := h.erase_of_not_pending ht
      rw [detachTimer, hlists.1, hlists.2, if_neg Bool.false_ne_true]
  rw [TimerWheel.modTimerAlways, hbase]
  exact (h.prepare t hready).add hlow

end Gp2xKernel.TimerWheel
