import Gp2xKernel.Library.Run
import Gp2xKernel.TimerWheel.Operations

/-!
# Timers run on time

Timers are added, modified and deleted while `__run_timers` works through the iterations: between
two calls of it, and between two timers of one call.  The history of these events says in which
iteration each timer is due, and that is the iteration in which it runs.

## Main definitions

* `Event`, `Step`, `system`: what happens to a base
* `armed`: the last addition of a timer, if it has not run since and has not been deleted
* `Added.due`: the iteration in which a timer is to run

## Main results

* `Good.step`: the invariant of all runs
* `timers_on_time`: each timer runs once, in the iteration in which it is due
-/

namespace Gp2xKernel.TimerWheel

open Library BitVec Option List Function

variable {c : Config} {Timer : Type}

/-! ## Events -/

/-- What happens to a base.  A timer is added by `add_timer` or `add_timer_on`, after its field
`expires` has been set; it is modified by `mod_timer` or `__mod_timer`; it is deleted; the variable
`jiffies` changes; and `__run_timers` begins an iteration, or runs a timer. -/
inductive Event (c : Config) (Timer : Type)
  | add (t : Timer) (expires : BitVec c.W)
  | mod (t : Timer) (expires : BitVec c.W)
  | modAlways (t : Timer) (expires : BitVec c.W)
  | del (t : Timer)
  | tick (jiffies : BitVec c.W)
  | iterate
  | run (t : Timer)

/-- The events that are steps of `__run_timers`. -/
def Event.OfRunTimers : Event c Timer → Prop
  | .iterate => True
  | .run _ => True
  | _ => False

section

variable [DecidableEq Timer]

/-- The steps of a base.  Adding a pending timer is a bug of the caller.  An iteration begins when
the one before it has no timers left. -/
inductive Step (base : Base c Timer) : Event c Timer → Base c Timer → Prop
  | add {t : Timer} {expires : BitVec c.W} (hpending : base.pending t = false) :
      Step base (.add t expires) (modTimerAlways base t expires)
  | mod (t : Timer) (expires : BitVec c.W) : Step base (.mod t expires) (modTimer base t expires)
  | modAlways (t : Timer) (expires : BitVec c.W) :
      Step base (.modAlways t expires) (modTimerAlways base t expires)
  | del (t : Timer) : Step base (.del t) (delTimer base t)
  | tick (jiffies : BitVec c.W) : Step base (.tick jiffies) { base with jiffies }
  | iterate (hwork : base.work = []) (hjiffies : timeAfterEq base.jiffies base.timerJiffies) :
      Step base .iterate (startIteration base)
  | run {t : Timer} {base' : Base c Timer} (hrun : runTimer base = some (t, base')) :
      Step base (.run t) base'

/-- A base without timers. -/
structure Empty (start : BitVec c.W) (base : Base c Timer) : Prop where
  time : base.timerJiffies = start
  tv : ∀ l i, base.tv l i = []
  work : base.work = []
  pending : ∀ t, base.pending t = false

/-- The runs of a base that is initialized with the time `start`. -/
def system (Timer : Type) [DecidableEq Timer] (start : BitVec c.W) :
    System (Base c Timer) (Event c Timer) where
  init := Empty start
  step _ base e base' := Step base e base'

end

/-! ## The history -/

/-- The number of the next iteration. -/
def now (start : BitVec c.W) : List (Event c Timer) → ℕ
  | [] => start.toNat
  | .iterate :: tr => now start tr + 1
  | _ :: tr => now start tr

/-- An addition of a timer, before iteration `before`. -/
structure Added (c : Config) where
  expires : BitVec c.W
  before : ℕ

/-- The time at which the timer expires is at or after `timer_jiffies` when it is added. -/
def Added.Ahead (a : Added c) : Prop := timeAfterEq a.expires (BitVec.ofNat c.W a.before)

instance (a : Added c) : Decidable a.Ahead := inferInstanceAs (Decidable (timeAfterEq _ _))

/-- The iteration in which a timer is to run: the one in which it expires, or the next one. -/
def Added.due (a : Added c) : ℕ :=
  if a.Ahead then a.before + (a.expires - BitVec.ofNat c.W a.before).toNat else a.before

section

variable [DecidableEq Timer]

/-- The last addition of a timer, unless it has run or was deleted.  Nothing is added by `mod_timer`
if the timer is to expire at the same time as before. -/
def armed (start : BitVec c.W) : List (Event c Timer) → Timer → Option (Added c)
  | [], _ => none
  | .add t expires :: tr, x => if x = t then some ⟨expires, now start tr⟩ else armed start tr x
  | .modAlways t expires :: tr, x =>
    if x = t then some ⟨expires, now start tr⟩ else armed start tr x
  | .mod t expires :: tr, x =>
    if x = t ∧ (armed start tr t).map Added.expires ≠ some expires then
      some ⟨expires, now start tr⟩
    else armed start tr x
  | .del t :: tr, x => if x = t then none else armed start tr x
  | .run t :: tr, x => if x = t then none else armed start tr x
  | .tick _ :: tr, x => armed start tr x
  | .iterate :: tr, x => armed start tr x

/-- The iterations in which the timers are due. -/
def dueAt (start : BitVec c.W) (tr : List (Event c Timer)) (t : Timer) : Option ℕ :=
  (armed start tr t).map Added.due

end

/-! ## The iteration in which a timer is due -/

variable {a : Added c} {e : Event c Timer} {t : Timer} {us : List Timer}

/-- The number of an iteration is determined by the time at which the timer expires. -/
theorem Added.ahead_due (h : a.Ahead) : TimerWheel.Ahead c a.before a.due a.expires := by
  have hpred := c.two_pow_pred
  have hnonneg : 0 ≤ (a.expires - BitVec.ofNat c.W a.before).toInt := h
  rw [Added.due, if_pos h]
  refine ⟨?_, Nat.le_add_right _ _, Nat.add_lt_add_left ?_ _⟩
  · rw [ofNat_add, ofNat_toNat, setWidth_eq, add_comm, sub_add_cancel]
  · rw [toInt_eq_toNat_cond] at hnonneg
    split_ifs at hnonneg with hlt
    · omega
    · omega

theorem Added.ready (a : Added c) : Ready c a.before a.due a.expires := by
  by_cases h : a.Ahead
  · exact Or.inl (Added.ahead_due h)
  · refine Or.inr ⟨Int.not_le.mp h, ?_⟩
    rw [Added.due, if_neg h]

/-! ## What the invariant says -/

section Meaning

variable {n : ℕ} {due : Timer → Option ℕ} {base : Base c Timer}

theorem Inv.le_due (h : Inv n (fun _ => n) due [] base) {t : Timer} {k : ℕ} (hk : due t = some k) :
    n ≤ k ∨ t ∈ base.work ∧ k + 1 = n := by
  obtain ⟨p, hp⟩ := h.located t k hk
  cases p with
  | vec l i =>
    obtain ⟨k', hk', hsound, -⟩ := h.vec l i t hp
    obtain rfl : k = k' := some.inj (hk.symm.trans hk')
    cases hsound with
    | root hle => exact Or.inl hle
    | vec _ _ hlow hle => exact Or.inl (le_trans hlow hle)
  | work =>
    obtain ⟨k', hk', hnext⟩ := h.work t hp
    obtain rfl : k = k' := some.inj (hk.symm.trans hk')
    exact Or.inr ⟨hp, hnext⟩
  | loose => exact absurd hp not_mem_nil

end Meaning

/-! ## The invariant of all runs -/

variable [DecidableEq Timer] {start : BitVec c.W} {tr : List (Event c Timer)} {base : Base c Timer}

/-- The invariant: timers are where the history says, with the times they were added with. -/
structure Good (start : BitVec c.W) (tr : List (Event c Timer)) (base : Base c Timer) : Prop where
  inv : Inv (now start tr) (fun _ => now start tr) (dueAt start tr) [] base
  expires : ∀ t a, armed start tr t = some a → base.expires t = a.expires

theorem Empty.good (h : Empty start base) : Good start [] base := by
  have hnil : ∀ p, base.at [] p = [] := by
    intro p
    cases p with
    | vec l i => exact h.tv l i
    | work => exact h.work
    | loose => rfl
  refine ⟨⟨?_, ⟨?_, ?_⟩, ?_, ?_, ?_, ?_, ?_⟩, fun t a ha => by cases ha⟩
  · rw [h.time, now, ofNat_toNat, setWidth_eq]
  · intro p
    rw [hnil p]
    exact nodup_nil
  · intro p q x hp
    rw [hnil p] at hp
    exact absurd hp not_mem_nil
  · intro t k hk
    cases hk
  · intro l i t ht
    rw [h.tv l i] at ht
    exact absurd ht not_mem_nil
  · intro t ht
    rw [h.work] at ht
    exact absurd ht not_mem_nil
  · exact fun t ht => absurd ht not_mem_nil
  · intro t _
    rw [h.pending t]
    exact iff_of_false Bool.false_ne_true Bool.false_ne_true

/-- The addition of one timer is changed. -/
theorem dueAt_eq_update {new : Option (Added c)}
    (harmed : ∀ x, armed start (e :: tr) x = if x = t then new else armed start tr x) :
    dueAt start (e :: tr) = update (dueAt start tr) t (new.map Added.due) := by
  funext x
  rw [dueAt, harmed x]
  by_cases hx : x = t
  · rw [if_pos hx, hx, update_self]
  · rw [if_neg hx, update_of_ne hx, dueAt]

section

variable (h : Good start tr base)
include h

theorem Good.added {expires : BitVec c.W}
    (hnow : now start (e :: tr) = now start tr) (harmed : ∀ x, armed start (e :: tr) x =
      if x = t then some ⟨expires, now start tr⟩ else armed start tr x) :
    Good start (e :: tr) (modTimerAlways base t expires) := by
  constructor
  · rw [hnow, dueAt_eq_update harmed]
    exact h.inv.modTimerAlways (fun _ => Nat.le_succ _) t (Added.ready ⟨expires, now start tr⟩)
  · intro x a ha
    rw [harmed x] at ha
    have hexp : (modTimerAlways base t expires).expires = update base.expires t expires := by
      rw [modTimerAlways]
      split_ifs <;> rfl
    rw [hexp]
    split_ifs at ha with hx
    · cases ha
      rw [hx, update_self]
    · rw [update_of_ne hx]
      exact h.expires x a ha

theorem Good.detached (hnow : now start (e :: tr) = now start tr)
    (harmed : ∀ x, armed start (e :: tr) x = if x = t then none else armed start tr x) :
    Good start (e :: tr) (detachTimer base t true) := by
  constructor
  · rw [hnow, dueAt_eq_update harmed]
    exact h.inv.detach t
  · intro x a ha
    rw [harmed x] at ha
    split_ifs at ha with hx
    exact h.expires x a ha

theorem Good.pending_iff (t : Timer) : base.pending t = true ↔ ∃ a, armed start tr t = some a := by
  rw [h.inv.pending t not_mem_nil, dueAt, isSome_map, isSome_iff_exists]

theorem Good.modified (t : Timer) (expires : BitVec c.W) :
    Good start (.mod t expires :: tr) (modTimer base t expires) := by
  have hsame : base.expires t = expires ∧ base.pending t ↔
      (armed start tr t).map Added.expires = some expires := by
    rw [h.pending_iff t, map_eq_some_iff]
    constructor
    · rintro ⟨hexp, a, ha⟩
      exact ⟨a, ha, by rw [← h.expires t a ha, hexp]⟩
    · rintro ⟨a, ha, hexp⟩
      exact ⟨by rw [h.expires t a ha, hexp], a, ha⟩
  rw [modTimer]
  by_cases hold : (armed start tr t).map Added.expires = some expires
  · have harmed : armed start (.mod t expires :: tr) = armed start tr := by
      funext x
      rw [armed, if_neg (fun hx => hx.2 hold)]
    rw [if_pos (hsame.mpr hold)]
    refine ⟨?_, fun x a ha => h.expires x a (by rwa [harmed] at ha)⟩
    have hdue : dueAt start (.mod t expires :: tr) = dueAt start tr := by
      funext x
      rw [dueAt, harmed, dueAt]
    rw [hdue]
    exact h.inv
  · rw [if_neg (fun hs => hold (hsame.mp hs))]
    refine h.added rfl fun x => ?_
    rw [armed]
    simp [hold]

omit h in
theorem runTimer_eq_some {base' : Base c Timer} (h : runTimer base = some (t, base')) :
    base.work.head? = some t ∧ base' = detachTimer base t true := by
  rw [runTimer, map_eq_some_iff] at h
  obtain ⟨u, hu, heq⟩ := h
  cases heq
  exact ⟨hu, rfl⟩

/-- **Every step keeps the invariant.** -/
theorem Good.step {e : Event c Timer} {base' : Base c Timer}
    (hstep : Step base e base') : Good start (e :: tr) base' := by
  cases hstep with
  | add | modAlways => exact h.added rfl fun _ => rfl
  | mod t expires => exact h.modified t expires
  | del t =>
    rw [h.inv.delTimer_eq t]
    exact h.detached rfl fun _ => rfl
  | tick jiffies => exact ⟨{ h.inv with }, h.expires⟩
  | iterate hwork =>
    refine ⟨h.inv.startIteration hwork, fun t a ha => ?_⟩
    rw [← h.expires t a ha, startIteration]
    rw [(cascadeTimers_same base).expires]
  | run hrun =>
    obtain ⟨-, rfl⟩ := runTimer_eq_some hrun
    exact h.detached rfl fun _ => rfl

end

theorem good_of_reach (h : (system Timer start).Reach tr base) : Good start tr base :=
  h.invariant (fun _ hs => Empty.good hs) (fun _ _ _ _ hg hs => hg.step hs)

/-! ## The iterations go on -/

/-- The timers of the iteration under way run one after another. -/
theorem reach_runs {pre post : List Timer} (h : (system Timer start).Reach tr base)
    (hwork : base.work = pre ++ post) :
    ∃ base', (system Timer start).Reach ((pre.map Event.run).reverse ++ tr) base' ∧
      base'.work = post ∧ base'.jiffies = base.jiffies ∧
      base'.timerJiffies = base.timerJiffies := by
  induction pre generalizing tr base with
  | nil => exact ⟨base, h, hwork, rfl, rfl⟩
  | cons u pre ih =>
    have hrun : runTimer base = some (u, detachTimer base u true) := by
      rw [runTimer, hwork]
      rfl
    have hnext : (detachTimer base u true).work = pre ++ post := by
      rw [detachTimer, hwork]
      exact erase_cons_head u (pre ++ post)
    obtain ⟨base', hreach, hrest⟩ := ih (h.step (Step.run hrun)) hnext
    refine ⟨base', ?_, hrest⟩
    rwa [List.map_cons, List.reverse_cons, List.append_assoc]

theorem armed_runs (start : BitVec c.W) (tr : List (Event c Timer))
    (ht : t ∉ us) : armed start ((us.map Event.run).reverse ++ tr) t = armed start tr t ∧
      now start ((us.map Event.run).reverse ++ tr) = now start tr := by
  induction us generalizing tr with
  | nil => exact ⟨rfl, rfl⟩
  | cons u us ih =>
    obtain ⟨hne, hus⟩ := not_or.mp (fun h => ht (mem_cons.mpr h))
    obtain ⟨harmed, hnow⟩ := ih (.run u :: tr) hus
    rw [List.map_cons, List.reverse_cons, List.append_assoc]
    exact ⟨harmed.trans (if_neg hne), hnow⟩

omit [DecidableEq Timer] in
theorem ofRunTimers_of_mem (he : e ∈ (us.map Event.run).reverse) : e.OfRunTimers := by
  rw [List.mem_reverse, List.mem_map] at he
  obtain ⟨u, -, rfl⟩ := he
  exact trivial

/-- One tick less is left after an iteration. -/
theorem toInt_sub_one {x : BitVec c.W} (h : 0 < x.toInt) : (x - 1#c.W).toInt = x.toInt - 1 := by
  have hword := c.word
  have hlt := two_mul_toInt_lt (x := x)
  rw [toInt_sub, toInt_one (by omega)]
  refine Int.bmod_eq_of_le ?_ ?_
  · have hpos := Nat.two_pow_pos c.W
    omega
  · push_cast
    omega

theorem startIteration_jiffies (base : Base c Timer) :
    (startIteration base).jiffies = base.jiffies := (cascadeTimers_same base).jiffies

/-- A timer that is due runs, if nothing but the iterations happens and the time has come. -/
theorem reach_run (h : (system Timer start).Reach tr base) (ha : armed start tr t = some a)
    (hj : now start tr ≤ a.due →
      (a.due : ℤ) - now start tr ≤ (base.jiffies - base.timerJiffies).toInt) :
    ∃ tr' base', (∀ e ∈ tr', e.OfRunTimers) ∧
      (system Timer start).Reach (.run t :: (tr' ++ tr)) base' := by
  have hgood := good_of_reach h
  have hdue : dueAt start tr t = some a.due := by rw [dueAt, ha, map_some]
  -- by induction on the number of iterations that are left
  induction hd : a.due + 1 - now start tr generalizing tr base with
  | zero =>
    have hmem : t ∈ base.work := by
      rcases hgood.inv.le_due hdue with hle | ⟨hmem, -⟩
      · omega
      · exact hmem
    obtain ⟨pre, post, hwork⟩ := append_of_mem hmem
    obtain ⟨base', hreach, hwork', -⟩ := reach_runs h hwork
    have hrun : runTimer base' = some (t, detachTimer base' t true) := by
      rw [runTimer, hwork']
      rfl
    exact ⟨_, _, fun e he => ofRunTimers_of_mem he, hreach.step (Step.run hrun)⟩
  | succ d ih =>
    have hle : now start tr ≤ a.due := by omega
    have hnot : t ∉ base.work := by
      intro hmem
      obtain ⟨k, hk, hnext⟩ := hgood.inv.work t hmem
      obtain rfl : a.due = k := some.inj (hdue.symm.trans hk)
      omega
    obtain ⟨base', hreach, hwork', hjiffies, htime⟩ := reach_runs h (append_nil _).symm
    obtain ⟨harmed, hnow⟩ := armed_runs start tr hnot
    have hleft := hj hle
    have hiter : Step base' .iterate (startIteration base') := by
      refine Step.iterate hwork' ?_
      rw [hjiffies, htime]
      exact le_trans (by omega) hleft
    have hreach' := hreach.step hiter
    have hgood' := good_of_reach hreach'
    have harmed' := harmed.trans ha
    have hnow' : now start (.iterate :: ((base.work.map Event.run).reverse ++ tr)) =
        now start tr + 1 := by rw [now, hnow]
    have hj' : now start tr + 1 ≤ a.due → (a.due : ℤ) - (now start tr + 1 : ℕ) ≤
        ((startIteration base').jiffies - (startIteration base').timerJiffies).toInt := by
      intro hle'
      rw [hgood.inv.time] at hleft
      rw [startIteration_jiffies, hgood'.inv.time, hnow', hjiffies, ofNat_add,
        sub_add_eq_sub_sub, toInt_sub_one (by omega)]
      omega
    rw [← hnow'] at hj'
    obtain ⟨tr'', base'', hall, hrun⟩ := ih hreach' harmed' hj' hgood'
      (by rw [dueAt]; exact congrArg (Option.map Added.due) harmed') (by rw [hnow']; omega)
    refine ⟨tr'' ++ .iterate :: (base.work.map Event.run).reverse, base'', ?_, ?_⟩
    · intro e he
      rcases mem_append.mp he with he | he
      · exact hall e he
      rcases mem_cons.mp he with rfl | he
      · exact trivial
      · exact ofRunTimers_of_mem he
    · rwa [List.append_assoc, List.cons_append]

/-! ## The theorem -/

/-- Timers are on time. -/
structure OnTime (start : BitVec c.W) (tr : List (Event c Timer)) (base : Base c Timer) :
    Prop where
  /-- The next iteration has the number that the history says. -/
  time : base.timerJiffies = BitVec.ofNat c.W (now start tr)
  /-- A timer is pending from when it is added until it runs or is deleted. -/
  pending : ∀ t, base.pending t = true ↔ ∃ a, armed start tr t = some a
  /-- A timer only runs if it was added, has not run since then and was not deleted.  The iteration
  is the one with `timer_jiffies` equal to `expires`, if that was ahead when the timer was added,
  and else the next one. -/
  run : ∀ t base', Step base (.run t) base' → ∃ a, armed start tr t = some a ∧
    now start tr = a.due + 1 ∧
    if a.Ahead then base.timerJiffies = a.expires + 1 else now start tr = a.before + 1
  /-- No iteration begins before all timers that were due in earlier ones have run. -/
  iterate : ∀ base', Step base .iterate base' →
    ∀ t a, armed start tr t = some a → now start tr ≤ a.due
  /-- A timer that is due runs, as soon as `jiffies` allows the iterations up to its own. -/
  runs : ∀ t a, armed start tr t = some a →
    (now start tr ≤ a.due →
      (a.due : ℤ) - now start tr ≤ (base.jiffies - base.timerJiffies).toInt) →
    ∃ tr' base', (∀ e ∈ tr', e.OfRunTimers) ∧
      (system Timer start).Reach (.run t :: (tr' ++ tr)) base'

/-- **Main theorem.**  In every run of a base, each timer runs exactly once for each time it is
added, in the iteration in which it is due, unless it is deleted or added again before. -/
theorem timers_on_time (start : BitVec c.W) {tr : List (Event c Timer)} {base : Base c Timer}
    (h : (system Timer start).Reach tr base) : OnTime start tr base := by
  have hgood := good_of_reach h
  refine ⟨hgood.inv.time, hgood.pending_iff, ?_, ?_, fun t a ha hj => reach_run h ha hj⟩
  · intro t base' hstep
    cases hstep with
    | run hrun =>
      have hmem : t ∈ base.work := mem_of_mem_head? (runTimer_eq_some hrun).1
      obtain ⟨k, hk, hnext⟩ := hgood.inv.work t hmem
      rw [dueAt, map_eq_some_iff] at hk
      obtain ⟨a, ha, rfl⟩ := hk
      refine ⟨a, ha, hnext.symm, ?_⟩
      split_ifs with hahead
      · rw [hgood.inv.time, ← hnext, (Added.ahead_due hahead).expires_eq, ofNat_add]
        rfl
      · rw [← hnext, Added.due, if_neg hahead]
  · intro base' hstep t a ha
    cases hstep with
    | iterate hwork =>
      have hdue : dueAt start tr t = some a.due := by rw [dueAt, ha, map_some]
      rcases hgood.inv.le_due hdue with hle | ⟨hmem, -⟩
      · exact hle
      · rw [hwork] at hmem
        exact absurd hmem not_mem_nil

/-- A base without timers, at the time zero. -/
def idle : Base (Config.large 32 le_rfl) Unit where
  timerJiffies := 0
  tv _ _ := []
  work := []
  expires _ := 0
  pending _ := false
  jiffies := 0

/-- A timer that expires 256 iterations ahead is put into `tv2`.  Iterations of `__run_timers` alone
then lead to its run. -/
theorem timers_on_time_cascaded :
    place (Config.large 32 le_rfl) 0 256 = (1, 1) ∧
    ∃ tr : List (Event (Config.large 32 le_rfl) Unit), ∃ base, (∀ e ∈ tr, e.OfRunTimers) ∧
      OnTime 0 (.run () :: (tr ++ [.tick 256, .add () 256])) base := by
  have hreach : (system Unit 0).Reach [.tick 256, .add () 256]
      { modTimerAlways idle () 256 with jiffies := 256 } :=
    .step (.step (.init ⟨rfl, fun _ _ => rfl, rfl, fun _ => rfl⟩) (.add rfl)) (.tick 256)
  -- used once for the steps that lead to the run, and once for the state behind it
  obtain ⟨tr, base, hsteps, hrun⟩ :=
    (timers_on_time 0 hreach).runs () ⟨256, 0⟩ rfl fun _ => by decide
  exact ⟨by decide, tr, base, hsteps, timers_on_time 0 hrun⟩

end Gp2xKernel.TimerWheel
