import Gp2xKernel.Library.Run
import Gp2xKernel.Serial.Driver

/-!
# Runs of the serial driver

The serial core starts a port up, uses it, and shuts it down again, any number of times.  While
the port is open, each line is held, and its flag says whether it is enabled; so `shutdown`, which
frees the lines whose flag is set, leaves a line behind when it has been stopped before.

In a run all obligations towards the interrupt layer are met exactly when every `shutdown` finds
both flags set.  The serial core does not see to that: `uart_close` calls `stop_rx` just before it
shuts the port down, and the transmit interrupt stops its line whenever the buffer has drained.

## Main definitions

* `Event`, `exec`, `system`: the operations, in the orders in which the serial core uses them
* `Sound`: what the driver owes to the interrupt layer

## Main results

* `Inv`, `exec_inv`: what holds in every run, whatever the order of the operations
* `exec_good`: a step that is no shutdown of a stopped line keeps the obligations
* `irqs_sound_iff`: the runs in which the obligations are met in every state
-/

namespace Gp2xKernel.Serial

open Library

/-! ## The runs -/

/-- The operations on a port.  `core` is what the serial core itself changes in the port between
calls of the driver. -/
inductive Event
  | startup (txFails rxFails : Option Errno)
  | startTx
  | stopTx
  | stopRx
  | txInt (stopped : Bool) (fstatus : ℕ → BitVec 16)
  | rxInt (reads : ℕ → RxRead)
  | core (xmit : CircBuf) (xChar : BitVec 8) (readStatusMask ignoreStatusMask : BitVec 32)
  | shutdown

/-- The operations that are for open ports only. -/
def whenOpen (p q : Port) : Option Port := if p.initialized then some q else none

/-- The effect of an operation, where the serial core makes use of it. -/
def exec (p : Port) : Event → Option Port
  | .startup txFails rxFails =>
    if p.initialized then none else some (uartStartup p txFails rxFails)
  | .startTx => whenOpen p (startTx p)
  | .stopTx => whenOpen p (stopTx p)
  | .stopRx => whenOpen p (stopRx p)
  | .txInt stopped fstatus => whenOpen p (txInt stopped fstatus p)
  | .rxInt reads => whenOpen p (rxInt reads p)
  | .core xmit xChar readStatusMask ignoreStatusMask =>
    whenOpen p { p with
      xmit := xmit
      xChar := xChar
      readStatusMask := readStatusMask
      ignoreStatusMask := ignoreStatusMask }
  | .shutdown => whenOpen p (uartShutdown p)

/-- A port before its first startup. -/
structure Closed (p : Port) : Prop where
  initialized : p.initialized = false
  action : ∀ l, (p.irqs.desc l).action = false
  log : p.irqs.log = []

/-- The runs of a port. -/
def system (p₀ : Port) : System Port Event where
  init p := p = p₀
  step _ p e p' := exec p e = some p'

/-- **What the driver owes to the interrupt layer**: only allowed calls, each successful request
freed once when the port is closed, and a disable depth of at most 1 while a line is held. -/
structure Sound (p : Port) : Prop where
  balanced : Balanced p.irqs.log
  freed : ∀ l, frees l p.irqs.log + (p.irqs.desc l).action.toNat = requests l p.irqs.log
  closed : p.initialized = false → ∀ l, (p.irqs.desc l).action = false
  depth_le : ∀ l, (p.irqs.desc l).action = true → (p.irqs.desc l).depth ≤ 1

/-! ## What holds in every run -/

/-- The descriptors follow the log; while the port is open, both lines are held, and the flag of a
line says whether it is enabled. -/
structure Inv (p : Port) : Prop where
  tracks : p.irqs.Tracks
  action : p.initialized = true → ∀ l, (p.irqs.desc l).action = true
  depth : p.initialized = true → ∀ l, (p.irqs.desc l).depth = if p.claimed l then 0 else 1

variable {p q : Port} {l : Line}

theorem Inv.sameIrqs (h : Inv p) (hq : SameIrqs p q) : Inv q where
  tracks := hq.irqs ▸ h.tracks
  action := by
    rw [hq.irqs, hq.initialized]
    exact h.action
  depth := by
    rw [hq.irqs, hq.initialized, hq.claimed]
    exact h.depth

section

variable (h : Inv p) (ho : p.initialized = true)
include h ho

/-- A call that switches the line `l` of an open port together with its flag. -/
theorem Inv.switch {d : IrqDesc} {c : IrqCall} {v : Bool}
    (ht : (p.irqs.record l d c).Tracks) (ha : d.action = true)
    (hd : d.depth = if v then 0 else 1) :
    Inv ({ p with irqs := p.irqs.record l d c }.claim l v) := by
  refine ⟨ht, fun _ l' => ?_, fun _ l' => ?_⟩
  · by_cases hl : l' = l
    · subst hl
      simpa [Port.claim] using ha
    · simpa [Port.claim, Irqs.record_desc_of_ne _ hl] using h.action ho l'
  · by_cases hl : l' = l
    · subst hl
      simpa [Port.claim] using hd
    · simpa [Port.claim, Irqs.record_desc_of_ne _ hl, Function.update_of_ne hl] using h.depth ho l'

theorem Inv.startTx : Inv (startTx p) := by
  rw [Serial.startTx]
  split_ifs with hc
  · exact h
  · refine h.switch ho h.tracks.enableIrq (h.action ho .tx) ?_
    simp [h.depth ho .tx, hc]

theorem Inv.stopLine : Inv (stopLine l p) := by
  rw [Serial.stopLine]
  split_ifs with hc
  · refine h.switch ho h.tracks.disableIrq (h.action ho l) ?_
    simp [h.depth ho l, hc]
  · exact h

theorem Inv.txInt (stopped : Bool) (fstatus : ℕ → BitVec 16) : Inv (txInt stopped fstatus p) := by
  obtain ⟨q, hq, he | he⟩ := txInt_cases stopped fstatus p
  · rw [he]
    exact h.sameIrqs hq
  · rw [he]
    exact (h.sameIrqs hq).stopLine (hq.initialized.trans ho)

end

/-! ## Startup -/

variable {l' : Line} {e : Event} {p₀ : Port}

/-- A request fails, or the line is free and held from now on. -/
theorem requestIrq_cases (irqs : Irqs) (l : Line) (fails : Option Errno) :
    (∃ e, requestIrq irqs l fails =
      (some e, irqs.record l (irqs.desc l) (.request l (some e)))) ∨
    (irqs.desc l).action = false ∧
      requestIrq irqs l fails = (none, irqs.record l ⟨true, 0⟩ (.request l none)) := by
  cases fails with
  | some e => exact .inl ⟨e, rfl⟩
  | none =>
    rw [requestIrq]
    split_ifs with ha
    · exact .inl ⟨.EBUSY, rfl⟩
    · exact .inr ⟨by simpa using ha, rfl⟩

/-- The outcomes of `uart_startup` on a closed port: the first request fails, the second request
fails and the first is taken back, or both lines are held and enabled. -/
theorem uartStartup_cases (ho : p.initialized = false) (txFails rxFails : Option Errno) :
    let q := uartStartup p txFails rxFails
    (∃ e, q.initialized = false ∧
      q.irqs = p.irqs.record .tx (p.irqs.desc .tx) (.request .tx (some e))) ∨
    ((p.irqs.desc .tx).action = false ∧ ∃ e, q.initialized = false ∧
      let irqs := p.irqs.record .tx ⟨true, 0⟩ (.request .tx none)
      q.irqs = freeIrq (irqs.record .rx (irqs.desc .rx) (.request .rx (some e))) .tx) ∨
    ((∀ l, (p.irqs.desc l).action = false) ∧ q.initialized = true ∧ (∀ l, q.claimed l = true) ∧
      q.irqs = (p.irqs.record .tx ⟨true, 0⟩ (.request .tx none)).record .rx ⟨true, 0⟩
        (.request .rx none)) := by
  intro q
  have hq : q = uartStartup p txFails rxFails := rfl
  rw [uartStartup, if_neg (by simp [ho]), startup] at hq
  rcases requestIrq_cases p.irqs .tx txFails with ⟨e, htx⟩ | ⟨hfree, htx⟩
  · simp only [htx] at hq
    exact .inl ⟨e, by rw [hq]; exact ho, by rw [hq]⟩
  · rcases requestIrq_cases (p.irqs.record .tx ⟨true, 0⟩ (.request .tx none)) .rx rxFails with
      ⟨e, hrx⟩ | ⟨hfree', hrx⟩
    · simp only [htx, hrx] at hq
      exact .inr (.inl ⟨hfree, e, by rw [hq]; exact ho, by rw [hq]⟩)
    · -- both requests succeed
      simp only [htx, hrx] at hq
      refine .inr (.inr ⟨fun l => ?_, by rw [hq], fun l => ?_, by rw [hq]; rfl⟩)
      · cases l
        · exact hfree
        · exact hfree'
      · rw [hq]
        cases l <;> rfl

theorem Inv.uartStartup (h : Inv p) (ho : p.initialized = false) (txFails rxFails : Option Errno) :
    Inv (uartStartup p txFails rxFails) := by
  have hone := h.tracks.requestIrq_none (l := .tx)
  obtain ⟨e, hi, hq⟩ | ⟨-, e, hi, hq⟩ | ⟨-, hi, hc, hq⟩ := uartStartup_cases ho txFails rxFails
  · refine ⟨?_, by simp [hi], by simp [hi]⟩
    rw [hq]
    exact h.tracks.requestIrq_some e
  · refine ⟨?_, by simp [hi], by simp [hi]⟩
    rw [hq]
    exact (hone.requestIrq_some e).freeIrq
  · refine ⟨hq ▸ hone.requestIrq_none, fun _ l => ?_, fun _ l => ?_⟩
    · rw [hq]
      cases l <;> rfl
    · rw [hq, hc l]
      cases l <;> rfl

/-! ## Shutdown -/

@[simp] theorem releaseLine_initialized (l : Line) (p : Port) :
    (releaseLine l p).initialized = p.initialized := by
  rw [releaseLine]
  split_ifs
  · rfl
  · rfl

theorem releaseLine_claimed_of_ne (h : l' ≠ l) (p : Port) :
    (releaseLine l p).claimed l' = p.claimed l' := by
  rw [releaseLine]
  split_ifs
  · exact Function.update_of_ne h ..
  · rfl

theorem releaseLine_action_of_ne (h : l' ≠ l) (p : Port) :
    ((releaseLine l p).irqs.desc l').action = (p.irqs.desc l').action := by
  rw [releaseLine]
  split_ifs
  · exact congrArg IrqDesc.action (Irqs.record_desc_of_ne _ h ..)
  · rfl

theorem releaseLine_tracks (h : p.irqs.Tracks) : (releaseLine l p).irqs.Tracks := by
  rw [releaseLine]
  split_ifs
  · exact h.freeIrq
  · exact h

/-- A line whose flag is set is freed, and no other. -/
theorem releaseLine_action_self (l : Line) (p : Port) :
    ((releaseLine l p).irqs.desc l).action = ((p.irqs.desc l).action && !p.claimed l) := by
  rw [releaseLine]
  split_ifs with hc
  · rw [hc, Bool.not_true, Bool.and_false]
    exact congrArg IrqDesc.action (Irqs.record_desc_self ..)
  · rw [Bool.eq_false_of_not_eq_true hc, Bool.not_false, Bool.and_true]

theorem shutdown_initialized (p : Port) : (shutdown p).initialized = p.initialized := by
  rw [shutdown, releaseLine_initialized, releaseLine_initialized]

/-- **`shutdown` frees exactly the lines whose flag is set.** -/
theorem shutdown_action (p : Port) (l : Line) :
    ((shutdown p).irqs.desc l).action = ((p.irqs.desc l).action && !p.claimed l) := by
  rw [shutdown]
  cases l with
  | tx => rw [releaseLine_action_of_ne (by decide), releaseLine_action_self]
  | rx =>
    rw [releaseLine_action_self, releaseLine_action_of_ne (by decide),
      releaseLine_claimed_of_ne (by decide)]

theorem uartShutdown_eq (ho : p.initialized = true) :
    uartShutdown p = shutdown { p with initialized := false } := if_pos ho

theorem Inv.uartShutdown (h : Inv p) (ho : p.initialized = true) : Inv (uartShutdown p) := by
  rw [uartShutdown_eq ho]
  have hi : (shutdown { p with initialized := false }).initialized = false :=
    shutdown_initialized _
  exact ⟨releaseLine_tracks (releaseLine_tracks h.tracks), by simp [hi], by simp [hi]⟩

/-! ## One step -/

theorem whenOpen_eq_some {r : Port} (h : whenOpen p r = some q) : p.initialized = true ∧ r = q := by
  rw [whenOpen] at h
  split_ifs at h with ho
  exact ⟨ho, Option.some.inj h⟩

/-- The steps of a run. -/
theorem exec_cases (h : exec p e = some q) :
    (∃ txFails rxFails, e = .startup txFails rxFails ∧ p.initialized = false ∧
      uartStartup p txFails rxFails = q) ∨
    (p.initialized = true ∧
      (startTx p = q ∨ (∃ l, stopLine l p = q) ∨
        (∃ stopped fstatus, txInt stopped fstatus p = q) ∨ SameIrqs p q ∨
        e = .shutdown ∧ uartShutdown p = q)) := by
  cases e with
  | startup txFails rxFails =>
    rw [exec] at h
    split_ifs at h with ho
    exact .inl ⟨txFails, rxFails, rfl, by simpa using ho, Option.some.inj h⟩
  | startTx =>
    obtain ⟨ho, hq⟩ := whenOpen_eq_some h
    exact .inr ⟨ho, .inl hq⟩
  | stopTx =>
    obtain ⟨ho, hq⟩ := whenOpen_eq_some h
    exact .inr ⟨ho, .inr (.inl ⟨.tx, hq⟩)⟩
  | stopRx =>
    obtain ⟨ho, hq⟩ := whenOpen_eq_some h
    exact .inr ⟨ho, .inr (.inl ⟨.rx, hq⟩)⟩
  | txInt stopped fstatus =>
    obtain ⟨ho, hq⟩ := whenOpen_eq_some h
    exact .inr ⟨ho, .inr (.inr (.inl ⟨stopped, fstatus, hq⟩))⟩
  | rxInt reads =>
    obtain ⟨ho, rfl⟩ := whenOpen_eq_some h
    exact .inr ⟨ho, .inr (.inr (.inr (.inl (rxInt_sameIrqs reads p))))⟩
  | core xmit xChar readStatusMask ignoreStatusMask =>
    obtain ⟨ho, rfl⟩ := whenOpen_eq_some h
    exact .inr ⟨ho, .inr (.inr (.inr (.inl ⟨rfl, rfl, rfl⟩)))⟩
  | shutdown =>
    obtain ⟨ho, hq⟩ := whenOpen_eq_some h
    exact .inr ⟨ho, .inr (.inr (.inr (.inr ⟨rfl, hq⟩)))⟩

/-- **What holds in every run** is kept by every operation. -/
theorem exec_inv (hp : Inv p) (h : exec p e = some q) : Inv q := by
  obtain ⟨txFails, rxFails, -, ho, rfl⟩ |
    ⟨ho, rfl | ⟨l, rfl⟩ | ⟨stopped, fstatus, rfl⟩ | hsame | ⟨-, rfl⟩⟩ := exec_cases h
  · exact hp.uartStartup ho txFails rxFails
  · exact hp.startTx ho
  · exact hp.stopLine ho
  · exact hp.txInt ho stopped fstatus
  · exact hp.sameIrqs hsame
  · exact hp.uartShutdown ho

/-! ## The obligations -/

/-- Only allowed calls so far, and no line held by a closed port. -/
structure Good (p : Port) : Prop where
  balanced : Balanced p.irqs.log
  closed : p.initialized = false → ∀ l, (p.irqs.desc l).action = false

theorem Good.sound (hg : Good p) (hp : Inv p) : Sound p where
  balanced := hg.balanced
  freed l := by
    rw [hp.tracks.action l]
    exact hg.balanced.frees_add l
  closed := hg.closed
  depth_le l ha := by
    cases ho : p.initialized with
    | false =>
      rw [hg.closed ho l] at ha
      cases ha
    | true =>
      rw [hp.depth ho l]
      split_ifs <;> omega

theorem Good.sameIrqs (hg : Good p) (hq : SameIrqs p q) : Good q where
  balanced := hq.irqs ▸ hg.balanced
  closed := by
    rw [hq.irqs, hq.initialized]
    exact hg.closed

theorem Good.of_open (hb : Balanced p.irqs.log) (ho : p.initialized = true) : Good p :=
  ⟨hb, by simp [ho]⟩

section

variable (hg : Good p)
include hg

theorem Good.stopLine (hp : Inv p) (ho : p.initialized = true) : Good (stopLine l p) := by
  rw [Serial.stopLine]
  split_ifs
  · exact .of_open (.call hg.balanced ((hp.tracks.action l).symm.trans (hp.action ho l))) ho
  · exact hg

theorem Good.startTx (hp : Inv p) (ho : p.initialized = true) : Good (startTx p) := by
  rw [Serial.startTx]
  split_ifs with hc
  · exact hg
  · -- the flag is clear, so the line has been disabled
    have ha := hp.action ho .tx
    refine .of_open (.call hg.balanced ⟨(hp.tracks.action .tx).symm.trans ha, ?_⟩) ho
    rw [← hp.tracks.depth .tx ha, hp.depth ho .tx, if_neg hc]
    exact Nat.one_pos

theorem Good.txInt (hp : Inv p) (ho : p.initialized = true) (stopped : Bool)
    (fstatus : ℕ → BitVec 16) : Good (txInt stopped fstatus p) := by
  obtain ⟨q, hq, he | he⟩ := txInt_cases stopped fstatus p
  · rw [he]
    exact hg.sameIrqs hq
  · rw [he]
    exact (hg.sameIrqs hq).stopLine (hp.sameIrqs hq) (hq.initialized.trans ho)

/-- A startup requests each line when it is free, and gives the first back when the second cannot
be had. -/
theorem Good.uartStartup (hp : Inv p) (ho : p.initialized = false)
    (txFails rxFails : Option Errno) : Good (uartStartup p txFails rxFails) := by
  have hfree : ∀ l, heldIn l p.irqs.log = false := fun l =>
    (hp.tracks.action l).symm.trans (hg.closed ho l)
  have hone : Balanced (.request .tx none :: p.irqs.log) := .call hg.balanced (hfree .tx)
  have hrx : heldIn .rx (.request .tx none :: p.irqs.log) = false := hfree .rx
  obtain ⟨e, -, hq⟩ | ⟨-, e, -, hq⟩ | ⟨-, hi, -, hq⟩ := uartStartup_cases ho txFails rxFails
  · refine ⟨?_, fun _ l => ?_⟩
    · rw [hq]
      exact .call hg.balanced (hfree .tx)
    · rw [hq]
      cases l with
      | tx => exact hg.closed ho .tx
      | rx => exact hg.closed ho .rx
  · refine ⟨?_, fun _ l => ?_⟩
    · rw [hq]
      exact .call (.call hone hrx) rfl
    · rw [hq]
      cases l with
      | tx => rfl
      | rx => exact hg.closed ho .rx
  · refine .of_open ?_ hi
    rw [hq]
    exact .call hone hrx

omit hg in
theorem releaseLine_balanced (ht : p.irqs.Tracks) (ha : (p.irqs.desc l).action = true)
    (hb : Balanced p.irqs.log) : Balanced (releaseLine l p).irqs.log := by
  rw [releaseLine]
  split_ifs
  · exact .call hb ((ht.action l).symm.trans ha)
  · exact hb

/-- **A shutdown that finds both flags set** frees both lines. -/
theorem Good.uartShutdown (hp : Inv p) (ho : p.initialized = true)
    (hc : ∀ l, p.claimed l = true) : Good (uartShutdown p) := by
  rw [uartShutdown_eq ho]
  set r : Port := { p with initialized := false }
  constructor
  · have ht : r.irqs.Tracks := hp.tracks
    have hone : Balanced (releaseLine .tx r).irqs.log :=
      releaseLine_balanced ht (hp.action ho .tx) hg.balanced
    refine releaseLine_balanced (releaseLine_tracks ht) ?_ hone
    rw [releaseLine_action_of_ne (by decide)]
    exact hp.action ho .rx
  · intro _ l
    rw [shutdown_action, show r.claimed l = true from hc l, Bool.not_true, Bool.and_false]

/-- Every operation meets the obligations, except for a shutdown of a stopped line. -/
theorem exec_good (hp : Inv p) (h : exec p e = some q)
    (hc : e = .shutdown → ∀ l, p.claimed l = true) : Good q := by
  obtain ⟨txFails, rxFails, -, ho, rfl⟩ |
    ⟨ho, rfl | ⟨l, rfl⟩ | ⟨stopped, fstatus, rfl⟩ | hsame | ⟨he, rfl⟩⟩ := exec_cases h
  · exact hg.uartStartup hp ho txFails rxFails
  · exact hg.startTx hp ho
  · exact hg.stopLine hp ho
  · exact hg.txInt hp ho stopped fstatus
  · exact hg.sameIrqs hsame
  · exact hg.uartShutdown hp ho (hc he)

end

/-! ## The runs -/

theorem Closed.inv (h : Closed p₀) : Inv p₀ := by
  have ht : p₀.irqs.Tracks := by
    constructor
    · intro l
      rw [h.action l, h.log]
      rfl
    · intro l ha
      rw [h.action l] at ha
      cases ha
  exact ⟨ht, by simp [h.initialized], by simp [h.initialized]⟩

theorem Closed.good (h : Closed p₀) : Good p₀ :=
  ⟨h.log ▸ .nil, fun _ => h.action⟩

variable {p₀ : Port} {tr : List Event}

theorem reach_inv (h₀ : Closed p₀) (h : (system p₀).Reach tr p) : Inv p := by
  refine h.invariant (P := fun _ p => Inv p) ?_ ?_
  · intro p hp
    rw [show p = p₀ from hp]
    exact h₀.inv
  · intro _ p e q hp hstep
    exact exec_inv hp hstep

theorem reach_unique (h : (system p₀).Reach tr p) (h' : (system p₀).Reach tr q) : p = q := by
  refine h.unique ?_ ?_ h'
  · intro s s' hs hs'
    exact hs.trans hs'.symm
  · intro _ _ _ s1 s2 h1 h2
    exact Option.some.inj (h1.symm.trans h2)

/-- In a run whose shutdowns all find both flags set the obligations are met. -/
theorem reach_good (h₀ : Closed p₀) (h : (system p₀).Reach tr p)
    (hc : ∀ tr' p', Event.shutdown :: tr' <:+ tr → (system p₀).Reach tr' p' →
      ∀ l, p'.claimed l = true) : Good p := by
  induction h with
  | @init s hs =>
    rw [show s = p₀ from hs]
    exact h₀.good
  | @step tr s s' e hr he ih =>
    have hg : Good s := ih fun tr' p' hs => hc tr' p' (hs.trans (List.suffix_cons e tr))
    refine exec_good hg (reach_inv h₀ hr) he ?_
    rintro rfl
    exact hc tr s (List.suffix_refl _) hr

/-- **Main theorem.** In a run of the driver the obligations towards the interrupt layer are met
in every state reached if and only if every shutdown finds both flags set, that is, both lines
enabled. -/
theorem irqs_sound_iff (p₀ : Port) (h₀ : Closed p₀) (tr : List Event) (p : Port)
    (h : (system p₀).Reach tr p) :
    (∀ tr' p', tr' <:+ tr → (system p₀).Reach tr' p' → Sound p') ↔
      ∀ tr' p', Event.shutdown :: tr' <:+ tr → (system p₀).Reach tr' p' →
        ∀ l, p'.claimed l = true := by
  constructor
  · intro hsound tr' p' hs hr l
    -- the port after this shutdown is closed, so its lines are free
    obtain ⟨q, hq⟩ := h.exists_of_suffix hs
    have hclosed := (hsound _ _ hs hq).closed
    cases hq with
    | @step _ s _ _ hr' he =>
      obtain rfl := reach_unique hr hr'
      obtain ⟨ho, rfl⟩ := whenOpen_eq_some (show exec p' .shutdown = some q from he)
      rw [uartShutdown_eq ho] at hclosed
      have hfree := hclosed (shutdown_initialized _) l
      rw [shutdown_action] at hfree
      have hheld : (p'.irqs.desc l).action = true := (reach_inv h₀ hr).action ho l
      simpa [hheld] using hfree
  · intro hc tr' p' hs hr
    refine (reach_good h₀ hr ?_).sound (reach_inv h₀ hr)
    intro tr'' p'' hs' hr'
    exact hc tr'' p'' (hs'.trans hs) hr'

/-- A port with an empty buffer that has never been opened. -/
def closedPort : Port where
  irqs := ⟨fun _ => ⟨false, 1⟩, []⟩
  claimed _ := false
  initialized := false
  xmit := ⟨fun _ => 0, 0, 0⟩
  xChar := 0
  icount := ⟨0, 0, 0, 0, 0⟩
  fifosize := 16
  readStatusMask := 0
  ignoreStatusMask := 0
  ucon := 0
  fcon := 0
  thb := []
  flip := []
  wakeups := 0

theorem closedPort_closed : Closed closedPort := ⟨rfl, fun _ => rfl, rfl⟩

theorem irqs_sound_iff_openClose :
    (∀ tr' p', tr' <:+ [Event.shutdown, .startup none none] →
        (system closedPort).Reach tr' p' → Sound p') ↔
      ∀ tr' p', Event.shutdown :: tr' <:+ [Event.shutdown, .startup none none] →
        (system closedPort).Reach tr' p' → ∀ l, p'.claimed l = true :=
  irqs_sound_iff closedPort closedPort_closed _ _ (.step (.step (.init rfl) rfl) rfl)

/-- **The way `uart_close` goes**: after `stop_rx` the shutdown leaves the receive line held, and
the next startup asks for a line that is held. -/
theorem close_leaks_rx :
    ∃ p, (system closedPort).Reach [.shutdown, .stopRx, .startup none none] p ∧
      p.initialized = false ∧ (p.irqs.desc .rx).action = true ∧ ¬ Sound p ∧
      (startup p none none).1 = some .EBUSY := by
  refine ⟨uartShutdown (stopRx (uartStartup closedPort none none)), ?_, rfl, rfl, ?_, rfl⟩
  · exact .step (.step (.step (.init rfl) rfl) rfl) rfl
  · intro h
    exact absurd (h.closed rfl .rx) (by decide)

end Gp2xKernel.Serial
