import Gp2xKernel.IpFragment.Stored
import Gp2xKernel.Library.Run

/-!
# Reassembly builds the datagram

The life of a queue: fragments arrive in any order, the queue may be started again when it lags
behind, and it may be killed by its timer or for lack of memory.  A fragment is accepted when
`ip_frag_queue` does not return an error for it.

`ip_frag_queue` notes that the last fragment has come before it is known whether this fragment will
be accepted.  When it is not, the datagram is taken to be complete without its last fragment, as
soon as the others fill the length that was noted.

## Main definitions

* `State`, `arrive`, `fragSystem`: a queue and the fragments it has accepted
* `Recorded`: a last fragment is noted only if it is accepted

## Main results

* `stored_of_reach`: what is stored, in all runs
* `reassembly_of_recorded`: when `ip_frag_reasm` is called, and what it builds
* `reasm_without_last`: a datagram without a last fragment
* `refused_same_iff`: when a fragment that is refused leaves the queue alone
-/

namespace Gp2xKernel.IpFragment

open Library List

/-- A queue, and the fragments it has accepted since it was started. -/
structure State where
  qp : Ipq
  accepted : List Skb

namespace State

/-- The queue that a fragment goes to, unless it is refused. -/
def target (s : State) (env : Env) (skb : Skb) : Option State :=
  match admission env s.qp skb with
  | .refused _ _ => none
  | .toQueue qp => some ⟨qp, s.accepted⟩
  | .restarted qp => some ⟨qp, []⟩

/-- A fragment goes to the queue. -/
def enqueue (s : State) (mem : Memory) (skb : Skb) : Outcome × State :=
  ((queueFrag mem s.qp skb).1,
    ⟨(queueFrag mem s.qp skb).2, record (queueFrag mem s.qp skb).1 skb s.accepted⟩)

/-- `ip_frag_queue`, up to the call of `ip_frag_reasm`. -/
def arrive (s : State) (env : Env) (mem : Memory) (skb : Skb) : Outcome × State :=
  match s.target env skb with
  | none => ((ipFragQueue env mem s.qp skb).1, ⟨(ipFragQueue env mem s.qp skb).2, s.accepted⟩)
  | some t => t.enqueue mem skb

/-- Every byte of the datagram is there, and a last fragment has been accepted. -/
def Done (s : State) : Prop :=
  Covers (segs s.qp.fragments) 0 s.qp.len ∧ ∃ skb ∈ s.accepted, skb.moreFragments = false

end State

/-- The model of `ip_frag_queue` is that of the function. -/
theorem arrive_eq (s : State) (env : Env) (mem : Memory) (skb : Skb) :
    ((s.arrive env mem skb).1, (s.arrive env mem skb).2.qp) = ipFragQueue env mem s.qp skb := by
  cases hadmission : admission env s.qp skb <;>
    simp [State.arrive, State.target, State.enqueue, ipFragQueue, hadmission]

/-- What happens to a queue. -/
inductive Event
  | frag (skb : Skb) (env : Env) (mem : Memory) (memory : Bool × Bool)
  | kill

/-- The state after `ip_frag_reasm`, if it is called. -/
def afterReasm (memory : Bool × Bool) (r : Outcome × State) : State :=
  if r.1 = .reasm then ⟨(ipFragReasm memory r.2.qp).2, r.2.accepted⟩ else r.2

/-- One step. -/
def exec (s : State) : Event → State
  | .frag skb env mem memory => afterReasm memory (s.arrive env mem skb)
  | .kill => ⟨ipqKill s.qp, s.accepted⟩

/-- The runs of a queue in which all steps are `ok`. -/
def fragSystem (ok : State → Event → Prop) : System State Event where
  init s := ∃ rid, s = ⟨⟨[], 0, 0, false, false, false, rid⟩, []⟩
  step _ s e s' := ok s e ∧ s' = exec s e

/-- A last fragment whose end is noted will also be accepted: it has bytes, at least one of them is
not in the fragments in front of it, and there is memory for it. -/
def RecordsEnd (qp : Ipq) (mem : Memory) (skb : Skb) : Prop :=
  skb.moreFragments = false → qp.lastIn = false → qp.len ≤ skb.fragEnd →
    skb.payload ≠ [] ∧ mem.pullHeader = true ∧ mem.trim = true ∧
      ∀ s ∈ segs qp.fragments, s.start < skb.offset →
        s.stop < skb.fragEnd ∧ (skb.offset < s.stop → mem.pullPrev = true)

/-- The condition on a step: a last fragment is noted only if it is accepted. -/
def Recorded (s : State) : Event → Prop
  | .frag skb env mem _ => ∀ t ∈ s.target env skb, RecordsEnd t.qp mem skb
  | .kill => True

/-! ## What one fragment changes -/

/-- How `ip_frag_queue` ends, after the length has been noted. -/
structure Ends (noted : Ipq) (o : Outcome) (qp' : Ipq) : Prop where
  len : qp'.len = noted.len
  lastIn : qp'.lastIn = noted.lastIn
  complete : qp'.complete = noted.complete
  outcome : o.accepted = true → o = finished qp'
  shrinks : o.accepted = false →
    ∀ hi, Covers (segs qp'.fragments) 0 hi → Covers (segs noted.fragments) 0 hi

theorem Ends.error (noted : Ipq) (e : Errno) : Ends noted (.error e) noted :=
  ⟨rfl, rfl, rfl, by simp [Outcome.accepted], fun _ _ h => h⟩

variable {qp : Ipq} {accepted : List Skb}

variable {offset fin : ℕ} {o : Outcome} {qp' : Ipq} {skb : Skb} {mem : Memory} {tr : List Event}

section

variable (h : Stored qp accepted)
include h

theorem Stored.placeFrag_ends (mem : Memory) {f : Frag}
    (hplace : IpFragment.placeFrag mem qp (inFront qp offset) (behind qp offset) f fin = (o, qp')) :
    Ends qp o qp' := by
  have heats := h.eats mem.pullNext offset fin
  rw [IpFragment.placeFrag] at hplace
  split_ifs at hplace with hok
  · obtain ⟨rfl, rfl⟩ := Prod.mk.inj hplace
    refine ⟨rfl, rfl, rfl, fun _ => rfl, fun hrefused => ?_⟩
    rw [finished_accepted] at hrefused
    cases hrefused
  · obtain ⟨rfl, rfl⟩ := Prod.mk.inj hplace
    refine ⟨rfl, rfl, rfl, by simp [Outcome.accepted], fun _ hi hcovers p hlo hp => ?_⟩
    -- a position in a piece that was cut is in the piece
    rw [← inFront_append_behind qp offset, segs_append]
    obtain ⟨s, hs, hstart, hstop⟩ := hcovers p hlo hp
    rw [segs_append, mem_append] at hs
    rcases hs with hs | hs
    · exact ⟨s, mem_append.mpr (.inl hs), hstart, hstop⟩
    · obtain ⟨t, ht, n, hn, rfl⟩ := heats.part s hs
      rw [Segment.stop_cut hn.le] at hstop
      exact ⟨t, mem_append.mpr (.inr ht), (Nat.le_add_right _ _).trans hstart, hstop⟩

theorem Stored.queueNoted_ends (mem : Memory)
    (hq : queueNoted mem qp skb = (o, qp')) : Ends qp o qp' := by
  rcases queueNoted_cases mem qp skb with ⟨-, e, hrun⟩ | ⟨-, i, -, -, hrun⟩
  · obtain ⟨rfl, rfl⟩ := Prod.mk.inj (hrun.symm.trans hq)
    exact .error _ _
  · exact h.placeFrag_ends mem (hrun.symm.trans hq)

omit h in
/-- All fragments behind are dropped when they end before `fin`. -/
theorem eatNext_ok {pullNext : Bool} {back : List Frag} (h : ∀ s ∈ segs back, s.stop ≤ fin)
    (meat : ℤ) :
    (eatNext pullNext fin back meat).ok = true := by
  induction back generalizing meat with
  | nil => rfl
  | cons next rest ih =>
    have hstop := h next.seg mem_cons_self
    rw [Segment.stop] at hstop
    rw [eatNext]
    split_ifs with hover hpart hpull
    · rfl
    · omega
    · exact ih (fun s hs => h s (mem_cons_of_mem _ hs)) _
    · rfl

theorem Stored.placeFrag_accepted (mem : Memory) (hfin : qp.len ≤ fin)
    (f : Frag) :
    (IpFragment.placeFrag mem qp (inFront qp offset) (behind qp offset) f fin).1.accepted =
      true := by
  have hback : ∀ s ∈ segs (behind qp offset), s.stop ≤ fin := by
    intro s hs
    exact (h.within s (((dropWhile_sublist _).map Frag.seg).subset hs)).trans hfin
  rw [IpFragment.placeFrag, if_pos (eatNext_ok hback _)]
  exact finished_accepted _

/-- **A last fragment that has bytes of its own is accepted**, if there is memory. -/
theorem Stored.queueNoted_accepted (hmore : skb.moreFragments = false)
    (hlen : qp.len = skb.fragEnd) (hne : skb.payload ≠ []) (hpull : mem.pullHeader = true)
    (htrim : mem.trim = true) (hfront : ∀ s ∈ segs qp.fragments, s.start < skb.offset →
      s.stop < skb.fragEnd ∧ (skb.offset < s.stop → mem.pullPrev = true)) :
    (queueNoted mem qp skb).1.accepted = true := by
  have hend : skb.fragEnd = skb.offset + skb.payload.length := by
    rw [Skb.fragEnd, hmore]
    rfl
  have hpos := length_pos_iff.mpr hne
  rcases queueNoted_cases mem qp skb with ⟨hdown, -⟩ | ⟨-, i, -, -, hrun⟩
  · rcases hdown with hempty | hfail | hfail | ⟨hover, hdown⟩
    · omega
    · simp [hpull] at hfail
    · simp [htrim] at hfail
    · -- the fragment before would have to reach to the end
      cases hlast : (inFront qp skb.offset).getLast? with
      | none =>
        rw [hlast] at hover
        cases hover
      | some prev =>
        have hmem : prev ∈ inFront qp skb.offset := mem_of_getLast? hlast
        have hseg : prev.seg ∈ segs qp.fragments :=
          mem_segs.mpr ⟨prev, (takeWhile_sublist _).subset hmem, rfl⟩
        obtain ⟨hinside, hmemory⟩ :=
          hfront prev.seg hseg (inFront_lt (mem_segs.mpr ⟨prev, hmem, rfl⟩))
        rw [Segment.stop] at hinside hmemory
        rw [hlast, overlap] at hover hdown
        rcases hdown with hdown | hdown
        · omega
        · simp [hmemory (by omega)] at hdown
  · rw [hrun]
    exact h.placeFrag_accepted mem hlen.le _

end

/-! ## A live queue -/

/-- **What holds of a queue that is not complete**: what it stores, that the last fragment was
accepted if its end has been noted, and that something is missing. -/
structure Live (s : State) : Prop where
  stored : Stored s.qp s.accepted
  last : s.qp.lastIn = true → ∃ skb ∈ s.accepted, skb.moreFragments = false
  missing : ¬ s.Done

variable {s : State}

/-- When a last fragment has been accepted, the counts and flags say whether all is there. -/
theorem finished_iff (hstored : Stored qp accepted) (hcomplete : qp.complete = false)
    (hlast : qp.lastIn = true → ∃ skb ∈ accepted, skb.moreFragments = false) :
    finished qp = .reasm ↔ State.Done ⟨qp, accepted⟩ := by
  rw [finished, State.Done]
  rw [hstored.covers_iff]
  constructor
  · intro h
    split_ifs at h with hall
    exact ⟨hall.2.2.2, hlast hall.2.1⟩
  · rintro ⟨hmeat, skb, hskb, hmore⟩
    obtain ⟨hin, hend⟩ := hstored.final skb hskb hmore
    -- the first byte is in a fragment that starts at zero
    have hpos : 0 < qp.len := hend ▸ hstored.pos skb hskb
    obtain ⟨t, ht, hstart, -⟩ := hstored.covers_iff.mpr hmeat 0 le_rfl hpos
    have hfirst := hstored.first t ht (Nat.le_zero.mp hstart)
    rw [if_pos ⟨hfirst, hin, hcomplete, hmeat⟩]

theorem mem_record {skb' : Skb} {accepted : List Skb} (h : skb' ∈ accepted) :
    skb' ∈ record o skb accepted := by
  rw [record]
  split_ifs
  · exact mem_cons_of_mem _ h
  · exact h

/-- A last fragment has been accepted if its end has been noted. -/
theorem Live.last_noted (h : Live s) (hrecords : RecordsEnd s.qp mem skb) {noted : Ipq}
    (hnote : noteEnd s.qp skb = some noted) (hq : queueNoted mem noted skb = (o, qp'))
    (hin : noted.lastIn = true) :
    ∃ skb' ∈ record o skb s.accepted, skb'.moreFragments = false := by
  obtain ⟨len, lastIn, rfl, hlen, -, hlast, hfinal, hmore⟩ := noteEnd_spec hnote
  have hkeep : s.qp.lastIn = true →
      ∃ skb' ∈ record o skb s.accepted, skb'.moreFragments = false := by
    intro hold
    obtain ⟨skb', hskb', hm⟩ := h.last hold
    exact ⟨skb', mem_record hskb', hm⟩
  cases hm : skb.moreFragments with
  | true => exact hkeep ((hmore hm).symm.trans hin)
  | false =>
    cases hold : s.qp.lastIn with
    | true => exact hkeep hold
    | false =>
      obtain ⟨-, hlenEq⟩ := hfinal hm
      obtain ⟨hne, hpull, htrim, hfront⟩ := hrecords hm hold (hlen.trans hlenEq.le)
      have haccepted :=
        (h.stored.noted hlen hlast).queueNoted_accepted hm hlenEq hne hpull htrim hfront
      rw [hq] at haccepted
      refine ⟨skb, ?_, hm⟩
      rw [record, if_pos haccepted]
      exact mem_cons_self

/-- What holds at the end of `ip_frag_queue`, before `ip_frag_reasm` is called. -/
structure Arrived (o : Outcome) (s : State) : Prop where
  stored : Stored s.qp s.accepted
  last : s.qp.lastIn = true → ∃ skb ∈ s.accepted, skb.moreFragments = false
  reasm : o = .reasm ↔ s.Done

theorem Live.arrived (h : Live s) (e : Errno) : Arrived (.error e) s :=
  ⟨h.stored, h.last, iff_of_false (by simp) h.missing⟩

/-- **A fragment goes to a live queue.** -/
theorem Live.enqueue (h : Live s) (hcomplete : s.qp.complete = false)
    (hrecords : RecordsEnd s.qp mem skb) :
    Arrived (s.enqueue mem skb).1 (s.enqueue mem skb).2 := by
  obtain ⟨o, qp', hq⟩ : ∃ o qp', queueFrag mem s.qp skb = (o, qp') := ⟨_, _, rfl⟩
  have hstored := h.stored.queueFrag mem hq
  simp only [State.enqueue, hq]
  rw [IpFragment.queueFrag] at hq
  cases hnote : noteEnd s.qp skb with
  | none =>
    -- the fragment is corrupted, and nothing has changed
    rw [hnote] at hq
    obtain ⟨rfl, rfl⟩ := Prod.mk.inj hq
    exact h.arrived .einval
  | some noted =>
    have hqueue : queueNoted mem noted skb = (o, qp') := by
      rw [hnote] at hq
      exact hq
    have hlastIn := h.last_noted hrecords hnote hqueue
    obtain ⟨len, lastIn, rfl, hlen, hend, hlast, -, -⟩ := noteEnd_spec hnote
    have hends := (h.stored.noted hlen hlast).queueNoted_ends mem hqueue
    rw [← hends.lastIn] at hlastIn
    refine ⟨hstored, hlastIn, ?_⟩
    by_cases haccepted : o.accepted = true
    · have ho := hends.outcome haccepted
      rw [ho] at hstored hlastIn ⊢
      exact finished_iff hstored (hends.complete.trans hcomplete) hlastIn
    · -- nothing was added, so what was missing still is
      have hrefused : o.accepted = false := Bool.not_eq_true _ ▸ haccepted
      refine iff_of_false ?_ ?_
      · rintro rfl
        cases hrefused
      · rintro ⟨hcovers, skb', hskb', hm⟩
        rw [record, if_neg haccepted] at hskb'
        have hin := (h.stored.final skb' hskb' hm).1
        have hsame : qp'.len = s.qp.len := hends.len.trans (hlast hin).2
        have hbefore : Covers (segs s.qp.fragments) 0 s.qp.len :=
          hends.shrinks hrefused _ (hsame ▸ hcovers)
        exact h.missing ⟨hbefore, skb', hskb', hm⟩

/-! ## All runs -/

/-- A queue that is started again is empty. -/
theorem live_reinit (qp : Ipq) : Live ⟨ipFragReinit qp, []⟩ where
  stored := by
    refine ⟨List.Pairwise.nil, ?_, ?_, rfl, ?_, ?_, ?_, ?_⟩ <;> simp [ipFragReinit]
  last h := by cases h
  missing h := by
    obtain ⟨-, skb, hskb, -⟩ := h
    cases hskb

/-- What is stored does not depend on the number of the last fragment of the sender, and not on
whether the queue is complete. -/
theorem Stored.mark (h : Stored qp accepted) (rid : BitVec 32) (complete : Bool) :
    Stored { qp with rid := rid, complete := complete } accepted :=
  ⟨h.ordered, h.nonempty, h.within, h.meat, h.bytes, h.first, h.pos, h.final⟩

theorem Live.mark (h : Live s) (rid : BitVec 32) (complete : Bool) :
    Live ⟨{ s.qp with rid := rid, complete := complete }, s.accepted⟩ :=
  ⟨h.stored.mark rid complete, h.last, h.missing⟩

theorem ipFragTooFar_snd (env : Env) (qp : Ipq) :
    ∃ rid, (ipFragTooFar env qp).2 = { qp with rid := rid } := by
  rw [ipFragTooFar]
  cases env.peerRid with
  | none => exact ⟨qp.rid, rfl⟩
  | some last => exact ⟨last, rfl⟩

/-- **What the start of `ip_frag_queue` does** to a queue that is not complete. -/
theorem admission_cases (hcomplete : qp.complete = false) (env : Env) (skb : Skb) :
    (∃ e rid, admission env qp skb = .refused e { qp with rid := rid, complete := true }) ∨
      (∃ rid, admission env qp skb = .toQueue { qp with rid := rid, complete := false }) ∨
      ∃ qp', qp.fragments ≠ [] ∧ admission env qp skb = .restarted (ipFragReinit qp') := by
  obtain ⟨rid, hrid⟩ := ipFragTooFar_snd env qp
  have hsame : qp = { qp with rid := qp.rid, complete := false } := by rw [← hcomplete]
  simp only [admission, hcomplete, Bool.false_eq_true, if_false]
  split_ifs with _ hfar
  · exact .inr (.inl ⟨qp.rid, congrArg _ hsame⟩)
  · refine .inr (.inr ⟨_, fun hnil => ?_, rfl⟩)
    cases hpeer : env.peerRid <;> simp [ipFragTooFar, hpeer, hnil] at hfar
  · exact .inl ⟨_, rid, by rw [hrid]; rfl⟩
  · exact .inr (.inl ⟨rid, by rw [hrid, ← hcomplete]⟩)

/-- **A fragment arrives at a live queue.** -/
theorem Live.arrive (h : Live s) (hcomplete : s.qp.complete = false) {env : Env}
    (hrecorded : ∀ t ∈ s.target env skb, RecordsEnd t.qp mem skb) :
    Arrived (s.arrive env mem skb).1 (s.arrive env mem skb).2 := by
  rcases admission_cases hcomplete env skb with ⟨e, rid, hadmission⟩ | ⟨rid, hadmission⟩ |
    ⟨qp', -, hadmission⟩
  · simp only [State.arrive, State.target, hadmission, ipFragQueue]
    exact (h.mark rid true).arrived e
  · simp only [State.arrive, State.target, hadmission] at hrecorded ⊢
    exact (h.mark rid false).enqueue rfl (hrecorded _ rfl)
  · simp only [State.arrive, State.target, hadmission] at hrecorded ⊢
    exact (live_reinit qp').enqueue rfl (hrecorded _ rfl)

/-- What is stored when a fragment arrives, whether or not its end is noted rightly. -/
theorem Stored.arrive (h : Stored s.qp s.accepted) (hcomplete : s.qp.complete = false) (env : Env)
    (mem : Memory) (skb : Skb) :
    Stored (s.arrive env mem skb).2.qp (s.arrive env mem skb).2.accepted := by
  rcases admission_cases hcomplete env skb with ⟨e, rid, hadmission⟩ | ⟨rid, hadmission⟩ |
    ⟨qp', -, hadmission⟩
  · simp only [State.arrive, State.target, hadmission, ipFragQueue]
    exact h.mark rid true
  · simp only [State.arrive, State.target, hadmission]
    exact (h.mark rid false).queueFrag mem rfl
  · simp only [State.arrive, State.target, hadmission]
    exact (live_reinit qp').stored.queueFrag mem rfl

theorem exec_complete (hcomplete : s.qp.complete = true) (e : Event) :
    (exec s e).qp.complete = true := by
  cases e with
  | frag skb env mem memory =>
    have hadmission : admission env s.qp skb = .refused .enoent s.qp := by
      rw [admission, if_pos hcomplete]
    simp [exec, afterReasm, State.arrive, State.target, ipFragQueue, hadmission, hcomplete]
  | kill => rfl

theorem afterReasm_of_live {r : Outcome × State} {memory : Bool × Bool}
    (hcomplete : (afterReasm memory r).qp.complete = false) :
    r.1 ≠ .reasm ∧ afterReasm memory r = r.2 := by
  rw [afterReasm] at hcomplete ⊢
  split_ifs at hcomplete ⊢ with hreasm
  · -- `ip_frag_reasm` kills the queue
    rw [ipFragReasm] at hcomplete
    split_ifs at hcomplete <;> cases hcomplete
  · exact ⟨hreasm, rfl⟩

/-- What holds of an empty queue, and still holds when a fragment does not complete it, holds of all
queues that are not complete. -/
theorem invariant_of_reach {ok : State → Event → Prop} {P : State → Prop}
    (hempty : ∀ qp, P ⟨ipFragReinit qp, []⟩)
    (harrive : ∀ {s skb env mem memory}, P s → s.qp.complete = false →
      ok s (.frag skb env mem memory) → (s.arrive env mem skb).1 ≠ .reasm →
        P (s.arrive env mem skb).2)
    (h : (fragSystem ok).Reach tr s) : s.qp.complete = false → P s := by
  refine System.Reach.invariant (P := fun _ s => s.qp.complete = false → P s) ?_ ?_ h
  · rintro s ⟨rid, rfl⟩ -
    exact hempty ⟨[], 0, 0, false, false, false, rid⟩
  · rintro tr s e s' hs ⟨hok, rfl⟩ hcomplete
    cases hbefore : s.qp.complete with
    | true =>
      rw [exec_complete hbefore] at hcomplete
      cases hcomplete
    | false =>
      cases e with
      | frag skb env mem memory =>
        rw [exec] at hcomplete ⊢
        obtain ⟨hnot, heq⟩ := afterReasm_of_live hcomplete
        rw [heq]
        exact harrive (hs hbefore) hbefore hok hnot
      | kill => cases hcomplete

/-- **What is stored**, in all runs. -/
theorem stored_of_reach {ok : State → Event → Prop} :
    (fragSystem ok).Reach tr s → s.qp.complete = false → Stored s.qp s.accepted :=
  invariant_of_reach (P := fun s => Stored s.qp s.accepted) (fun qp => (live_reinit qp).stored)
    fun h hcomplete _ _ => h.arrive hcomplete _ _ _

theorem live_of_reach : (fragSystem Recorded).Reach tr s → s.qp.complete = false → Live s := by
  refine invariant_of_reach live_reinit ?_
  intro s skb env mem memory hlive hcomplete hok hnot
  have harrived := hlive.arrive hcomplete hok
  exact ⟨harrived.stored, harrived.last, fun hdone => hnot (harrived.reasm.mpr hdone)⟩

/-- **Main theorem.**  In a run in which a last fragment is noted only if it is accepted, a queue
that is not complete has fragments in order that do not overlap and lie within its length, `meat`
is the sum of their lengths, each of their bytes is that of an accepted fragment at the same
position, and all last fragments that were accepted end at its length.  The same is so after any
fragment arrives; then `ip_frag_reasm` is called exactly if every byte is there and a last fragment
has been accepted, and what it builds has the length of the queue and at each position the byte of
an accepted fragment. -/
theorem reassembly_of_recorded {tr : List Event} (h : (fragSystem Recorded).Reach tr s)
    (hcomplete : s.qp.complete = false) :
    Stored s.qp s.accepted ∧
      ∀ skb env mem memory, Recorded s (.frag skb env mem memory) →
        ∀ o t, s.arrive env mem skb = (o, t) →
          Stored t.qp t.accepted ∧ (o = .reasm ↔ t.Done) ∧
          (o = .reasm → ∀ out qp', ipFragReasm memory t.qp = (.ok out, qp') →
            out.length = t.qp.len ∧ ∀ p b, out[p]? = some b →
              ∃ skb' ∈ t.accepted, skb'.segment.get? p = some b) := by
  have hlive := live_of_reach h hcomplete
  refine ⟨hlive.stored, ?_⟩
  intro skb env mem memory hrecorded o t harrive
  have harrived := hlive.arrive hcomplete hrecorded
  rw [harrive] at harrived
  refine ⟨harrived.stored, harrived.reasm, ?_⟩
  intro hreasm out qp' hout
  have hfill := harrived.stored.covers_iff.mp (harrived.reasm.mp hreasm).1
  rw [ipFragReasm] at hout
  split_ifs at hout
  · cases (Prod.mk.inj hout).1
  · cases (Prod.mk.inj hout).1
  · cases (Prod.mk.inj hout).1
  · obtain rfl := Except.ok.inj (Prod.mk.inj hout).1
    exact harrived.stored.join hfill

/-- Memory can be had, and no other fragment has come by. -/
def calm : Env × Memory := (⟨none, 64, true⟩, ⟨true, true, true, true⟩)

/-- The first eight bytes of a datagram, with more to come. -/
def firstFrag : Skb := ⟨IP_MF, 20, List.replicate 8 0x61, false⟩

/-- The last eight bytes of a datagram of sixteen. -/
def lastFrag : Skb := ⟨1, 20, List.replicate 8 0x62, false⟩

/-- A fragment without bytes that says that the datagram has eight bytes. -/
def emptyLast : Skb := ⟨1, 20, [], false⟩

/-- The first sixteen bytes of a datagram, with more to come. -/
def longFrag : Skb := ⟨IP_MF, 20, List.replicate 16 0x63, false⟩

/-- A fragment arrives, and there is memory. -/
def arrival (skb : Skb) : Event := .frag skb calm.1 calm.2 (true, true)

/-- A new queue. -/
def newQueue : State := ⟨⟨[], 0, 0, false, false, false, 0⟩, []⟩

/-- The queue after the first fragment. -/
def withFirst : State := exec newQueue (arrival firstFrag)

/-- The second fragment takes the place of the first half of the one before. -/
theorem stored_of_reach_overlap :
    Stored (exec (exec newQueue (arrival longFrag)) (arrival firstFrag)).qp
      [firstFrag, longFrag] := by
  have hreach : (fragSystem fun _ _ => True).Reach [arrival firstFrag, arrival longFrag] _ :=
    .step (.step (.init ⟨0, rfl⟩) ⟨trivial, rfl⟩) ⟨trivial, rfl⟩
  exact stored_of_reach hreach rfl

theorem reassembly_of_recorded_two :
    (withFirst.arrive calm.1 calm.2 lastFrag).1 = .reasm ∧
      (withFirst.arrive calm.1 calm.2 lastFrag).2.Done := by
  have hreach : (fragSystem Recorded).Reach [arrival firstFrag] withFirst := by
    refine .step (.init ⟨0, rfl⟩) ⟨?_, rfl⟩
    intro t _ hmore
    exact absurd hmore (by decide)
  have hrecorded : Recorded withFirst (arrival lastFrag) := by
    intro t ht _ _ _
    obtain rfl := Option.some.inj ht
    refine ⟨by decide, rfl, rfl, ?_⟩
    intro s hs _
    have hsingle : s ∈ [(⟨0, List.replicate 8 0x61⟩ : Segment Byte)] := hs
    rw [mem_singleton.mp hsingle]
    exact ⟨by decide, fun _ => rfl⟩
  have hreasm : (withFirst.arrive calm.1 calm.2 lastFrag).1 = .reasm := by decide
  exact ⟨hreasm, ((reassembly_of_recorded hreach rfl).2 lastFrag calm.1 calm.2
    (true, true) hrecorded _ _
    rfl).2.1.mp hreasm⟩

/-- **A datagram without a last fragment.**  A last fragment without bytes is refused, but its end
is noted; when the first fragment comes again, `ip_frag_reasm` is called, and no last fragment has
been accepted. -/
theorem reasm_without_last :
    (exec withFirst (arrival emptyLast)).accepted = withFirst.accepted ∧
      ((exec withFirst (arrival emptyLast)).arrive calm.1 calm.2 firstFrag).1 =
        .reasm ∧
      ∀ skb ∈ ((exec withFirst (arrival emptyLast)).arrive calm.1 calm.2
        firstFrag).2.accepted, skb.moreFragments = true := by
  refine ⟨rfl, by decide, ?_⟩
  intro skb hskb
  have haccepted : skb ∈ [firstFrag, firstFrag] := hskb
  simp only [mem_cons, not_mem_nil, or_false, or_self] at haccepted
  subst haccepted
  decide

/-! ## A fragment that is refused -/

/-- `len`, `meat`, `last_in` and the fragments are unchanged. -/
def Same (qp qp' : Ipq) : Prop :=
  qp'.len = qp.len ∧ qp'.meat = qp.meat ∧ qp'.firstIn = qp.firstIn ∧ qp'.lastIn = qp.lastIn ∧
    qp'.fragments = qp.fragments

/-- The end of the fragment is nothing new to the queue, or cannot be right. -/
def EndKnown (qp : Ipq) (skb : Skb) : Prop :=
  qp.lastIn = true ∨ if skb.moreFragments then skb.fragEnd ≤ qp.len else skb.fragEnd < qp.len

/-- Nothing new is noted of the fragment, the first fragment behind it is not dropped before memory
runs out, and the queue is not started again for it. -/
def LeftAlone (env : Env) (mem : Memory) (qp : Ipq) (skb : Skb) : Prop :=
  match admission env qp skb with
  | .refused _ _ => True
  | .restarted _ => False
  | .toQueue q => EndKnown q skb ∧ (noteEnd q skb = none ∨ TurnedDown mem q skb ∨
      ∀ f ∈ (behind q skb.offset).head?, skb.fragEnd < f.seg.stop)

theorem noteEnd_same : (∀ noted ∈ noteEnd qp skb, Same qp noted) ↔ EndKnown qp skb := by
  rw [noteEnd, EndKnown]
  split_ifs <;> simp_all [Same] <;> grind

theorem eatNext_length (pullNext : Bool) (fin : ℕ) (back : List Frag) (meat : ℤ) :
    (eatNext pullNext fin back meat).rest.length ≤ back.length := by
  induction back generalizing meat with
  | nil => exact le_rfl
  | cons next rest ih =>
    rw [eatNext]
    split_ifs
    · exact le_rfl
    · exact le_rfl
    · exact (ih _).trans (Nat.le_succ _)
    · exact le_rfl

/-- When the loop runs out of memory, it has changed nothing if it could not cut the first. -/
theorem eatNext_same {pullNext : Bool} {back : List Frag} {meat : ℤ}
    (hok : (eatNext pullNext fin back meat).ok = false) :
    (eatNext pullNext fin back meat).meat = meat ∧ (eatNext pullNext fin back meat).rest = back ↔
      ∀ f ∈ back.head?, fin < f.seg.stop := by
  cases back with
  | nil => cases hok
  | cons next rest =>
    simp only [head?_cons, Option.mem_some_iff, forall_eq', Segment.stop]
    rw [eatNext] at hok ⊢
    split_ifs at hok ⊢ with hover hpart
    · exact iff_of_true ⟨rfl, rfl⟩ (by omega)
    · refine iff_of_false (fun h => ?_) (by omega)
      have hle := eatNext_length pullNext fin rest (meat - next.seg.data.length)
      rw [h.2, length_cons] at hle
      omega

variable {e : Errno}

theorem queueFrag_error (h : queueFrag mem qp skb = (.error e, qp')) :
    noteEnd qp skb = none ∧ qp' = qp ∨ ∃ noted, noteEnd qp skb = some noted ∧
      (TurnedDown mem qp skb ∧ qp' = noted ∨ ¬ TurnedDown mem qp skb ∧ ∃ eaten,
        eatNext mem.pullNext skb.fragEnd (behind qp skb.offset) qp.meat = eaten ∧ eaten.ok = false ∧
        qp' = { noted with
          fragments := inFront qp skb.offset ++ eaten.rest, meat := eaten.meat }) := by
  rw [queueFrag] at h
  cases hnote : noteEnd qp skb with
  | none =>
    rw [hnote] at h
    exact .inl ⟨rfl, (Prod.mk.inj h).2.symm⟩
  | some noted =>
    rw [hnote] at h
    refine .inr ⟨noted, rfl, ?_⟩
    obtain ⟨len, lastIn, rfl, -⟩ := noteEnd_spec hnote
    rcases queueNoted_cases mem { qp with len, lastIn } skb with
      ⟨hdown, _, hrun⟩ | ⟨hdown, i, -, -, hrun⟩
    · exact .inl ⟨hdown, (Prod.mk.inj (hrun.symm.trans h)).2.symm⟩
    · refine .inr ⟨hdown, _, rfl, ?_⟩
      have hplace := hrun.symm.trans h
      rw [placeFrag] at hplace
      split_ifs at hplace with hok
      · have haccepted := congrArg Outcome.accepted (Prod.mk.inj hplace).1
        rw [finished_accepted] at haccepted
        cases haccepted
      · exact ⟨Bool.eq_false_of_not_eq_true hok, (Prod.mk.inj hplace).2.symm⟩

theorem queueFrag_same_iff (h : queueFrag mem qp skb = (.error e, qp')) :
    Same qp qp' ↔ EndKnown qp skb ∧ (noteEnd qp skb = none ∨ TurnedDown mem qp skb ∨
      ∀ f ∈ (behind qp skb.offset).head?, skb.fragEnd < f.seg.stop) := by
  rw [← noteEnd_same]
  rcases queueFrag_error h with
    ⟨hnote, rfl⟩ | ⟨noted, hnote, ⟨hdown, rfl⟩ | ⟨hdown, eaten, heaten, hok, rfl⟩⟩
  · simp [hnote, Same]
  · simp [hnote, hdown]
  · obtain ⟨len, lastIn, rfl, -⟩ := noteEnd_spec hnote
    have hfront : inFront qp skb.offset ++ eaten.rest = qp.fragments ↔
        eaten.rest = behind qp skb.offset := by
      rw [← inFront_append_behind qp skb.offset, append_right_inj]
    subst heaten
    simp only [hnote, hdown, ← eatNext_same hok, Same, hfront, Option.mem_some_iff, forall_eq',
      reduceCtorEq, false_or]
    tauto

/-- **A fragment that is refused** without killing the queue leaves it as it was if and only if the
condition holds. -/
theorem refused_same_iff {env : Env} (h : ipFragQueue env mem qp skb = (.error e, qp'))
    (hlive : qp'.complete = qp.complete) : Same qp qp' ↔ LeftAlone env mem qp skb := by
  cases hcomplete : qp.complete with
  | true =>
    have hadmission : admission env qp skb = .refused .enoent qp := by
      rw [admission, if_pos hcomplete]
    simp only [ipFragQueue, LeftAlone, hadmission] at h ⊢
    obtain ⟨-, rfl⟩ := Prod.mk.inj h
    simp [Same]
  | false =>
    rcases admission_cases hcomplete env skb with
      ⟨e, rid, hadmission⟩ | ⟨rid, hadmission⟩ | ⟨q, hne, hadmission⟩
    · simp only [ipFragQueue, LeftAlone, hadmission] at h ⊢
      obtain ⟨-, rfl⟩ := Prod.mk.inj h
      cases hlive.trans hcomplete
    · simp only [ipFragQueue, LeftAlone, hadmission] at h ⊢
      exact queueFrag_same_iff h
    · -- the fragments are gone
      simp only [ipFragQueue, LeftAlone, hadmission] at h ⊢
      refine iff_of_false (fun hsame => hne (hsame.2.2.2.2.symm.trans ?_)) id
      rcases queueFrag_error h with ⟨-, rfl⟩ | ⟨noted, hnote, ⟨-, rfl⟩ | ⟨-, _, rfl, hok, -⟩⟩
      · rfl
      · obtain ⟨len, lastIn, rfl, -⟩ := noteEnd_spec hnote
        rfl
      · cases hok

/-- A fragment without bytes, with more to come. -/
def emptyMore : Skb := ⟨IP_MF, 20, [], false⟩

/-- A fragment without bytes that is not the last is refused and leaves no trace. -/
theorem refused_same_iff_more :
    ipFragQueue calm.1 calm.2 withFirst.qp emptyMore = (.error .einval, withFirst.qp) ∧
      LeftAlone calm.1 calm.2 withFirst.qp emptyMore := by
  have hrefused : ipFragQueue calm.1 calm.2 withFirst.qp emptyMore =
      (.error .einval, withFirst.qp) := rfl
  exact ⟨hrefused, (refused_same_iff hrefused rfl).mp ⟨rfl, rfl, rfl, rfl, rfl⟩⟩

/-- **State leaks from a fragment that is refused.**  After the first fragment, a last fragment
without bytes is refused, and the queue takes the last fragment to have come. -/
theorem refused_not_same :
    (fragSystem fun _ _ => True).Reach [arrival firstFrag] withFirst ∧
      ∃ qp', ipFragQueue calm.1 calm.2 withFirst.qp emptyLast = (.error .einval, qp') ∧
        qp'.complete = withFirst.qp.complete ∧ ¬ Same withFirst.qp qp' := by
  refine ⟨.step (.init ⟨0, rfl⟩) ⟨trivial, rfl⟩, _, rfl, rfl, ?_⟩
  rintro ⟨-, -, -, hlast, -⟩
  cases hlast

end Gp2xKernel.IpFragment
