import Gp2xKernel.Locks.Ranges

/-!
# The loop over the locks of the owner

The loop passes over the locks before the request, takes those that it covers out of the list, and
stops before the locks behind it.  The request grows when it is merged with a lock of its type.

## Main definitions

* `Inv`: the invariant of the loop
* `Stop`: how the loop ends
* `Turn`: what one turn of the loop does

## Main results

* `Inv.turn_same`, `Inv.turn_other`: every turn keeps the invariant
* `ownerLoop_spec`: the loop keeps the invariant and stops
-/

namespace Gp2xKernel.Locks

open List Function Or

variable {Owner : Type}

/-- Sums that stay within the range of `loff_t`. -/
theorem loff_eq {z : ℤ} (h1 : -1 ≤ z) (h2 : z ≤ offsetMax) : loff z = z := by
  rw [offsetMax] at h2
  exact Int.bmod_eq_of_le (by omega) (by omega)

/-! ## The invariant -/

/-- A request for a range, and the locks that its owner had before. -/
structure Job (Owner : Type) where
  owner : Owner
  type : LockType
  first : ℤ
  last : ℤ
  before : List (FileLock Owner)

/-- The invariant of the loop.  The locks of the owner are those that were passed, `P`, the request
if it is one of them already (`aliased`), and those to come, `B`.  The record `r` of the request
covers what was asked for, and offsets that had the type of the request before. -/
structure Inv (job : Job Owner) (mem : Mem Owner) (P B : List ℕ) (request : ℕ)
    (r : FileLock Owner) (added aliased : Bool) (left : Option ℕ) : Prop where
  mem_request : mem request = r
  owner : r.flOwner = job.owner
  type : r.flType = job.type
  nonneg : 0 ≤ r.flStart
  start_le : r.flStart ≤ job.first
  first_le : job.first ≤ job.last
  le_end : job.last ≤ r.flEnd
  le_max : r.flEnd ≤ offsetMax
  extended : ∀ x, Covers r x → ¬(job.first ≤ x ∧ x ≤ job.last) → Has job.before x job.type
  outside : ∀ x τ, ¬Covers r x → (Has job.before x τ ↔ Has ((P ++ B).map mem) x τ)
  run : IsRun job.owner ((P ++ B).map mem)
  nodup : (request :: (P ++ B)).Nodup
  passed : ∀ p ∈ P, ((mem p).flEnd < r.flStart ∧
      ((mem p).flType = job.type → (mem p).flEnd + 1 < r.flStart)) ∨
    left = some p ∧ (mem p).flType ≠ job.type ∧ (mem p).flStart < r.flStart ∧
      r.flStart ≤ (mem p).flEnd ∧ (mem p).flEnd ≤ r.flEnd
  left_mem : ∀ l, left = some l → l ∈ P ∧ r.flStart ≤ (mem l).flEnd
  ahead : aliased = true → ∀ b ∈ B, r.flStart ≤ (mem b).flStart
  kept : (P ++ B).map mem = job.before ∨ ∀ b ∈ B, r.flStart ≤ (mem b).flStart
  not_added : added = false → (P ++ B).map mem = job.before ∧ aliased = false ∧
    (job.type = .unlck → left = none)
  added_iff : job.type ≠ .unlck → added = aliased
  unlck : job.type = .unlck → aliased = false

/-- How the loop ends: behind the locks that it has to do with, or at a lock that goes on behind
the request. -/
inductive Stop (job : Job Owner) (mem : Mem Owner) (B : List ℕ) (r : FileLock Owner)
    (added : Bool) (left : Option ℕ) : Option ℕ → Option ℕ → Prop
  | past (h : ∀ b ∈ B, r.flEnd < (mem b).flStart ∧
      ((mem b).flType = job.type → r.flEnd + 1 < (mem b).flStart)) :
      Stop job mem B r added left left none
  | cut {b : ℕ} {B' : List ℕ} (hB : B = b :: B') (htype : (mem b).flType ≠ job.type)
      (hstart : (mem b).flStart ≤ r.flEnd) (hend : r.flEnd < (mem b).flEnd)
      (hadded : job.type = .unlck → added = true) :
      Stop job mem B r added left (if (mem b).flStart < r.flStart then some b else left) (some b)

/-- The part of the list that the request makes up. -/
def aliasPart (aliased : Bool) (request : ℕ) : List ℕ := if aliased then [request] else []

section Steps

variable {job : Job Owner} {mem : Mem Owner} {P B : List ℕ} {request fl : ℕ}
  {r : FileLock Owner} {added aliased : Bool} {left : Option ℕ}

theorem Inv.start_le_end (h : Inv job mem P B request r added aliased left) : r.flStart ≤ r.flEnd :=
  (h.start_le.trans h.first_le).trans h.le_end

variable (h : Inv job mem P (fl :: B) request r added aliased left)
include h

/-- The locks of the run around the next one. -/
theorem Inv.next :
    (mem fl).flOwner = job.owner ∧ Valid (mem fl) ∧ (∀ p ∈ P, Before (mem p) (mem fl)) ∧
      ∀ b ∈ B, Before (mem fl) (mem b) := by
  have hrun := h.run
  rw [map_append] at hrun
  obtain ⟨-, hB, hcross⟩ := isRun_append_iff.mp hrun
  refine ⟨hB.owner _ mem_cons_self, hB.valid _ mem_cons_self, fun p hp => ?_, fun b hb => ?_⟩
  · exact hcross _ (mem_map_of_mem hp) _ mem_cons_self
  · exact (pairwise_cons.mp hB.sorted).1 _ (mem_map_of_mem hb)

/-- A lock that begins before the request is met before the request has a place in the list. -/
theorem Inv.aliased_eq_false (hstart : (mem fl).flStart < r.flStart) : aliased = false := by
  by_contra ha
  have := h.ahead (by simpa using ha) fl mem_cons_self
  omega

/-- The next lock is passed. -/
theorem Inv.pass {added' : Bool} {left' : Option ℕ}
    (hpassed : ∀ p ∈ P ++ [fl], ((mem p).flEnd < r.flStart ∧
        ((mem p).flType = job.type → (mem p).flEnd + 1 < r.flStart)) ∨
      left' = some p ∧ (mem p).flType ≠ job.type ∧ (mem p).flStart < r.flStart ∧
        r.flStart ≤ (mem p).flEnd ∧ (mem p).flEnd ≤ r.flEnd)
    (hleft : ∀ l, left' = some l → l ∈ P ++ [fl] ∧ r.flStart ≤ (mem l).flEnd)
    (hnot : added' = false → added = false ∧ (job.type = .unlck → left' = none))
    (hadded : job.type ≠ .unlck → added' = added) :
    Inv job mem (P ++ [fl]) B request r added' aliased left' := by
  have hlist := append_cons P fl B
  refine { h with
    outside := hlist ▸ h.outside, run := hlist ▸ h.run, nodup := hlist ▸ h.nodup
    passed := hpassed, left_mem := hleft
    ahead := fun ha b hb => h.ahead ha b (mem_cons_of_mem _ hb)
    kept := ?_, not_added := fun ha => ?_
    added_iff := fun ht => (hadded ht).trans (h.added_iff ht) }
  · rw [← hlist]
    exact h.kept.imp_right fun hall b hb => hall b (mem_cons_of_mem _ hb)
  · obtain ⟨ha, hl⟩ := hnot ha
    obtain ⟨hkept, haliased, -⟩ := h.not_added ha
    exact ⟨hlist ▸ hkept, haliased, hl⟩

/-- The next lock ends before the request. -/
theorem Inv.skip (hend : (mem fl).flEnd < r.flStart)
    (htype : (mem fl).flType = job.type → (mem fl).flEnd + 1 < r.flStart) :
    Inv job mem (P ++ [fl]) B request r added aliased left ∧ aliased = false := by
  have hle := h.next.2.1.le
  refine ⟨h.pass (fun p hp => ?_) (fun l hl => ?_) (fun ha => ⟨ha, (h.not_added ha).2.2⟩)
    fun _ => rfl, h.aliased_eq_false (by omega)⟩
  · rcases mem_append.mp hp with hp | hp
    · exact h.passed p hp
    · rw [mem_singleton.mp hp]
      exact inl ⟨hend, htype⟩
  · exact (h.left_mem l hl).imp_left (mem_append_left _)

/-- A lock of another type that begins before the request and ends within it. -/
theorem Inv.setLeft (htype : (mem fl).flType ≠ job.type) (hstart : (mem fl).flStart < r.flStart)
    (hend : r.flStart ≤ (mem fl).flEnd) (hle : (mem fl).flEnd ≤ r.flEnd) :
    Inv job mem (P ++ [fl]) B request r (added || decide (job.type = .unlck)) aliased
      (some fl) ∧ aliased = false := by
  obtain ⟨-, -, hbefore, -⟩ := h.next
  refine ⟨h.pass (fun p hp => ?_) (fun l hl => ?_) (fun ha => ?_) fun ht => ?_,
    h.aliased_eq_false hstart⟩
  · rcases mem_append.mp hp with hp | hp
    · -- an earlier lock ends before this one begins, so it is not the left one
      rcases h.passed p hp with hp' | ⟨-, -, -, hge, -⟩
      · exact inl hp'
      · have := (hbefore p hp).1
        omega
    · rw [mem_singleton.mp hp]
      exact inr ⟨rfl, htype, hstart, hend, hle⟩
  · obtain rfl := Option.some.inj hl
    exact ⟨mem_append_right _ (mem_singleton_self _), hend⟩
  · rw [Bool.or_eq_false_iff, decide_eq_false_iff_not] at ha
    exact ⟨ha.1, fun ht => absurd ht ha.2⟩
  · rw [decide_eq_false ht, Bool.or_false]

omit h in
theorem sublist_around (P B : List ℕ) (fl : ℕ) : (P ++ B).Sublist (P ++ fl :: B) :=
  (List.Sublist.refl P).append (sublist_cons_self fl B)

/-- **The request takes in the next lock.**  The lock goes out of the list, or the request takes
its place there; the record `r'` covers both, and is larger than `r` only by a lock of the same
type.  The request is at `q` from then on. -/
theorem Inv.absorb {mem' : Mem Owner} {q : ℕ} {r' : FileLock Owner} {aliased' : Bool}
    (hq : q = request ∨ q = fl)
    (hmem : ∀ p ∈ P ++ B, mem' p = mem p) (hmem_q : mem' q = r') (howner : r'.flOwner = r.flOwner)
    (htype : r'.flType = r.flType)
    (hstart : r'.flStart = r.flStart ∨ r'.flStart = (mem fl).flStart ∧ (mem fl).flType = job.type)
    (hend : r'.flEnd = r.flEnd ∨ r'.flEnd = (mem fl).flEnd)
    (hlow : r'.flStart ≤ r.flStart ∧ r'.flStart ≤ (mem fl).flStart)
    (hhigh : r.flEnd ≤ r'.flEnd ∧ (mem fl).flEnd ≤ r'.flEnd)
    (hnew : ∀ x, Covers r' x → ¬Covers r x → Covers (mem fl) x ∧ (mem fl).flType = job.type)
    (hunlck : job.type = .unlck → aliased' = false) (hadded : job.type ≠ .unlck → aliased' = true) :
    Inv job mem' P B q r' true aliased' left := by
  obtain ⟨-, hvalid, hbefore, hbehind⟩ := h.next
  have hle := hvalid.le
  have hview : (P ++ B).map mem' = (P ++ B).map mem := map_congr_left hmem
  have hmemP : ∀ p ∈ P, mem' p = mem p := fun p hp => hmem p (mem_append_left _ hp)
  have hmemB : ∀ b ∈ B, mem' b = mem b := fun b hb => hmem b (mem_append_right _ hb)
  have hsub := sublist_around P B fl
  have hahead : ∀ b ∈ B, r'.flStart ≤ (mem' b).flStart := fun b hb => by
    have := (hbehind b hb).1
    rw [hmemB b hb]
    omega
  obtain ⟨hlow1, hlow2⟩ := hlow
  obtain ⟨hhigh1, hhigh2⟩ := hhigh
  refine
    { mem_request := hmem_q
      owner := howner.trans h.owner
      type := htype.trans h.type
      nonneg := ?nonneg
      start_le := le_trans hlow1 h.start_le
      first_le := h.first_le
      le_end := le_trans h.le_end hhigh1
      le_max := ?le_max
      extended := ?extended
      outside := ?outside
      run := ?run
      nodup := ?nodup
      passed := ?passed
      left_mem := ?left_mem
      ahead := fun _ => hahead
      kept := inr hahead
      not_added := fun ha => by cases ha
      added_iff := fun ht => (hadded ht).symm
      unlck := hunlck }
  case nonneg =>
    have := h.nonneg
    have := hvalid.nonneg
    rcases hstart with heq | ⟨heq, -⟩ <;> omega
  case le_max =>
    have := h.le_max
    have := hvalid.le_max
    rcases hend with heq | heq <;> omega
  case extended =>
    intro x hx hout
    by_cases hxr : Covers r x
    · exact h.extended x hxr hout
    · obtain ⟨hcov, hty⟩ := hnew x hx hxr
      refine (h.outside x job.type hxr).mpr ⟨mem fl, mem_map_of_mem ?_, hcov, hty⟩
      exact mem_append_right _ mem_cons_self
  case outside =>
    intro x τ hx
    have hxr : ¬Covers r x := fun hcov => hx ⟨le_trans hlow1 hcov.1, le_trans hcov.2 hhigh1⟩
    rw [h.outside x τ hxr, hview]
    constructor
    · rintro ⟨l, hl, hcov, hτ⟩
      obtain ⟨a, ha, rfl⟩ := mem_map.mp hl
      rcases mem_append.mp ha with ha | ha
      · exact ⟨mem a, mem_map_of_mem (mem_append_left _ ha), hcov, hτ⟩
      · rcases mem_cons.mp ha with rfl | ha
        · exact absurd ⟨le_trans hlow2 hcov.1, le_trans hcov.2 hhigh2⟩ hx
        · exact ⟨mem a, mem_map_of_mem (mem_append_right _ ha), hcov, hτ⟩
    · rintro ⟨l, hl, hrest⟩
      exact ⟨l, (hsub.map mem).subset hl, hrest⟩
  case run =>
    rw [hview]
    exact ⟨fun l hl => h.run.owner l ((hsub.map mem).subset hl),
      fun l hl => h.run.valid l ((hsub.map mem).subset hl), h.run.sorted.sublist (hsub.map mem)⟩
  case nodup =>
    obtain ⟨hnot, hnodup⟩ := nodup_cons.mp h.nodup
    refine nodup_cons.mpr ⟨fun hmemq => ?_, hnodup.sublist hsub⟩
    rcases hq with rfl | rfl
    · exact hnot (hsub.subset hmemq)
    · exact (nodup_cons.mp (nodup_middle.mp hnodup)).1 hmemq
  case passed =>
    intro p hp
    rw [hmemP p hp]
    have hb := hbefore p hp
    rcases hstart with heq | ⟨heq, hty⟩
    · rw [heq]
      refine (h.passed p hp).imp_right fun ⟨hl, ht, hlt, hge, hle'⟩ => ⟨hl, ht, hlt, hge, ?_⟩
      exact le_trans hle' hhigh1
    · left
      rw [heq]
      exact ⟨hb.1, fun ht => hb.2 (ht.trans hty.symm)⟩
  case left_mem =>
    intro l hl
    obtain ⟨hlP, hge⟩ := h.left_mem l hl
    rw [hmemP l hlP]
    exact ⟨hlP, le_trans hlow1 hge⟩

end Steps

/-! ## The assignments -/

section Assignments

variable (mem : Mem Owner) {request fl q : ℕ}

@[simp] theorem setStart_self (z : ℤ) : setStart mem q z q = { mem q with flStart := z } :=
  update_self ..

@[simp] theorem setEnd_self (z : ℤ) : setEnd mem q z q = { mem q with flEnd := z } :=
  update_self ..

variable {p : ℕ}

theorem setStart_of_ne (h : q ≠ p) (z : ℤ) : setStart mem p z q = mem q :=
  update_of_ne h ..

theorem setEnd_of_ne (h : q ≠ p) (z : ℤ) : setEnd mem p z q = mem q :=
  update_of_ne h ..

theorem mergeStart_apply (h : request ≠ fl) (hq : q = request ∨ q = fl) :
    mergeStart mem request fl q =
      { mem q with flStart := min (mem request).flStart (mem fl).flStart } := by
  rw [mergeStart]
  split
  · next hgt =>
    rw [min_eq_left (le_of_lt hgt)]
    rcases hq with rfl | rfl
    · rw [setStart_of_ne mem h]
    · rw [setStart_self]
  · next hle =>
    rw [min_eq_right (not_lt.mp hle)]
    rcases hq with rfl | rfl
    · rw [setStart_self]
    · rw [setStart_of_ne mem h.symm]

theorem mergeEnd_apply (h : request ≠ fl) (hq : q = request ∨ q = fl) :
    mergeEnd mem request fl q = { mem q with flEnd := max (mem request).flEnd (mem fl).flEnd } := by
  rw [mergeEnd]
  split
  · next hlt =>
    rw [max_eq_left (le_of_lt hlt)]
    rcases hq with rfl | rfl
    · rw [setEnd_of_ne mem h]
    · rw [setEnd_self]
  · next hge =>
    rw [max_eq_right (not_lt.mp hge)]
    rcases hq with rfl | rfl
    · rw [setEnd_self]
    · rw [setEnd_of_ne mem h.symm]

/-- The record of the request after it has been merged. -/
def merged (r b : FileLock Owner) : FileLock Owner :=
  { r with flStart := min r.flStart b.flStart, flEnd := max r.flEnd b.flEnd }

/-- After the assignments, both records are the merged one. -/
theorem mergeLocks_apply (h : request ≠ fl) (hq : q = request ∨ q = fl)
    (howner : (mem request).flOwner = (mem fl).flOwner)
    (htype : (mem request).flType = (mem fl).flType) :
    mergeLocks mem request fl q = merged (mem request) (mem fl) := by
  rw [mergeLocks, mergeEnd_apply _ h hq, mergeStart_apply mem h hq,
    mergeStart_apply mem h (inl rfl), mergeStart_apply mem h (inr rfl), merged]
  rcases hq with rfl | rfl
  · rfl
  · rw [howner, htype]

theorem mergeLocks_other (h1 : q ≠ request) (h2 : q ≠ fl) :
    mergeLocks mem request fl q = mem q := by
  have hstart : mergeStart mem request fl q = mem q := by
    rw [mergeStart]
    split
    · exact setStart_of_ne mem h2 _
    · exact setStart_of_ne mem h1 _
  rw [mergeLocks, mergeEnd]
  split
  · rw [setEnd_of_ne _ h2, hstart]
  · rw [setEnd_of_ne _ h1, hstart]

theorem replaceLock_fl (howner : (mem request).flOwner = (mem fl).flOwner) :
    replaceLock mem request fl fl = mem request := by
  rw [replaceLock, update_self]
  show (⟨(mem fl).flOwner, _, _, _⟩ : FileLock Owner) = mem request
  rw [← howner]

theorem replaceLock_other (h : q ≠ fl) : replaceLock mem request fl q = mem q :=
  update_of_ne h ..

end Assignments

/-! ## The steps of the loop -/

section Taken

variable {job : Job Owner} {mem : Mem Owner} {P B : List ℕ} {request fl : ℕ}
  {r : FileLock Owner} {added aliased : Bool} {left : Option ℕ}
  (h : Inv job mem P (fl :: B) request r added aliased left)

/-- A request to remove locks has met a lock that overlaps it. -/
theorem Inv.setAdded (h : Inv job mem P B request r added aliased left) :
    Inv job mem P B request r (added || decide (job.type = .unlck)) aliased left := by
  refine { h with not_added := fun ha => ?_, added_iff := fun ht => ?_ }
  · exact h.not_added (Bool.or_eq_false_iff.mp ha).1
  · rw [decide_eq_false ht, Bool.or_false]
    exact h.added_iff ht

include h

theorem Inv.request_ne :
    request ≠ fl := fun heq =>
  (nodup_cons.mp h.nodup).1 (heq ▸ mem_append_right _ mem_cons_self)

theorem Inv.ne_of_mem {q : ℕ} (hq : q ∈ P ++ B) : q ≠ request ∧ q ≠ fl := by
  obtain ⟨hrequest, hnodup⟩ := nodup_cons.mp h.nodup
  constructor
  · rintro rfl
    exact hrequest ((sublist_around P B fl).subset hq)
  · rintro rfl
    exact (nodup_cons.mp (nodup_middle.mp hnodup)).1 hq

theorem Inv.delete (hstart : r.flStart ≤ (mem fl).flStart) (hend : (mem fl).flEnd ≤ r.flEnd)
    (hadded : (added || decide (job.type = .unlck)) = true) :
    Inv job mem P B request r true aliased left := by
  refine h.absorb (inl rfl) (fun _ _ => rfl) h.mem_request rfl rfl (inl rfl) (inl rfl)
    ⟨le_rfl, hstart⟩ ⟨le_rfl, hend⟩ (fun x hx hnot => absurd hx hnot) h.unlck fun ht => ?_
  rw [decide_eq_false ht, Bool.or_false] at hadded
  rw [← h.added_iff ht, hadded]

/-- A lock of another type that the request covers is replaced by it. -/
theorem Inv.replace (hstart : r.flStart ≤ (mem fl).flStart) (hend : (mem fl).flEnd ≤ r.flEnd)
    (hadded : (added || decide (job.type = .unlck)) = false) :
    Inv job (replaceLock mem request fl) P B fl r true true left := by
  rw [Bool.or_eq_false_iff, decide_eq_false_iff_not] at hadded
  refine h.absorb (inr rfl) (fun q hq => replaceLock_other mem (h.ne_of_mem hq).2) ?_ rfl rfl
    (inl rfl) (inl rfl) ⟨le_rfl, hstart⟩ ⟨le_rfl, hend⟩ (fun x hx hnot => absurd hx hnot)
    (fun ht => absurd ht hadded.2) fun _ => rfl
  rw [replaceLock_fl mem, h.mem_request]
  rw [h.mem_request, h.owner, h.next.1]

/-- The request is merged with a lock of its type that it overlaps or touches, and has its place
from then on. -/
theorem Inv.merge {q : ℕ} (hq : q = request ∨ q = fl) (htype : r.flType = (mem fl).flType)
    (hlow : r.flStart - 1 ≤ (mem fl).flEnd) (hhigh : (mem fl).flStart - 1 ≤ r.flEnd) :
    Inv job (mergeLocks mem request fl) P B q (merged r (mem fl)) true true left := by
  obtain ⟨howner, hvalid, -, -⟩ := h.next
  have htype' : (mem fl).flType = job.type := by rw [← htype, h.type]
  refine h.absorb hq
    (fun q hq => mergeLocks_other mem (h.ne_of_mem hq).1 (h.ne_of_mem hq).2) ?_ rfl rfl ?_ ?_
    ⟨min_le_left _ _, min_le_right _ _⟩ ⟨le_max_left _ _, le_max_right _ _⟩ (fun x hx hnot => ?_)
    (fun ht => absurd (htype'.trans ht) hvalid.type_ne) fun _ => rfl
  · rw [mergeLocks_apply mem h.request_ne hq _ _, h.mem_request]
    · rw [h.mem_request, h.owner, howner]
    · rw [h.mem_request, htype]
  · rcases min_choice r.flStart (mem fl).flStart with heq | heq
    · exact inl heq
    · exact inr ⟨heq, htype'⟩
  · exact max_choice r.flEnd (mem fl).flEnd
  · -- an offset of the merged record is one of the request or of the lock, as they touch
    have h1 : min r.flStart (mem fl).flStart ≤ x := hx.1
    have h2 : x ≤ max r.flEnd (mem fl).flEnd := hx.2
    rw [Covers] at hnot
    refine ⟨⟨?_, ?_⟩, htype'⟩ <;> omega

end Taken

/-! ## The loop -/

/-- What the loop makes of the list, from the invariant at its start to that at its end. -/
structure LoopResult (job : Job Owner) (mem : Mem Owner) (request : ℕ) (P B X Y : List ℕ)
    (result : List ℕ × List ℕ × Loop Owner) (P' B' : List ℕ) (r' : FileLock Owner)
    (aliased' : Bool) (left' : Option ℕ) : Prop where
  pre : result.1 = X ++ P' ++ aliasPart aliased' result.2.2.request
  post : result.2.1 = B' ++ Y
  inv : Inv job result.2.2.mem P' B' result.2.2.request r' result.2.2.added aliased' left'
  stop : Stop job result.2.2.mem B' r' result.2.2.added left' result.2.2.left result.2.2.right
  request_mem : result.2.2.request = request ∨ result.2.2.request ∈ B
  frame : ∀ q, q ≠ request → q ∉ B → result.2.2.mem q = mem q
  ids : ∀ q ∈ P' ++ B', q ∈ P ∨ q ∈ B

/-- A loop that goes on behind the next lock, with the request where it was or at that lock. -/
theorem LoopResult.cons {job : Job Owner} {mem mem' : Mem Owner} {request q fl : ℕ}
    {P Q B X Y : List ℕ} {result : List ℕ × List ℕ × Loop Owner} {P' B' : List ℕ}
    {r' : FileLock Owner} {aliased' : Bool} {left' : Option ℕ}
    (h : LoopResult job mem' q Q B X Y result P' B' r' aliased' left')
    (hQ : ∀ a ∈ Q, a ∈ P ∨ a = fl) (hq : q = request ∨ q = fl)
    (hmem : ∀ a, a ≠ request → a ≠ fl → mem' a = mem a) :
    LoopResult job mem request P (fl :: B) X Y result P' B' r' aliased' left' := by
  refine { h with request_mem := ?_, frame := fun a ha hnot => ?_, ids := fun a ha => ?_ }
  · rcases h.request_mem with heq | hmemB
    · rcases hq with rfl | rfl
      · exact inl heq
      · exact inr (heq ▸ mem_cons_self)
    · exact inr (mem_cons_of_mem _ hmemB)
  · rw [mem_cons, not_or] at hnot
    have haq : a ≠ q := by
      rcases hq with rfl | rfl
      · exact ha
      · exact hnot.1
    rw [h.frame a haq hnot.2, hmem a ha hnot.1]
  · rcases h.ids a ha with haQ | haB
    · rcases hQ a haQ with haP | rfl
      · exact inl haP
      · exact inr mem_cons_self
    · exact inr (mem_cons_of_mem _ haB)

section Run

variable [DecidableEq Owner]

variable {mem : Mem Owner} {request : ℕ} {r : FileLock Owner}

/-- What one turn of the loop does at the lock `fl`, when the list is `pre` up to there and `post`
behind it: it stops, or it goes on with a list in which the lock has been passed, deleted or
replaced by the request. -/
inductive Turn (job : Job Owner) (mem : Mem Owner) (P B : List ℕ) (request fl : ℕ)
    (r : FileLock Owner) (aliased : Bool) (left : Option ℕ) (pre post : List ℕ) :
    List ℕ × List ℕ × Loop Owner → Prop
  | stop {added' : Bool} {left' right' : Option ℕ}
      (hinv : Inv job mem P (fl :: B) request r added' aliased left)
      (hstop : Stop job mem (fl :: B) r added' left left' right') :
      Turn job mem P B request fl r aliased left pre post
        (pre, fl :: post, ⟨mem, request, added', left', right'⟩)
  | pass {added' : Bool} {left' : Option ℕ}
      (hinv : Inv job mem (P ++ [fl]) B request r added' aliased left' ∧ aliased = false) :
      Turn job mem P B request fl r aliased left pre post
        (ownerLoop post (pre ++ [fl]) ⟨mem, request, added', left', none⟩)
  | delete {mem' : Mem Owner} {r' : FileLock Owner}
      (hframe : ∀ a, a ≠ request → a ≠ fl → mem' a = mem a)
      (hinv : Inv job mem' P B request r' true aliased left) :
      Turn job mem P B request fl r aliased left pre post
        (ownerLoop post pre ⟨mem', request, true, left, none⟩)
  | place {mem' : Mem Owner} {r' : FileLock Owner}
      (hframe : ∀ a, a ≠ request → a ≠ fl → mem' a = mem a)
      (hinv : Inv job mem' P B fl r' true true left) (haliased : aliased = false) :
      Turn job mem P B request fl r aliased left pre post
        (ownerLoop post (pre ++ [fl]) ⟨mem', fl, true, left, none⟩)

section Turns

variable {job : Job Owner} {mem : Mem Owner} {P B : List ℕ} {request fl : ℕ}
  {r : FileLock Owner} {added aliased : Bool} {left : Option ℕ}

omit [DecidableEq Owner] in
/-- The next lock is behind the request, and so are all others. -/
theorem Inv.stop_past (h : Inv job mem P (fl :: B) request r added aliased left)
    (hhigh : r.flEnd < (mem fl).flStart)
    (htype : (mem fl).flType = job.type → r.flEnd + 1 < (mem fl).flStart) :
    Stop job mem (fl :: B) r added left left none := by
  obtain ⟨-, hvalid, -, hbehind⟩ := h.next
  have hle := hvalid.le
  refine Stop.past fun b hb => ?_
  rcases mem_cons.mp hb with rfl | hb
  · exact ⟨hhigh, htype⟩
  · have := (hbehind b hb).1
    exact ⟨by omega, fun _ => by omega⟩

section

variable (h : Inv job mem P (fl :: B) request r added aliased left)
include h

theorem Inv.turn_same (htype : r.flType = (mem fl).flType) (pre post : List ℕ) :
    Turn job mem P B request fl r aliased left pre post
      (ownerLoop (fl :: post) pre ⟨mem, request, added, left, none⟩) := by
  obtain ⟨howner, hvalid, -, -⟩ := h.next
  have hjob : job.type ≠ .unlck := fun ht => hvalid.type_ne (by rw [← htype, h.type, ht])
  -- the two sums do not overflow
  have hle := hvalid.le
  have hsum : loff (r.flStart - 1) = r.flStart - 1 := by
    have h0 := h.nonneg
    have h1 := h.start_le_end.trans h.le_max
    exact loff_eq (by omega) (by omega)
  have hsum' : loff ((mem fl).flStart - 1) = (mem fl).flStart - 1 := by
    have h0 := hvalid.nonneg
    have h1 := hvalid.le_max
    exact loff_eq (by omega) (by omega)
  rw [ownerLoop]
  simp only [h.mem_request]
  rw [if_neg (not_not.mpr (h.owner.trans howner.symm)), if_pos htype, hsum, hsum']
  by_cases hlow : (mem fl).flEnd < r.flStart - 1
  · rw [if_pos hlow]
    exact Turn.pass (h.skip (by omega) fun _ => by omega)
  rw [if_neg hlow]
  by_cases hhigh : (mem fl).flStart - 1 > r.flEnd
  · rw [if_pos hhigh]
    exact Turn.stop h (h.stop_past (by omega) fun _ => by omega)
  rw [if_neg hhigh]
  have hother : ∀ a, a ≠ request → a ≠ fl → mergeLocks mem request fl a = mem a :=
    fun a h1 h2 => mergeLocks_other mem h1 h2
  by_cases hadded : added = true
  · subst hadded
    have haliased : true = aliased := h.added_iff hjob
    subst haliased
    exact Turn.delete hother (h.merge (inl rfl) htype (by omega) (by omega))
  · rw [if_neg hadded]
    refine Turn.place hother (h.merge (inr rfl) htype (by omega) (by omega)) ?_
    rw [← h.added_iff hjob]
    simpa using hadded

theorem Inv.turn_other (htype : r.flType ≠ (mem fl).flType) (pre post : List ℕ) :
    Turn job mem P B request fl r aliased left pre post
      (ownerLoop (fl :: post) pre ⟨mem, request, added, left, none⟩) := by
  have hjob : (mem fl).flType ≠ job.type := fun ht => htype (by rw [h.type, ht])
  rw [ownerLoop]
  simp only [h.mem_request]
  rw [if_neg (not_not.mpr (h.owner.trans h.next.1.symm)), if_neg htype, h.type]
  by_cases hlow : (mem fl).flEnd < r.flStart
  · rw [if_pos hlow]
    exact Turn.pass (h.skip hlow fun ht => absurd ht hjob)
  rw [if_neg hlow]
  by_cases hhigh : (mem fl).flStart > r.flEnd
  · rw [if_pos hhigh]
    exact Turn.stop h (h.stop_past hhigh fun ht => absurd ht hjob)
  rw [if_neg hhigh]
  by_cases hend : (mem fl).flEnd > r.flEnd
  · rw [if_pos hend]
    exact Turn.stop h.setAdded (Stop.cut rfl hjob (not_lt.mp hhigh) hend fun ht => by
      rw [decide_eq_true ht, Bool.or_true])
  rw [if_neg hend]
  by_cases hstart : (mem fl).flStart ≥ r.flStart
  · rw [if_pos hstart, if_neg (not_lt.mpr hstart)]
    by_cases hadded : (added || decide (job.type = .unlck)) = true
    · rw [hadded]
      exact Turn.delete (fun _ _ _ => rfl) (h.delete hstart (not_lt.mp hend) hadded)
    · rw [if_neg hadded]
      have hfalse := Bool.not_eq_true _ ▸ hadded
      exact Turn.place (fun a _ h2 => replaceLock_other mem h2)
        (h.replace hstart (not_lt.mp hend) hfalse)
        (h.not_added (Bool.or_eq_false_iff.mp hfalse).1).2.1
  · rw [if_neg hstart, if_pos (not_le.mp hstart)]
    exact Turn.pass (h.setLeft hjob (not_le.mp hstart) (not_lt.mp hlow) (not_lt.mp hend))

end

end Turns

/-- **The loop over the locks of the owner**, by induction on those to come. -/
theorem ownerLoop_spec {job : Job Owner} (B : List ℕ) {X P Y : List ℕ} {added aliased : Bool}
    {left : Option ℕ} (h : Inv job mem P B request r added aliased left)
    (hY : ∀ y ∈ Y, (mem y).flOwner ≠ job.owner) (hYB : ∀ y ∈ Y, y ≠ request ∧ y ∉ B) :
    ∃ P' B' r' aliased' left', LoopResult job mem request P B X Y
      (ownerLoop (B ++ Y) (X ++ P ++ aliasPart aliased request)
        ⟨mem, request, added, left, none⟩) P' B' r' aliased' left' := by
  induction B generalizing mem P request r added aliased left with
  | nil =>
    refine ⟨P, [], r, aliased, left, ?_⟩
    have hstop : Stop job mem [] r added left left none :=
      Stop.past fun b hb => absurd hb not_mem_nil
    have hend : ownerLoop ([] ++ Y) (X ++ P ++ aliasPart aliased request)
        ⟨mem, request, added, left, none⟩ =
        (X ++ P ++ aliasPart aliased request, Y, ⟨mem, request, added, left, none⟩) := by
      cases Y with
      | nil => rfl
      | cons y Y =>
        refine if_pos fun heq => hY y mem_cons_self (heq.symm.trans ?_)
        show (mem request).flOwner = job.owner
        rw [h.mem_request, h.owner]
    rw [hend]
    exact ⟨rfl, rfl, h, hstop, inl rfl, fun _ _ _ => rfl, fun q hq => mem_append.mp hq⟩
  | cons fl B ih =>
    have hYne : ∀ y ∈ Y, y ≠ request ∧ y ≠ fl ∧ y ∉ B := fun y hy => by
      obtain ⟨h1, h2⟩ := hYB y hy
      rw [mem_cons, not_or] at h2
      exact ⟨h1, h2⟩
    have hYreq : ∀ y ∈ Y, y ≠ request ∧ y ∉ B := fun y hy => ⟨(hYne y hy).1, (hYne y hy).2.2⟩
    have hYfl : ∀ y ∈ Y, y ≠ fl ∧ y ∉ B := fun y hy => (hYne y hy).2
    -- the locks of other owners keep their records
    have hY' : ∀ {mem' : Mem Owner}, (∀ a, a ≠ request → a ≠ fl → mem' a = mem a) →
        ∀ y ∈ Y, (mem' y).flOwner ≠ job.owner := fun hframe y hy => by
      rw [hframe y (hYne y hy).1 (hYne y hy).2.1]
      exact hY y hy
    have hturn : Turn job mem P B request fl r aliased left (X ++ P ++ aliasPart aliased request)
        (B ++ Y) (ownerLoop (fl :: (B ++ Y)) (X ++ P ++ aliasPart aliased request)
          ⟨mem, request, added, left, none⟩) := by
      by_cases htype : r.flType = (mem fl).flType
      · exact h.turn_same htype _ _
      · exact h.turn_other htype _ _
    rw [cons_append]
    revert hturn
    generalize ownerLoop (fl :: (B ++ Y)) (X ++ P ++ aliasPart aliased request)
      ⟨mem, request, added, left, none⟩ = result
    intro hturn
    cases hturn with
    | stop hinv hstop =>
      exact ⟨P, fl :: B, r, aliased, left, rfl, rfl, hinv, hstop, inl rfl, fun _ _ _ => rfl,
        fun q hq => mem_append.mp hq⟩
    | pass hinv =>
      obtain ⟨hinv, rfl⟩ := hinv
      obtain ⟨P', B', r', aliased', l', hres⟩ := ih hinv hY hYreq
      have hlist : X ++ (P ++ [fl]) ++ aliasPart false request =
          X ++ P ++ aliasPart false request ++ [fl] := by simp [aliasPart]
      rw [hlist] at hres
      refine ⟨P', B', r', aliased', l', hres.cons (fun a ha => ?_) (inl rfl) fun _ _ _ => rfl⟩
      exact (mem_append.mp ha).imp_right mem_singleton.mp
    | delete hframe hinv =>
      obtain ⟨P', B', r', aliased', l', hres⟩ := ih hinv (hY' hframe) hYreq
      exact ⟨P', B', r', aliased', l', hres.cons (fun _ => inl) (inl rfl) hframe⟩
    | place hframe hinv haliased =>
      subst haliased
      obtain ⟨P', B', r', aliased', l', hres⟩ := ih hinv (hY' hframe) hYfl
      have hlist : X ++ P ++ aliasPart true fl = X ++ P ++ aliasPart false request ++ [fl] := by
        simp [aliasPart]
      rw [hlist] at hres
      exact ⟨P', B', r', aliased', l', hres.cons (fun _ => inl) (inr rfl) hframe⟩

end Run

end Gp2xKernel.Locks
