import Gp2xKernel.Library.Turns
import Gp2xKernel.Semaphore.Semop
import Mathlib.Tactic.Ring

/-!
# The queue of pending operations

Operations that cannot be applied yet wait in a queue.  `update_queue` goes through the queue and
tries each of them; one that is completed, or has become impossible, is removed and its sleeper is
woken.  When the completed operations have changed the semaphores, the scan starts again at the
head of the queue.

## Main definitions

* `SemQueue`: an entry of the queue, `Locked`: what the lock of an array protects
* `attempt`: `try_atomic_semop` for an entry
* `updateQueue`: `update_queue`
* `Blocked`: an entry that has to go on sleeping
* `Updated`: what a scan promises

## Main results

* `attempt_cases`: what an attempt can do
* `updateQueue_spec`: the scan ends and keeps its promise
-/

namespace Gp2xKernel.Semaphore

open Library List Option

/-- Whether operations can change the array: `alter` of `sys_semtimedop`. -/
def alters (sops : List Sembuf) : Bool := sops.any fun sop => sop.semOp ≠ 0

/-- `struct sem_queue`.  The undo structure of an entry is named by the undo list it belongs to. -/
structure SemQueue where
  sleeper : ℕ
  sops : List Sembuf
  undo : Option ℕ
  pid : ℤ
  alter : Bool
  alter_eq : alter = alters sops

/-- What the lock of an array protects: the semaphores, and the undo structures on `sma->undo`,
each under the undo list it belongs to. -/
structure Locked where
  sma : SemArray
  undo : ℕ → Option SemAdj

/-- The adjustments of an undo structure.  There are none if `un` is not the null pointer and the
structure has been freed. -/
def Locked.semadj (a : Locked) : Option ℕ → Option SemAdj
  | none => some fun _ => 0
  | some u => a.undo u

/-- Change the array and the adjustments of an undo structure. -/
def Locked.put (a : Locked) (sma : SemArray) : Option ℕ → SemAdj → Locked
  | none, _ => { a with sma := sma }
  | some u, semadj => ⟨sma, Function.update a.undo u (some semadj)⟩

/-- `try_atomic_semop` with the undo structure `un`. -/
def tryUndo (seconds : ℤ) (a : Locked) (sops : List Sembuf) (un : Option ℕ) (pid : ℤ) :
    Option (ℤ × Locked) :=
  (a.semadj un).map fun semadj =>
    ((tryAtomicSemop a.sma sops semadj pid seconds).1,
      a.put (tryAtomicSemop a.sma sops semadj pid seconds).2.1 un
        (tryAtomicSemop a.sma sops semadj pid seconds).2.2)

/-- The attempt of `update_queue` for an entry. -/
def attempt (seconds : ℤ) (a : Locked) (q : SemQueue) : Option (ℤ × Locked) :=
  tryUndo seconds a q.sops q.undo q.pid

/-- The state of the loop in `update_queue`: the array, the entries in front of `q`, the entries
from `q` on, and the entries that have been woken, with the status they got. -/
structure Scan where
  array : Locked
  passed : List SemQueue
  rest : List SemQueue
  woken : List (SemQueue × ℤ)

/-- The rest of a turn of the loop, after the attempt for `q`. -/
def scanTurn (s : Scan) (q : SemQueue) (rest : List SemQueue) (error : ℤ) (array : Locked) :
    Scan :=
  if error ≤ 0 then
    -- `q` is removed; the next entry is the head of the queue, or the one behind `q`
    if q.alter then ⟨array, [], s.passed ++ rest, s.woken ++ [(q, error)]⟩
    else ⟨array, s.passed, rest, s.woken ++ [(q, error)]⟩
  else ⟨array, s.passed ++ [q], rest, s.woken⟩

/-- The loop of `update_queue`. -/
def updateLoop (seconds : ℤ) : ℕ → Scan → Option Scan
  | 0, _ => none
  | turns + 1, s =>
    match s.rest with
    | [] => some s
    | q :: rest =>
      (attempt seconds s.array q).bind fun r => updateLoop seconds turns (scanTurn s q rest r.1 r.2)

def updateQueue (seconds : ℤ) (turns : ℕ) (a : Locked) (pending : List SemQueue) : Option Scan :=
  updateLoop seconds turns ⟨a, [], pending, []⟩

/-! ## What the result of an attempt depends on -/

/-- The first loop stops for a reason that depends on the values only. -/
theorem tryLoop_stop_congr {semadj : SemAdj} {sops done done' : List Sembuf} {base base' : ℕ → Sem}
    (h : ∀ i, (base i).semval = (base' i).semval) :
    (tryLoop semadj sops done base).1 = (tryLoop semadj sops done' base').1 := by
  induction sops generalizing done done' base base' with
  | nil => rfl
  | cons sop sops ih =>
    simp only [tryLoop, h sop.semNum]
    split_ifs with hzero hneg hmax hundo
    · rfl
    · rfl
    · rfl
    · rfl
    · apply ih
      intro i
      by_cases hi : i = sop.semNum
      · subst hi
        simp
      · simp [hi, h i]

/-- When the first loop stops, the operations have to wait or have failed. -/
theorem tryLoop_stop_cases {semadj : SemAdj} {sops done : List Sembuf} {base : ℕ → Sem}
    {result : ℤ} (h : (tryLoop semadj sops done base).1 = some result) :
    result = 1 ∨ result < 0 := by
  have hblock : ∀ sop, wouldBlock sop = 1 ∨ wouldBlock sop < 0 := by
    intro sop
    rw [wouldBlock]
    split_ifs
    · exact .inr (by decide)
    · exact .inl rfl
  induction sops generalizing done base with
  | nil => cases h
  | cons sop sops ih =>
    rw [tryLoop] at h
    dsimp only at h
    split_ifs at h with hzero hneg hmax hundo
    · obtain rfl := some.inj h
      exact hblock sop
    · obtain rfl := some.inj h
      exact hblock sop
    · obtain rfl := some.inj h
      exact .inr (by decide)
    · obtain rfl := some.inj h
      exact .inr (by decide)
    · exact ih h

section Call

variable {sma sma' : SemArray} {sops : List Sembuf} {semadj : SemAdj} {pid pid' seconds : ℤ}

theorem tryAtomicSemop_result :
    (tryAtomicSemop sma sops semadj pid seconds).1 =
      ((tryLoop semadj sops [] sma.semBase).1).getD 0 := by
  rw [tryAtomicSemop]
  rcases tryLoop semadj sops [] sma.semBase with ⟨_ | result, done, base⟩
  · rfl
  · rfl

theorem tryAtomicSemop_result_congr (h : sma.val = sma'.val) (seconds' : ℤ) :
    (tryAtomicSemop sma sops semadj pid seconds).1 =
      (tryAtomicSemop sma' sops semadj pid' seconds').1 := by
  rw [tryAtomicSemop_result, tryAtomicSemop_result, tryLoop_stop_congr (congrFun h)]

theorem tryAtomicSemop_result_cases (sma : SemArray) (sops : List Sembuf) (semadj : SemAdj)
    (pid seconds : ℤ) :
    (tryAtomicSemop sma sops semadj pid seconds).1 ≤ 0 ∨
      (tryAtomicSemop sma sops semadj pid seconds).1 = 1 := by
  rw [tryAtomicSemop_result]
  cases hstop : (tryLoop semadj sops [] sma.semBase).1 with
  | none => exact .inl le_rfl
  | some result =>
    rcases tryLoop_stop_cases hstop with rfl | hneg
    · exact .inr rfl
    · exact .inl hneg.le

section

variable (h : alters sops = false)
include h

/-- Any sum of operations that only wait for zero. -/
theorem sum_of_not_alters (p : Sembuf → Prop) [DecidablePred p] :
    (sops.map fun sop => if p sop then sop.semOp.toInt else 0).sum = 0 := by
  induction sops with
  | nil => rfl
  | cons sop sops ih =>
    simp only [alters, any_cons, Bool.or_eq_false_iff, decide_eq_false_iff_not, not_not] at h
    rw [map_cons, sum_cons, h.1, ih h.2]
    simp

/-- Operations that only wait for zero change neither the values nor the adjustments. -/
theorem tryAtomicSemop_of_not_alters (sma : SemArray) (semadj : SemAdj)
    (pid seconds : ℤ) :
    (tryAtomicSemop sma sops semadj pid seconds).2.1.val = sma.val ∧
      (tryAtomicSemop sma sops semadj pid seconds).2.2 = semadj := by
  by_cases hfeasible : Feasible semadj sma.val sops
  · obtain ⟨-, hval, hadj⟩ := tryAtomicSemop_of_feasible hfeasible pid seconds
    refine ⟨funext fun i => ?_, funext fun i => ?_⟩
    · rw [hval i, opSum, sum_of_not_alters h, Int.add_zero]
    · rw [hadj i, undoSum, sum_of_not_alters h]
      exact sub_zero _
  · rw [(tryAtomicSemop_of_not_feasible hfeasible pid seconds).2]
    exact ⟨rfl, rfl⟩

end

end Call

/-! ## Attempts -/

/-- The same values and adjustments. -/
def Locked.Same (a b : Locked) : Prop := a.sma.val = b.sma.val ∧ a.undo = b.undo

/-- The operations have to wait, now and until the values or adjustments change. -/
def Waits (a : Locked) (sops : List Sembuf) (un : Option ℕ) (pid : ℤ) : Prop :=
  ∀ seconds, tryUndo seconds a sops un pid = some (1, a)

/-- An entry of the queue has to go on sleeping: `try_atomic_semop` returns 1 for it. -/
def Blocked (a : Locked) (q : SemQueue) : Prop := Waits a q.sops q.undo q.pid

variable {un : Option ℕ} {a : Locked}

theorem Locked.put_self {semadj : SemAdj}
    (h : a.semadj un = some semadj) : a.put a.sma un semadj = a := by
  cases un with
  | none => rfl
  | some u =>
    have hu : some semadj = a.undo u := h.symm
    rw [Locked.put, hu, Function.update_eq_self]

theorem Locked.semadj_put_isSome {sma : SemArray} {semadj : SemAdj}
    (u : Option ℕ) (h : (a.semadj u).isSome) : ((a.put sma un semadj).semadj u).isSome := by
  cases un with
  | none => exact h
  | some v =>
    cases u with
    | none => exact h
    | some u =>
      by_cases huv : u = v
      · subst huv
        simp [Locked.put, Locked.semadj]
      · simpa [Locked.put, Locked.semadj, huv] using h

/-- **What an attempt can do**, when the undo structure exists: it returns a status of at most zero,
or the operations have to wait. -/
theorem tryUndo_cases (seconds : ℤ) (h : (a.semadj un).isSome)
    (sops : List Sembuf) (pid : ℤ) :
    (∃ error a', tryUndo seconds a sops un pid = some (error, a') ∧ error ≤ 0 ∧
      (∀ u, (a.semadj u).isSome → (a'.semadj u).isSome) ∧
      (alters sops = false ∨ error ≠ 0 → a'.Same a)) ∨
    Waits a sops un pid := by
  obtain ⟨semadj, hadj⟩ := isSome_iff_exists.mp h
  have hcall : ∀ seconds, tryUndo seconds a sops un pid =
      some ((tryAtomicSemop a.sma sops semadj pid seconds).1,
        a.put (tryAtomicSemop a.sma sops semadj pid seconds).2.1 un
          (tryAtomicSemop a.sma sops semadj pid seconds).2.2) := by
    intro seconds
    rw [tryUndo, hadj, map_some]
  have hfailed : ∀ seconds, (tryAtomicSemop a.sma sops semadj pid seconds).1 ≠ 0 →
      a.put (tryAtomicSemop a.sma sops semadj pid seconds).2.1 un
        (tryAtomicSemop a.sma sops semadj pid seconds).2.2 = a := by
    intro seconds hne
    rw [tryAtomicSemop_of_ne_zero hne]
    exact Locked.put_self hadj
  rcases tryAtomicSemop_result_cases a.sma sops semadj pid seconds with hle | hone
  · refine .inl ⟨_, _, hcall seconds, hle, fun u hu => Locked.semadj_put_isSome u hu, ?_⟩
    rintro (hkeep | hne)
    · obtain ⟨hval, hsame⟩ := tryAtomicSemop_of_not_alters hkeep a.sma semadj pid seconds
      rw [hsame]
      refine ⟨?_, ?_⟩
      · cases un <;> exact hval
      · have hput := congrArg Locked.undo (Locked.put_self hadj)
        cases un with
        | none => rfl
        | some u => simpa only [Locked.put] using hput
    · rw [hfailed seconds hne]
      exact ⟨rfl, rfl⟩
  · -- the result does not depend on the time
    refine .inr fun seconds' => ?_
    have hone' : (tryAtomicSemop a.sma sops semadj pid seconds').1 = 1 :=
      (tryAtomicSemop_result_congr rfl _).trans hone
    rw [hcall, hfailed seconds' (by rw [hone']; decide), hone']

theorem Locked.Same.semadj {a b : Locked} (h : b.Same a) (un : Option ℕ) :
    b.semadj un = a.semadj un := by
  cases un with
  | none => rfl
  | some u => exact congrFun h.2 u

/-- Operations that have to wait do so as long as the values and their adjustments stay. -/
theorem Waits.congr {a b : Locked} {sops : List Sembuf} {pid : ℤ}
    (h : Waits a sops un pid) (hval : b.sma.val = a.sma.val) (hun : b.semadj un = a.semadj un) :
    Waits b sops un pid := by
  intro seconds
  obtain ⟨semadj, hadj, hres⟩ := map_eq_some_iff.mp (h seconds)
  have hone : (tryAtomicSemop b.sma sops semadj pid seconds).1 = 1 :=
    (tryAtomicSemop_result_congr hval seconds).trans (congrArg Prod.fst hres)
  have hfailed := tryAtomicSemop_of_ne_zero
    (show (tryAtomicSemop b.sma sops semadj pid seconds).1 ≠ 0 by rw [hone]; decide)
  rw [tryUndo, hun, hadj, map_some, hone, hfailed, Locked.put_self (hun.trans hadj)]

theorem Blocked.isSome {q : SemQueue} (h : Blocked a q) : (a.semadj q.undo).isSome := by
  obtain ⟨semadj, hadj, -⟩ := map_eq_some_iff.mp (h 0)
  rw [hadj]
  rfl

/-! ## The scan -/

/-- The undo structures of the entries exist. -/
def Structured (a : Locked) (queue : List SemQueue) : Prop :=
  ∀ q ∈ queue, (a.semadj q.undo).isSome

/-- Attempts that were made one after another, each with its status. -/
inductive Attempts (seconds : ℤ) : Locked → List (SemQueue × ℤ) → Locked → Prop
  | nil (a : Locked) : Attempts seconds a [] a
  | snoc {a b c : Locked} {log : List (SemQueue × ℤ)} {q : SemQueue} {error : ℤ} :
      Attempts seconds a log b → attempt seconds b q = some (error, c) → error ≤ 0 →
        Attempts seconds a (log ++ [(q, error)]) c

/-- **What a scan of the queue `pending` promises.**  The entries that were woken and those that
are left make up the queue, so each one that was removed has been woken once.  The array is the one
that the attempts of the woken entries have left, and each entry has got the status of its own
attempt.  The entries that are left have to go on sleeping. -/
structure Updated (seconds : ℤ) (a : Locked) (pending : List SemQueue) (s : Scan) : Prop where
  perm : (s.woken.map Prod.fst ++ (s.passed ++ s.rest)).Perm pending
  sublist : (s.passed ++ s.rest).Sublist pending
  attempts : Attempts seconds a s.woken s.array
  structured : Structured s.array (s.passed ++ s.rest)
  blocked : ∀ q ∈ s.passed, Blocked s.array q

section Scan

variable {seconds : ℤ} {a : Locked} {pending rest : List SemQueue} {s : Scan} {q : SemQueue}

theorem Updated.removed (h : Updated seconds a pending s) (hrest : s.rest = q :: rest)
    {error : ℤ} {a' : Locked} (hattempt : attempt seconds s.array q = some (error, a'))
    (hle : error ≤ 0) (hkeep : ∀ u, (s.array.semadj u).isSome → (a'.semadj u).isSome)
    {front back : List SemQueue} (hqueue : front ++ back = s.passed ++ rest)
    (hblocked : ∀ q ∈ front, Blocked a' q) :
    Updated seconds a pending ⟨a', front, back, s.woken ++ [(q, error)]⟩ where
  perm := by
    refine List.Perm.trans ?_ h.perm
    rw [hqueue, hrest, map_append, append_assoc]
    refine List.Perm.append_left _ ?_
    rw [map_singleton, singleton_append]
    exact perm_middle.symm
  sublist := by
    refine List.Sublist.trans ?_ h.sublist
    rw [hqueue, hrest]
    exact List.Sublist.append_left (sublist_cons_self q rest) s.passed
  attempts := h.attempts.snoc hattempt hle
  structured := by
    intro p hp
    refine hkeep _ (h.structured p ?_)
    rw [hrest]
    rw [hqueue] at hp
    exact (List.Sublist.append_left (sublist_cons_self q rest) s.passed).subset hp
  blocked := hblocked

/-- One turn of the loop keeps the promise. -/
theorem Updated.turn (h : Updated seconds a pending s) (hrest : s.rest = q :: rest) :
    ∃ error a', attempt seconds s.array q = some (error, a') ∧
      Updated seconds a pending (scanTurn s q rest error a') := by
  have hq : (s.array.semadj q.undo).isSome := h.structured q (by rw [hrest]; simp)
  rcases tryUndo_cases seconds hq q.sops q.pid with ⟨error, a', hattempt, hle, hkeep, hsame⟩ |
    hwaits
  · refine ⟨error, a', hattempt, ?_⟩
    rw [scanTurn]
    split_ifs with halter
    · -- the scan starts again, with no entry passed
      exact h.removed hrest hattempt hle hkeep rfl fun p hp => absurd hp not_mem_nil
    · -- nothing has changed for the entries that were passed
      have hsame' := hsame (.inl (q.alter_eq.symm.trans (Bool.not_eq_true _ ▸ halter)))
      exact h.removed hrest hattempt hle hkeep rfl
        fun p hp => (h.blocked p hp).congr hsame'.1 (hsame'.semadj p.undo)
  · refine ⟨1, s.array, hwaits seconds, ?_⟩
    have hqueue : s.passed ++ [q] ++ rest = s.passed ++ s.rest := by
      rw [hrest, append_assoc, singleton_append]
    refine ⟨hqueue ▸ h.perm, hqueue ▸ h.sublist, h.attempts, hqueue ▸ h.structured, ?_⟩
    intro p hp
    rcases mem_append.mp hp with hp | hp
    · exact h.blocked p hp
    · rw [mem_singleton.mp hp]
      exact hwaits

/-- The number of turns that a scan may still take, for `n` entries in the queue of which `r` lie
ahead. -/
def turnBound (n r : ℕ) : ℕ := n * n + n + r

theorem turnBound_scanTurn (s : Scan) (q : SemQueue) (rest : List SemQueue) (error : ℤ)
    (a' : Locked) (hrest : s.rest = q :: rest) :
    turnBound ((scanTurn s q rest error a').passed.length +
        (scanTurn s q rest error a').rest.length) (scanTurn s q rest error a').rest.length <
      turnBound (s.passed.length + s.rest.length) s.rest.length := by
  have hsquare : ∀ n : ℕ, (n + 1) * (n + 1) = n * n + 2 * n + 1 := fun n => by ring
  rw [hrest, length_cons, ← Nat.add_assoc, turnBound, turnBound, hsquare]
  rw [scanTurn]
  split_ifs
  · -- the queue is shorter, and all of it lies ahead
    simp only [length_nil, length_append, Nat.zero_add]
    omega
  · dsimp only
    omega
  · have hlen : s.passed.length + 1 + rest.length = s.passed.length + rest.length + 1 :=
      Nat.add_right_comm _ _ _
    simp only [length_append, length_singleton, hlen, hsquare]
    omega

theorem updateLoop_spec {n : ℕ} (h : Updated seconds a pending s)
    (hn : turnBound (s.passed.length + s.rest.length) s.rest.length < n) :
    ∃ out, After n (updateLoop seconds · s) (some out) ∧ out.rest = [] ∧
      Updated seconds a pending out := by
  induction n generalizing s with
  | zero => exact absurd hn (Nat.not_lt_zero _)
  | succ n ih =>
    cases hrest : s.rest with
    | nil => exact ⟨s, after_iff.mpr fun turns _ => by simp only [updateLoop, hrest], hrest, h⟩
    | cons q rest =>
      obtain ⟨error, a', hattempt, hturn⟩ := h.turn hrest
      have hbound := turnBound_scanTurn s q rest error a' hrest
      obtain ⟨out, hout, hend, hupdated⟩ := ih hturn (by omega)
      refine ⟨out, after_iff.mpr fun turns hturns => ?_, hend, hupdated⟩
      simp only [updateLoop, hrest, hattempt]
      exact hout turns hturns

/-- **`update_queue` ends and keeps its promise.** -/
theorem updateQueue_spec (seconds : ℤ) {pending : List SemQueue}
    (h : Structured a pending) :
    ∃ out, Returns (fun turns => updateQueue seconds turns a pending) out ∧ out.rest = [] ∧
      Updated seconds a pending out := by
  have hstart : Updated seconds a pending ⟨a, [], pending, []⟩ :=
    ⟨List.Perm.refl _, List.Sublist.refl _, .nil a, h, fun q hq => absurd hq not_mem_nil⟩
  obtain ⟨out, hout, hrest, hupdated⟩ := updateLoop_spec hstart (Nat.lt_succ_self _)
  exact ⟨out, hout.returns, hrest, hupdated⟩

end Scan

end Gp2xKernel.Semaphore
