import Mathlib.Data.BitVec
import Mathlib.Algebra.BigOperators.Group.List.Basic

/-!
# Semaphore operations

`try_atomic_semop` of `ipc/sem.c`.  The operations of a list are applied one after another, and
taken back if one of them cannot be applied.  The adjustments for `SEM_UNDO` are values of type
`short`; each operation is checked against the adjustment before the call, and the adjustments are
changed at the end.

## Main definitions

* `SemArray`, `Sembuf`: an array of semaphores, and an operation
* `tryLoop`, `finish`, `rollback`: the three loops of `try_atomic_semop`
* `tryAtomicSemop`: the function
* `Feasible`: operations that can be applied one after another
* `AllOrNothing`: what a call promises

## Main results

* `tryAtomicSemop_of_feasible`, `tryAtomicSemop_of_not_feasible`: what a call does
* `allOrNothing_iff`: the promise is kept exactly if no adjustment leaves its range
-/

namespace Gp2xKernel.Semaphore

open List Function Int

/-- `SEMVMX` -/
def semvmx : ℤ := 32767

/-- `SEMAEM` -/
def semaem : ℤ := semvmx

/-- `EAGAIN` and `ERANGE` -/
def eagain : ℤ := 11

@[inherit_doc eagain] def erange : ℤ := 34

/-- `struct sem` -/
structure Sem where
  semval : ℤ
  sempid : ℤ

/-- `struct sem_array`: the semaphores, their number, and the time of the last operation. -/
structure SemArray where
  semBase : ℕ → Sem
  semNsems : ℕ
  semOtime : ℤ

/-- `struct sembuf`, with the flags `SEM_UNDO` and `IPC_NOWAIT`. -/
structure Sembuf where
  semNum : ℕ
  semOp : BitVec 16
  undo : Bool
  nowait : Bool

/-- `semadj` of a `struct sem_undo`: one adjustment for each semaphore. -/
abbrev SemAdj := ℕ → BitVec 16

/-! ## The functions -/

/-- The code at `would_block`. -/
def wouldBlock (sop : Sembuf) : ℤ := if sop.nowait then -eagain else 1

/-- The first loop: the operations are applied.  The results are the reason to stop, if there is
one, the operations that were applied, latest first, and the semaphores. -/
def tryLoop (semadj : SemAdj) :
    List Sembuf → List Sembuf → (ℕ → Sem) → Option ℤ × List Sembuf × (ℕ → Sem)
  | [], done, base => (none, done, base)
  | sop :: sops, done, base =>
    let curr := base sop.semNum
    let semOp := sop.semOp.toInt
    if semOp = 0 ∧ curr.semval ≠ 0 then (some (wouldBlock sop), done, base)
    else
      let result := curr.semval + semOp
      if result < 0 then (some (wouldBlock sop), done, base)
      else if result > semvmx then (some (-erange), done, base)
      else
        let undo := (semadj sop.semNum).toInt - semOp
        if sop.undo ∧ (undo < -semaem - 1 ∨ undo > semaem) then (some (-erange), done, base)
        else tryLoop semadj sops (sop :: done)
          (Function.update base sop.semNum { curr with semval := result })

/-- The second loop: the operations were successful. -/
def finish (pid : ℤ) : List Sembuf → (ℕ → Sem) × SemAdj → (ℕ → Sem) × SemAdj
  | [], state => state
  | sop :: done, (base, semadj) =>
    finish pid done
      (Function.update base sop.semNum { base sop.semNum with sempid := pid },
        if sop.undo then Function.update semadj sop.semNum (semadj sop.semNum - sop.semOp)
        else semadj)

/-- The loop at `undo`: the operations are taken back. -/
def rollback : List Sembuf → (ℕ → Sem) → (ℕ → Sem)
  | [], base => base
  | sop :: done, base =>
    rollback done (Function.update base sop.semNum
      { base sop.semNum with semval := (base sop.semNum).semval - sop.semOp.toInt })

def tryAtomicSemop (sma : SemArray) (sops : List Sembuf) (semadj : SemAdj) (pid seconds : ℤ) :
    ℤ × SemArray × SemAdj :=
  let (stop, done, base) := tryLoop semadj sops [] sma.semBase
  match stop with
  | none =>
    let (base, semadj) := finish pid done (base, semadj)
    (0, { sma with semBase := base, semOtime := seconds }, semadj)
  | some result => (result, { sma with semBase := rollback done base }, semadj)

/-- The highest number of a semaphore that the operations name. -/
def maxNum (sops : List Sembuf) : ℕ :=
  sops.foldl (fun max sop => if sop.semNum ≥ max then sop.semNum else max) 0

/-! ## What a call promises -/

/-- The sum of the operations on a semaphore. -/
def opSum (sops : List Sembuf) (i : ℕ) : ℤ :=
  (sops.map fun sop => if sop.semNum = i then sop.semOp.toInt else 0).sum

/-- The sum of the operations on a semaphore with `SEM_UNDO`. -/
def undoSum (sops : List Sembuf) (i : ℕ) : ℤ :=
  (sops.map fun sop => if sop.semNum = i ∧ sop.undo then sop.semOp.toInt else 0).sum

/-- An operation can be applied to semaphores with the values `val`: it does not wait for zero in
vain, the new value is in range, and so is the adjustment that this operation alone would lead
to. -/
def Admits (semadj : SemAdj) (val : ℕ → ℤ) (sop : Sembuf) : Prop :=
  (sop.semOp.toInt = 0 → val sop.semNum = 0) ∧
    (0 ≤ val sop.semNum + sop.semOp.toInt ∧ val sop.semNum + sop.semOp.toInt ≤ semvmx) ∧
    (sop.undo = true → -semaem - 1 ≤ (semadj sop.semNum).toInt - sop.semOp.toInt ∧
      (semadj sop.semNum).toInt - sop.semOp.toInt ≤ semaem)

/-- The operations can be applied one after another. -/
def Feasible (semadj : SemAdj) (val : ℕ → ℤ) (sops : List Sembuf) : Prop :=
  ∀ pre sop post, sops = pre ++ sop :: post → Admits semadj (fun i => val i + opSum pre i) sop

/-- The values of the semaphores. -/
def SemArray.val (sma : SemArray) (i : ℕ) : ℤ := (sma.semBase i).semval

/-- A call is all or nothing.  If it returns zero, the operations could be applied in order, with
all values in range at each point; each semaphore has changed by the sum of its operations; and each
adjustment has changed by the sum of the operations with `SEM_UNDO`, and is in range.  If it returns
something else, nothing has changed. -/
structure AllOrNothing (sma : SemArray) (sops : List Sembuf) (semadj : SemAdj)
    (call : ℤ × SemArray × SemAdj) : Prop where
  order : call.1 = 0 → Feasible semadj sma.val sops
  range : call.1 = 0 → ∀ pre, pre <+: sops → ∀ i,
    0 ≤ sma.val i + opSum pre i ∧ sma.val i + opSum pre i ≤ semvmx
  values : call.1 = 0 → ∀ i, call.2.1.val i = sma.val i + opSum sops i
  adjustments : call.1 = 0 → ∀ i, (call.2.2 i).toInt = (semadj i).toInt - undoSum sops i ∧
    -semaem - 1 ≤ (call.2.2 i).toInt ∧ (call.2.2 i).toInt ≤ semaem
  nothing : call.1 ≠ 0 → call.2.1 = sma ∧ call.2.2 = semadj

/-! ## Sums -/

@[simp] theorem opSum_nil (i : ℕ) : opSum [] i = 0 := rfl

variable (sop : Sembuf)

section

variable (sops : List Sembuf) (i : ℕ)

theorem opSum_cons :
    opSum (sop :: sops) i = (if sop.semNum = i then sop.semOp.toInt else 0) + opSum sops i := by
  rw [opSum, map_cons, sum_cons, opSum]

theorem opSum_append (sops sops' : List Sembuf) :
    opSum (sops ++ sops') i = opSum sops i + opSum sops' i := by
  rw [opSum, map_append, sum_append, opSum, opSum]

theorem opSum_reverse : opSum sops.reverse i = opSum sops i := by
  rw [opSum, map_reverse, sum_reverse, opSum]

@[simp] theorem undoSum_nil : undoSum [] i = 0 := rfl

theorem undoSum_cons :
    undoSum (sop :: sops) i =
      (if sop.semNum = i ∧ sop.undo then sop.semOp.toInt else 0) + undoSum sops i := by
  rw [undoSum, map_cons, sum_cons, undoSum]

theorem undoSum_reverse : undoSum sops.reverse i = undoSum sops i := by
  rw [undoSum, map_reverse, sum_reverse, undoSum]

end

/-! ## The loops -/

/-- The semaphores with the operations applied. -/
def addOps (base : ℕ → Sem) (sops : List Sembuf) : ℕ → Sem :=
  fun i => { base i with semval := (base i).semval + opSum sops i }

variable (base : ℕ → Sem)

theorem addOps_nil : addOps base [] = base := by
  funext i
  rw [addOps, opSum_nil, add_zero]

theorem addOps_cons (done : List Sembuf) :
    addOps base (sop :: done) = Function.update (addOps base done) sop.semNum
      { addOps base done sop.semNum with
        semval := (addOps base done sop.semNum).semval + sop.semOp.toInt } := by
  funext i
  by_cases hi : i = sop.semNum
  · subst hi
    rw [update_self, addOps, addOps, opSum_cons, if_pos rfl]
    rw [add_comm sop.semOp.toInt, add_assoc]
  · rw [update_of_ne hi, addOps, addOps, opSum_cons, if_neg (Ne.symm hi), zero_add]

/-- The operations that the first loop has applied are taken back exactly. -/
theorem rollback_addOps (done : List Sembuf) : rollback done (addOps base done) = base := by
  induction done with
  | nil => exact addOps_nil base
  | cons sop done ih =>
    rw [rollback, addOps_cons, update_self]
    rw [Int.add_sub_cancel, update_idem, update_eq_self]
    exact ih

theorem wouldBlock_ne_zero : wouldBlock sop ≠ 0 := by
  rw [wouldBlock]
  split_ifs <;> decide

variable (semadj : SemAdj)

theorem tryLoop_cons (base : ℕ → Sem) (sop : Sembuf) (sops done : List Sembuf) :
    (Admits semadj (fun i => (base i).semval + opSum done i) sop ∧
      tryLoop semadj (sop :: sops) done (addOps base done) =
        tryLoop semadj sops (sop :: done) (addOps base (sop :: done))) ∨
    (¬Admits semadj (fun i => (base i).semval + opSum done i) sop ∧
      ∃ result ≠ 0, tryLoop semadj (sop :: sops) done (addOps base done) =
        (some result, done, addOps base done)) := by
  rw [tryLoop, addOps_cons]
  by_cases hzero : sop.semOp.toInt = 0 ∧ (addOps base done sop.semNum).semval ≠ 0
  · rw [if_pos hzero]
    exact Or.inr ⟨fun h => hzero.2 (h.1 hzero.1), _, wouldBlock_ne_zero sop, rfl⟩
  rw [if_neg hzero]
  by_cases hneg : (addOps base done sop.semNum).semval + sop.semOp.toInt < 0
  · rw [if_pos hneg]
    exact Or.inr ⟨fun h => not_lt.mpr h.2.1.1 hneg, _, wouldBlock_ne_zero sop, rfl⟩
  rw [if_neg hneg]
  by_cases hmax : (addOps base done sop.semNum).semval + sop.semOp.toInt > semvmx
  · rw [if_pos hmax]
    exact Or.inr ⟨fun h => not_lt.mpr h.2.1.2 hmax, _, by decide, rfl⟩
  rw [if_neg hmax]
  by_cases hundo : sop.undo ∧ ((semadj sop.semNum).toInt - sop.semOp.toInt < -semaem - 1 ∨
      (semadj sop.semNum).toInt - sop.semOp.toInt > semaem)
  · rw [if_pos hundo]
    refine Or.inr ⟨fun h => ?_, _, by decide, rfl⟩
    have hadj := h.2.2 hundo.1
    rcases hundo.2 with hlow | hhigh
    · exact not_lt.mpr hadj.1 hlow
    · exact not_lt.mpr hadj.2 hhigh
  · rw [if_neg hundo]
    refine Or.inl ⟨⟨fun h => ?_, ⟨not_lt.mp hneg, not_lt.mp hmax⟩, fun h => ?_⟩, rfl⟩
    · by_contra hne
      exact hzero ⟨h, hne⟩
    · exact ⟨not_lt.mp fun hlow => hundo ⟨h, Or.inl hlow⟩,
        not_lt.mp fun hhigh => hundo ⟨h, Or.inr hhigh⟩⟩

variable {val : ℕ → ℤ}

/-- The operations can be applied if the first of them can, and the others can after it. -/
theorem feasible_cons {semadj : SemAdj} {sop : Sembuf} {sops : List Sembuf} :
    Feasible semadj val (sop :: sops) ↔ Admits semadj val sop ∧
      Feasible semadj (fun i => val i + if sop.semNum = i then sop.semOp.toInt else 0) sops := by
  have hnil : (fun i => val i + opSum [] i) = val := funext fun i => add_zero _
  have hcons : ∀ pre, (fun i => (val i + if sop.semNum = i then sop.semOp.toInt else 0) +
      opSum pre i) = fun i => val i + opSum (sop :: pre) i := by
    intro pre
    funext i
    rw [opSum_cons, add_assoc]
  constructor
  · intro h
    refine ⟨hnil ▸ h [] sop sops rfl, fun pre s post hsplit => ?_⟩
    rw [hcons pre]
    exact h (sop :: pre) s post (by rw [hsplit, cons_append])
  · rintro ⟨hadmits, hrest⟩ pre s post hsplit
    cases pre with
    | nil =>
      obtain ⟨rfl, -⟩ := List.cons.inj hsplit
      rwa [hnil]
    | cons p pre =>
      obtain ⟨rfl, htail⟩ := List.cons.inj hsplit
      rw [← hcons pre]
      exact hrest pre s post htail

/-- **The first loop** applies the operations up to the first that cannot be applied. -/
theorem tryLoop_spec (base : ℕ → Sem) (sops done : List Sembuf) :
    (Feasible semadj (fun i => (base i).semval + opSum done i) sops ∧
      tryLoop semadj sops done (addOps base done) =
        (none, sops.reverse ++ done, addOps base (sops.reverse ++ done))) ∨
    (¬Feasible semadj (fun i => (base i).semval + opSum done i) sops ∧
      ∃ result ≠ 0, ∃ done', tryLoop semadj sops done (addOps base done) =
        (some result, done', addOps base done')) := by
  induction sops generalizing done with
  | nil => exact Or.inl ⟨fun pre sop post h => by simp at h, rfl⟩
  | cons sop sops ih =>
    rcases tryLoop_cons semadj base sop sops done with ⟨hadmits, heq⟩ | ⟨hnot, result, hne, heq⟩
    · have hval : (fun i => (base i).semval + opSum (sop :: done) i) = fun i =>
          ((base i).semval + opSum done i) + if sop.semNum = i then sop.semOp.toInt else 0 := by
        funext i
        rw [opSum_cons, add_comm (ite _ _ _), add_assoc]
      rw [heq, feasible_cons, and_iff_right hadmits, ← hval, reverse_cons, append_assoc]
      exact ih (sop :: done)
    · exact Or.inr ⟨fun h => hnot (feasible_cons.mp h).1, result, hne, done, heq⟩

/-- The adjustments after one turn of the second loop. -/
theorem adjust_apply (sop : Sembuf) (i : ℕ) :
    (if sop.undo then Function.update semadj sop.semNum (semadj sop.semNum - sop.semOp)
      else semadj) i =
      semadj i - BitVec.ofInt 16 (if sop.semNum = i ∧ sop.undo then sop.semOp.toInt else 0) := by
  by_cases hundo : sop.undo = true
  · rw [if_pos hundo]
    by_cases hi : i = sop.semNum
    · subst hi
      rw [if_pos ⟨rfl, hundo⟩, update_self, BitVec.ofInt_toInt]
    · rw [if_neg (fun h => hi h.1.symm), update_of_ne hi]
      exact (sub_zero _).symm
  · rw [if_neg hundo, if_neg (fun h => hundo h.2)]
    exact (sub_zero _).symm

/-- **The second loop** marks the semaphores and changes the adjustments. -/
theorem finish_spec (pid : ℤ) (done : List Sembuf) (base : ℕ → Sem) (semadj : SemAdj) :
    (∀ i, ((finish pid done (base, semadj)).1 i).semval = (base i).semval) ∧
      ∀ i, (finish pid done (base, semadj)).2 i = semadj i - BitVec.ofInt 16 (undoSum done i) := by
  induction done generalizing base semadj with
  | nil => exact ⟨fun i => rfl, fun i => (sub_zero _).symm⟩
  | cons sop done ih =>
    rw [finish]
    obtain ⟨hval, hadj⟩ :=
      ih (Function.update base sop.semNum { base sop.semNum with sempid := pid })
      (if sop.undo then Function.update semadj sop.semNum (semadj sop.semNum - sop.semOp)
        else semadj)
    refine ⟨fun i => ?_, fun i => ?_⟩
    · rw [hval i]
      by_cases hi : i = sop.semNum
      · rw [hi, update_self]
      · rw [update_of_ne hi]
    · rw [hadj i, adjust_apply, undoSum_cons, BitVec.ofInt_add, sub_add_eq_sub_sub]

/-! ## A call -/

variable {sma : SemArray} {sops : List Sembuf} {semadj : SemAdj}

/-- A call that succeeds. -/
theorem tryAtomicSemop_of_feasible (h : Feasible semadj sma.val sops) (pid seconds : ℤ) :
    (tryAtomicSemop sma sops semadj pid seconds).1 = 0 ∧
      (∀ i, (tryAtomicSemop sma sops semadj pid seconds).2.1.val i = sma.val i + opSum sops i) ∧
      ∀ i, (tryAtomicSemop sma sops semadj pid seconds).2.2 i =
        semadj i - BitVec.ofInt 16 (undoSum sops i) := by
  have hloop := tryLoop_spec semadj sma.semBase sops []
  have hval : (fun i => (sma.semBase i).semval + opSum [] i) = sma.val :=
    funext fun i => add_zero _
  rw [hval, addOps_nil, append_nil] at hloop
  rcases hloop with ⟨-, heq⟩ | ⟨hnot, -⟩
  · obtain ⟨hvals, hadj⟩ := finish_spec pid sops.reverse (addOps sma.semBase sops.reverse) semadj
    rw [tryAtomicSemop, heq]
    refine ⟨rfl, fun i => ?_, fun i => ?_⟩
    · exact (hvals i).trans (congrArg ((sma.semBase i).semval + ·) (opSum_reverse sops i))
    · rw [← undoSum_reverse]
      exact hadj i
  · exact absurd h hnot

/-- A call that fails. -/
theorem tryAtomicSemop_of_not_feasible (h : ¬Feasible semadj sma.val sops) (pid seconds : ℤ) :
    (tryAtomicSemop sma sops semadj pid seconds).1 ≠ 0 ∧
      (tryAtomicSemop sma sops semadj pid seconds).2 = (sma, semadj) := by
  have hloop := tryLoop_spec semadj sma.semBase sops []
  have hval : (fun i => (sma.semBase i).semval + opSum [] i) = sma.val :=
    funext fun i => add_zero _
  rw [hval, addOps_nil] at hloop
  rcases hloop with ⟨hfeasible, -⟩ | ⟨-, result, hne, done, heq⟩
  · exact absurd hfeasible h
  · rw [tryAtomicSemop, heq]
    refine ⟨hne, ?_⟩
    dsimp only
    rw [rollback_addOps]

/-- The result of a call says whether the operations can be applied. -/
theorem tryAtomicSemop_eq_zero_iff {pid seconds : ℤ} :
    (tryAtomicSemop sma sops semadj pid seconds).1 = 0 ↔ Feasible semadj sma.val sops := by
  by_cases h : Feasible semadj sma.val sops
  · exact iff_of_true (tryAtomicSemop_of_feasible h pid seconds).1 h
  · exact iff_of_false (tryAtomicSemop_of_not_feasible h pid seconds).1 h

theorem tryAtomicSemop_of_ne_zero {pid seconds : ℤ}
    (h : (tryAtomicSemop sma sops semadj pid seconds).1 ≠ 0) :
    (tryAtomicSemop sma sops semadj pid seconds).2 = (sma, semadj) := by
  refine (tryAtomicSemop_of_not_feasible ?_ pid seconds).2
  intro hfeasible
  exact h (tryAtomicSemop_eq_zero_iff.mpr hfeasible)

theorem Feasible.range (h : Feasible semadj val sops) (hval : ∀ i, 0 ≤ val i ∧ val i ≤ semvmx)
    {pre : List Sembuf} (hpre : pre <+: sops) (i : ℕ) :
    0 ≤ val i + opSum pre i ∧ val i + opSum pre i ≤ semvmx := by
  induction pre using List.reverseRecOn with
  | nil => simpa using hval i
  | append_singleton pre sop ih =>
    have hbefore := ih ((prefix_append pre [sop]).trans hpre)
    obtain ⟨post, hpost⟩ := hpre
    rw [opSum_append, opSum_cons, opSum_nil, add_zero, ← add_assoc]
    split_ifs with hi
    · subst hi
      exact (h pre sop post (by rw [← hpost, append_assoc, singleton_append])).2.1
    · rwa [add_zero]

/-- A 16-bit value that is reduced by a number is exactly that, if and only if it is in range. -/
theorem toInt_sub_ofInt_eq_iff (v : BitVec 16) (z : ℤ) :
    (v - BitVec.ofInt 16 z).toInt = v.toInt - z ↔
      -semaem - 1 ≤ v.toInt - z ∧ v.toInt - z ≤ semaem := by
  rw [BitVec.toInt_sub, BitVec.toInt_ofInt, sub_bmod_bmod]
  have haem : semaem = 32767 := rfl
  constructor
  · intro h
    have hlow := le_bmod (x := v.toInt - z) (m := 2 ^ 16) (by decide)
    have hhigh := bmod_lt (x := v.toInt - z) (m := 2 ^ 16) (by decide)
    omega
  · rintro ⟨hlow, hhigh⟩
    exact bmod_eq_of_le (by omega) (by omega)

theorem toInt_range (v : BitVec 16) : -semaem - 1 ≤ v.toInt ∧ v.toInt ≤ semaem := by
  have haem : semaem = 32767 := rfl
  have hlow := BitVec.le_toInt v
  have hhigh := BitVec.toInt_lt (x := v)
  omega

/-- **Main theorem.**  For semaphores with values in range, a call is all or nothing exactly if the
operations cannot be applied, or the sums of the operations with `SEM_UNDO` lead to adjustments that
are in range. -/
theorem allOrNothing_iff (sma : SemArray) (sops : List Sembuf) (semadj : SemAdj) (pid seconds : ℤ)
    (hval : ∀ i, 0 ≤ sma.val i ∧ sma.val i ≤ semvmx) :
    AllOrNothing sma sops semadj (tryAtomicSemop sma sops semadj pid seconds) ↔
      (Feasible semadj sma.val sops → ∀ i, -semaem - 1 ≤ (semadj i).toInt - undoSum sops i ∧
        (semadj i).toInt - undoSum sops i ≤ semaem) := by
  constructor
  · intro h hfeasible i
    obtain ⟨hzero, -, hadj⟩ := tryAtomicSemop_of_feasible hfeasible pid seconds
    have heq := (h.adjustments hzero i).1
    rw [hadj i] at heq
    exact (toInt_sub_ofInt_eq_iff _ _).mp heq
  · intro h
    refine ⟨tryAtomicSemop_eq_zero_iff.mp, ?_, ?_, ?_, ?_⟩
    · intro hzero pre hpre i
      exact (tryAtomicSemop_eq_zero_iff.mp hzero).range hval hpre i
    · intro hzero
      exact (tryAtomicSemop_of_feasible (tryAtomicSemop_eq_zero_iff.mp hzero) pid seconds).2.1
    · intro hzero i
      have hfeasible := tryAtomicSemop_eq_zero_iff.mp hzero
      rw [(tryAtomicSemop_of_feasible hfeasible pid seconds).2.2 i]
      exact ⟨(toInt_sub_ofInt_eq_iff _ _).mpr (h hfeasible i), toInt_range _⟩
    · intro hne
      rw [tryAtomicSemop_of_ne_zero hne]
      exact ⟨rfl, rfl⟩

/-- Semaphores with the value zero. -/
def zeros : SemArray := ⟨fun _ => ⟨0, 0⟩, 1, 0⟩

/-- Three is added, and two taken back by the same call. -/
theorem allOrNothing_iff_add_take :
    AllOrNothing zeros [⟨0, 3, true, false⟩, ⟨0, -2, true, false⟩] (fun _ => 0)
      (tryAtomicSemop zeros [⟨0, 3, true, false⟩, ⟨0, -2, true, false⟩] (fun _ => 0) 1 0) := by
  refine (allOrNothing_iff zeros _ _ 1 0 fun i => ⟨le_rfl, (by decide : (0 : ℤ) ≤ semvmx)⟩).mpr
    fun _ i => ?_
  rw [undoSum_cons, undoSum_cons, undoSum_nil]
  split_ifs <;> decide

/-- An operation with `SEM_UNDO` that is made twice, with one between them that takes back the
first, is checked twice against the adjustment before the call: the adjustment wraps around. -/
theorem semop_adjustment_wraps :
    ¬AllOrNothing zeros
      [⟨0, 30000, true, false⟩, ⟨0, -30000, false, false⟩, ⟨0, 30000, true, false⟩]
      (fun _ => 0) (tryAtomicSemop zeros
        [⟨0, 30000, true, false⟩, ⟨0, -30000, false, false⟩, ⟨0, 30000, true, false⟩]
        (fun _ => 0) 1 0) := by
  intro h
  exact absurd (h.adjustments (by decide) 0).1 (by decide)

end Gp2xKernel.Semaphore
