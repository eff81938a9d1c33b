import Gp2xKernel.Library.Run
import Gp2xKernel.Semaphore.Queue

/-!
# No sleeper is left behind

The tasks that use one array of semaphores.  Each step is what one task does under the lock of the
array: an attempt of `semop`, which may put the task to sleep; `SETVAL` and `SETALL`; a sleeper that
gives up after a timeout or a signal; and the exit of a task, which applies the adjustments of its
undo list when it was the last task to use it.  Tasks share an undo list with the children they
clone with `CLONE_SYSVSEM`.

## Main definitions

* `State`, `Event`, `exec`: the system
* `Inv`: what holds between the steps

## Main results

* `exec_spec`: every step ends and keeps the invariant
* `no_sleeper_left_behind`: in every state that can be reached, `try_atomic_semop` returns 1 for
  every entry of the queue
-/

namespace Gp2xKernel.Semaphore

open Library List Function

/-! ## The system -/

/-- An array and the tasks that use it.  `undoList` is `sysvsem.undo_list` of a task, `refcnt` is
that of an undo list; undo lists are numbered as they are allocated, and `lists` is the next
number.  `woken` are the tasks that were woken, with the status they got. -/
structure State where
  array : Locked
  pending : List SemQueue
  tasks : List ℕ
  undoList : ℕ → Option ℕ
  refcnt : ℕ → ℕ
  lists : ℕ
  woken : List (ℕ × ℤ)

/-- What a task finds when it calls `semop`: the limit `sc_semopm`, the results of `ipcperms` and
of `security_sem_semop`, its number and the time. -/
structure Caller where
  scSemopm : ℕ
  ipcperms : Bool → Bool
  security : ℤ
  pid : ℤ
  seconds : ℤ

/-- The steps of the system. -/
inductive Event
  | findUndo (task : ℕ)
  | semop (task : ℕ) (sops : List Sembuf) (caller : Caller)
  | setval (semnum : ℤ) (val pid seconds : ℤ)
  | setall (semIo : ℕ → BitVec 16) (seconds : ℤ)
  | giveUp (task : ℕ)
  | clone (parent child : ℕ) (sysvsem : Bool)
  | exit (task : ℕ) (pid seconds : ℤ)

namespace State

/-- Whether an operation has `SEM_UNDO`: `undos` of `sys_semtimedop`. -/
def undos (sops : List Sembuf) : Bool := sops.any fun sop => sop.undo

/-- The task exists and does not sleep in the queue. -/
def Runs (s : State) (task : ℕ) : Prop :=
  task ∈ s.tasks ∧ ∀ q ∈ s.pending, q.sleeper ≠ task

instance (s : State) (task : ℕ) : Decidable (s.Runs task) := inferInstanceAs (Decidable (_ ∧ _))

/-- `update_queue`, after the array has changed. -/
def update (s : State) (turns : ℕ) (seconds : ℤ) (array : Locked) : Option State :=
  (updateQueue seconds turns array s.pending).map fun out =>
    { s with
      array := out.array
      pending := out.passed
      woken := s.woken ++ out.woken.map fun w => (w.1.sleeper, w.2) }

def getUndoList (s : State) (task : ℕ) : State × ℕ :=
  match s.undoList task with
  | some u => (s, u)
  | none =>
    ({ s with
      undoList := Function.update s.undoList task (some s.lists)
      refcnt := Function.update s.refcnt s.lists 1
      lists := s.lists + 1 }, s.lists)

/-- The end of `find_undo`: make an undo structure for the array, if there is none. -/
def addUndo (s : State) (u : ℕ) : State :=
  if (s.array.undo u).isSome then s
  else
    { s with array := { s.array with undo := Function.update s.array.undo u (some fun _ => 0) } }

def findUndo (s : State) (task : ℕ) : State := (s.getUndoList task).1.addUndo (s.getUndoList task).2

/-- `find_undo` has found an undo structure for the task. -/
def hasUndo (s : State) (task : ℕ) : Bool :=
  match s.undoList task with
  | none => false
  | some u => (s.array.undo u).isSome

/-- The undo structure that `sys_semtimedop` uses: none if no operation asks for it. -/
def semopUndo (s : State) (task : ℕ) (sops : List Sembuf) : Option ℕ :=
  if undos sops then s.undoList task else none

/-- `append_to_queue` for operations that change the array, `prepend_to_queue` for others. -/
def enqueue (pending : List SemQueue) (q : SemQueue) : List SemQueue :=
  if q.alter then pending ++ [q] else q :: pending

/-- `sys_semtimedop` after `try_atomic_semop`: nothing, a scan of the queue, or sleep. -/
def semopEnd (s : State) (turns : ℕ) (task : ℕ) (sops : List Sembuf) (caller : Caller)
    (error : ℤ) (array : Locked) : Option State :=
  if error ≤ 0 then
    if alters sops ∧ error = 0 then s.update turns caller.seconds array
    else some { s with array := array }
  else
    some { s with
      array := array
      pending := enqueue s.pending
        ⟨task, sops, s.semopUndo task sops, caller.pid, alters sops, rfl⟩ }

/-- `sys_semtimedop` from the checks on, with the undo structure that `find_undo` has found. -/
def semop (s : State) (turns : ℕ) (task : ℕ) (sops : List Sembuf) (caller : Caller) :
    Option State :=
  if sops.length < 1 ∨ sops.length > caller.scSemopm then some s
  else if maxNum sops ≥ s.array.sma.semNsems then some s
  else if caller.ipcperms (alters sops) then some s
  else if caller.security ≠ 0 then some s
  else
    (tryUndo caller.seconds s.array sops (s.semopUndo task sops) caller.pid).bind fun r =>
      s.semopEnd turns task sops caller r.1 r.2

/-- Give one semaphore the value `val`. -/
def setSem (array : Locked) (semnum : ℕ) (val pid : ℤ) : Locked where
  sma := { array.sma with semBase := Function.update array.sma.semBase semnum ⟨val, pid⟩ }
  undo u := (array.undo u).map fun semadj => Function.update semadj semnum 0

/-- The case `SETVAL` of `semctl_main`. -/
def setval (s : State) (turns : ℕ) (semnum val pid seconds : ℤ) : Option State :=
  if semnum < 0 ∨ semnum ≥ s.array.sma.semNsems then some s
  else if val > semvmx ∨ val < 0 then some s
  else s.update turns seconds (setSem s.array semnum.toNat val pid)

/-- Give all semaphores new values. -/
def setAllSems (array : Locked) (semIo : ℕ → BitVec 16) : Locked where
  sma := { array.sma with
    semBase := fun i =>
      if i < array.sma.semNsems then { array.sma.semBase i with semval := (semIo i).toNat }
      else array.sma.semBase i }
  undo u := (array.undo u).map fun semadj i => if i < array.sma.semNsems then 0 else semadj i

/-- The case `SETALL` of `semctl_main`. -/
def setall (s : State) (turns : ℕ) (semIo : ℕ → BitVec 16) (seconds : ℤ) : Option State :=
  if ∃ i < s.array.sma.semNsems, ((semIo i).toNat : ℤ) > semvmx then some s
  else s.update turns seconds (setAllSems s.array semIo)

/-- The end of `sys_semtimedop` for a sleeper that nobody has woken. -/
def giveUp (s : State) (task : ℕ) : State :=
  { s with pending := s.pending.filter fun q => q.sleeper ≠ task }

/-- A new task that shares an undo list. -/
def share (s : State) (child u : ℕ) : State :=
  { s with
    tasks := child :: s.tasks
    undoList := Function.update s.undoList child (some u)
    refcnt := Function.update s.refcnt u (s.refcnt u + 1) }

/-- `copy_semundo` for a new task. -/
def clone (s : State) (parent child : ℕ) (sysvsem : Bool) : State :=
  if sysvsem then (s.getUndoList parent).1.share child (s.getUndoList parent).2
  else { s with tasks := child :: s.tasks, undoList := Function.update s.undoList child none }

/-- A value is capped at 0 and at `SEMVMX`. -/
def capped (val : ℤ) : ℤ := if val < 0 then 0 else if val > semvmx then semvmx else val

/-- A semaphore after the adjustment of `exit_sem`. -/
def adjusted (sem : Sem) (semadj : BitVec 16) (pid : ℤ) : Sem :=
  if semadj ≠ 0 then ⟨capped (sem.semval + semadj.toInt), pid⟩ else sem

/-- The array after the adjustments of an undo structure, which is taken off the list. -/
def adjustArray (array : Locked) (u : ℕ) (semadj : SemAdj) (pid seconds : ℤ) : Locked where
  sma := { array.sma with
    semBase := fun i =>
      if i < array.sma.semNsems then adjusted (array.sma.semBase i) (semadj i) pid
      else array.sma.semBase i
    semOtime := seconds }
  undo := Function.update array.undo u none

/-- The task ends. -/
def leave (s : State) (task : ℕ) : State := { s with tasks := s.tasks.erase task }

/-- A task that uses the undo list `u` ends. -/
def leaveList (s : State) (task u : ℕ) : State :=
  { s.leave task with refcnt := Function.update s.refcnt u (s.refcnt u - 1) }

/-- `exit_sem` for the last task that uses the undo list `u`. -/
def exitLast (s : State) (turns : ℕ) (u : ℕ) (pid seconds : ℤ) : Option State :=
  match s.array.undo u with
  | none => some s
  | some semadj => s.update turns seconds (adjustArray s.array u semadj pid seconds)

/-- `exit_sem`, and the end of the task. -/
def exitSem (s : State) (turns : ℕ) (task : ℕ) (pid seconds : ℤ) : Option State :=
  match s.undoList task with
  | none => some (s.leave task)
  | some u =>
    if (s.leaveList task u).refcnt u ≠ 0 then some (s.leaveList task u)
    else (s.leaveList task u).exitLast turns u pid seconds

end State

/-- One step.  A task that sleeps or does not exist takes no step; a call of `semop` with
`SEM_UNDO` comes after `find_undo`. -/
def exec (turns : ℕ) (s : State) : Event → Option State
  | .findUndo task => if s.Runs task then some (s.findUndo task) else some s
  | .semop task sops caller =>
    if s.Runs task ∧ (State.undos sops = true → s.hasUndo task = true) then
      s.semop turns task sops caller
    else some s
  | .setval semnum val pid seconds => s.setval turns semnum val pid seconds
  | .setall semIo seconds => s.setall turns semIo seconds
  | .giveUp task => some (s.giveUp task)
  | .clone parent child sysvsem =>
    if s.Runs parent ∧ child ∉ s.tasks then some (s.clone parent child sysvsem) else some s
  | .exit task pid seconds => if s.Runs task then s.exitSem turns task pid seconds else some s

/-- The runs of the system, from the time when the array is made. -/
def semSystem : System State Event where
  init s := s.pending = [] ∧ (∀ i, s.array.sma.val i = 0) ∧ (∀ u, s.array.undo u = none) ∧
    s.tasks.Nodup ∧ (∀ u, s.refcnt u = s.tasks.countP fun t => s.undoList t = some u) ∧
    ∀ t u, s.undoList t = some u → u < s.lists
  step _ s e s' := Returns (fun turns => exec turns s e) s'

/-! ## What holds between the steps -/

/-- The tasks, the undo lists they share, and the sleepers among them. -/
structure Tasks (s : State) : Prop where
  nodup : s.tasks.Nodup
  count : ∀ u, s.refcnt u = s.tasks.countP fun t => s.undoList t = some u
  fresh : ∀ t ∈ s.tasks, ∀ u, s.undoList t = some u → u < s.lists
  sleeper : ∀ q ∈ s.pending, q.sleeper ∈ s.tasks
  once : (s.pending.map SemQueue.sleeper).Nodup
  owns : ∀ q ∈ s.pending, ∀ u, q.undo = some u → s.undoList q.sleeper = some u

/-- **What holds between the steps.** -/
structure Inv (s : State) : Prop extends Tasks s where
  blocked : ∀ q ∈ s.pending, Blocked s.array q

variable {s : State}

theorem Inv.structured (h : Inv s) : Structured s.array s.pending :=
  fun q hq => (h.blocked q hq).isSome

variable {pending : List SemQueue} {task child u : ℕ} {refcnt : ℕ → ℕ} {q : SemQueue}
  {sops : List Sembuf}

section

variable (h : Tasks s)
include h

/-- Entries leave the queue, and the array changes. -/
theorem Tasks.removed (hsub : pending.Sublist s.pending) (array : Locked)
    (woken : List (ℕ × ℤ)) :
    Tasks { s with array := array, pending := pending, woken := woken } where
  nodup := h.nodup
  count := h.count
  fresh := h.fresh
  sleeper q hq := h.sleeper q (hsub.subset hq)
  once := h.once.sublist (hsub.map _)
  owns q hq := h.owns q (hsub.subset hq)

/-- **A scan of the queue** ends, and all entries that are left have to go on sleeping. -/
theorem Tasks.update {array : Locked} (hstruct : Structured array s.pending)
    (seconds : ℤ) :
    ∃ s', Returns (fun turns => s.update turns seconds array) s' ∧ Inv s' := by
  obtain ⟨out, ⟨enough, hout⟩, hrest, hupdated⟩ := updateQueue_spec seconds hstruct
  have hsub := hupdated.sublist
  rw [hrest, append_nil] at hsub
  refine ⟨{ s with
    array := out.array
    pending := out.passed
    woken := s.woken ++ out.woken.map fun w => (w.1.sleeper, w.2) }, ⟨enough, ?_⟩, ?_⟩
  · intro turns hturns
    have hrun : updateQueue seconds turns array s.pending = some out := hout turns hturns
    simp [State.update, hrun]
  · exact ⟨h.removed hsub _ _, hupdated.blocked⟩

/-! ## Undo lists -/

omit h in
theorem getUndoList_frame (s : State) (task : ℕ) :
    (s.getUndoList task).1.array = s.array ∧ (s.getUndoList task).1.pending = s.pending ∧
      (s.getUndoList task).1.tasks = s.tasks := by
  rw [State.getUndoList]
  cases s.undoList task with
  | none | some => exact ⟨rfl, rfl, rfl⟩

theorem Tasks.getUndoList (hruns : s.Runs task) :
    Tasks (s.getUndoList task).1 ∧
      (s.getUndoList task).1.undoList task = some (s.getUndoList task).2 := by
  rw [State.getUndoList]
  cases hlist : s.undoList task with
  | some u => exact ⟨h, hlist⟩
  | none =>
    refine ⟨⟨h.nodup, ?_, ?_, h.sleeper, h.once, ?_⟩, update_self ..⟩
    · intro u
      dsimp only
      by_cases hu : u = s.lists
      · -- the new undo list is that of `task` alone
        subst hu
        have hcongr : s.tasks.countP (fun t =>
              Function.update s.undoList task (some s.lists) t = some s.lists) =
            s.tasks.countP (fun t => t == task) := by
          refine countP_congr fun t ht => ?_
          by_cases htask : t = task
          · simp [htask]
          · have hne : s.undoList t ≠ some s.lists := fun heq => lt_irrefl _ (h.fresh t ht _ heq)
            simp [htask, hne]
        rw [update_self, hcongr]
        exact (count_eq_one_of_mem h.nodup hruns.1).symm
      · rw [update_of_ne hu, h.count u]
        refine countP_congr fun t _ => ?_
        by_cases htask : t = task
        · simp [htask, hlist, Ne.symm hu]
        · simp [htask]
    · intro t ht u hu
      dsimp only at hu ⊢
      by_cases htask : t = task
      · rw [htask, update_self] at hu
        exact Option.some.inj hu ▸ Nat.lt_succ_self _
      · rw [update_of_ne htask] at hu
        exact (h.fresh t ht u hu).trans (Nat.lt_succ_self _)
    · intro q hq u hu
      exact (update_of_ne (hruns.2 q hq) ..).trans (h.owns q hq u hu)

/-- A new task shares an undo list, or has none. -/
theorem Tasks.addTask (hnew : child ∉ s.tasks) {list : Option ℕ} (hlt : ∀ u ∈ list, u < s.lists)
    (hcount : ∀ u, refcnt u = s.refcnt u + if list = some u then 1 else 0) :
    Tasks { s with
      tasks := child :: s.tasks
      undoList := Function.update s.undoList child list
      refcnt := refcnt } := by
  have hother : ∀ t ∈ s.tasks, Function.update s.undoList child list t = s.undoList t := by
    intro t ht
    have hne : t ≠ child := fun heq => hnew (heq ▸ ht)
    exact update_of_ne hne ..
  refine ⟨nodup_cons.mpr ⟨hnew, h.nodup⟩, ?_, ?_, ?_, h.once, ?_⟩
  · intro u
    have hcongr : s.tasks.countP (fun t => Function.update s.undoList child list t = some u) =
        s.tasks.countP (fun t => s.undoList t = some u) := by
      refine countP_congr fun t ht => ?_
      rw [hother t ht]
    dsimp only
    rw [hcount, h.count, countP_cons, hcongr]
    simp
  · intro t ht u hu
    dsimp only at hu ⊢
    rcases mem_cons.mp ht with rfl | ht
    · rw [update_self] at hu
      exact hlt u hu
    · rw [hother t ht] at hu
      exact h.fresh t ht u hu
  · intro q hq
    exact mem_cons_of_mem _ (h.sleeper q hq)
  · intro q hq u hu
    exact (hother _ (h.sleeper q hq)).trans (h.owns q hq u hu)

theorem Tasks.share (hnew : child ∉ s.tasks) (hlt : u < s.lists) : Tasks (s.share child u) := by
  refine h.addTask hnew (fun v hv => Option.some.inj hv ▸ hlt) fun v => ?_
  by_cases hv : v = u
  · simp [hv]
  · simp [hv, Ne.symm hv]

theorem Tasks.erase (hruns : s.Runs task)
    (hcount : ∀ u, refcnt u = s.refcnt u - if s.undoList task = some u then 1 else 0) :
    Tasks { s with tasks := s.tasks.erase task, refcnt := refcnt } where
  nodup := h.nodup.erase task
  count u := by
    dsimp only
    rw [hcount, h.count, countP_erase]
    simp [hruns.1]
  fresh t ht := h.fresh t (mem_of_mem_erase ht)
  sleeper q hq := (mem_erase_of_ne (hruns.2 q hq)).mpr (h.sleeper q hq)
  once := h.once
  owns := h.owns

theorem Tasks.leave (hruns : s.Runs task) (hnone : s.undoList task = none) : Tasks (s.leave task) :=
  h.erase hruns fun u => by simp [hnone]

theorem Tasks.leaveList (hruns : s.Runs task)
    (hlist : s.undoList task = some u) : Tasks (s.leaveList task u) := by
  refine h.erase hruns fun v => ?_
  by_cases hv : v = u
  · simp [hv, hlist]
  · simp [hv, hlist, Ne.symm hv]

end

/-! ## The steps -/

/-- A call that needs no loop. -/
theorem returns_some {β : Type*} (out : β) : Returns (fun _ => some out) out := ⟨0, fun _ _ => rfl⟩

/-- `find_undo` makes an undo structure that no entry of the queue uses. -/
theorem Inv.findUndo (h : Inv s) (hruns : s.Runs task) : Inv (s.findUndo task) := by
  obtain ⟨harray, hpending, -⟩ := getUndoList_frame s task
  have htasks := (h.toTasks.getUndoList hruns).1
  set r := s.getUndoList task with hr
  have hblocked : ∀ q ∈ r.1.pending, Blocked r.1.array q := by
    rw [harray, hpending]
    exact h.blocked
  rw [State.findUndo, State.addUndo]
  split_ifs with hsome
  · exact ⟨htasks, hblocked⟩
  · refine ⟨htasks.removed (List.Sublist.refl _) _ _, ?_⟩
    intro q hq
    refine (hblocked q hq).congr rfl ?_
    cases hundo : q.undo with
    | none => rfl
    | some u =>
      have hu : u ≠ r.2 := by
        rintro rfl
        have hused := (hblocked q hq).isSome
        rw [hundo] at hused
        exact hsome hused
      exact update_of_ne hu ..

theorem enqueue_perm (pending : List SemQueue) (q : SemQueue) :
    (State.enqueue pending q).Perm (q :: pending) := by
  rw [State.enqueue]
  split_ifs
  · exact perm_append_singleton q pending
  · exact List.Perm.refl _

theorem mem_enqueue {p : SemQueue} (h : p ∈ State.enqueue pending q) : p = q ∨ p ∈ pending :=
  mem_cons.mp ((enqueue_perm pending q).mem_iff.mp h)

/-- A task goes to sleep. -/
theorem Tasks.enqueue (h : Tasks s) (hruns : s.Runs q.sleeper)
    (howns : ∀ u, q.undo = some u → s.undoList q.sleeper = some u) :
    Tasks { s with pending := State.enqueue s.pending q } := by
  refine ⟨h.nodup, h.count, h.fresh, ?_, ?_, ?_⟩
  · intro p hp
    rcases mem_enqueue hp with rfl | hp
    · exact hruns.1
    · exact h.sleeper p hp
  · refine ((enqueue_perm s.pending q).map _).nodup_iff.mpr (nodup_cons.mpr ⟨?_, h.once⟩)
    intro hmem
    obtain ⟨p, hp, heq⟩ := mem_map.mp hmem
    exact hruns.2 p hp heq
  · intro p hp
    rcases mem_enqueue hp with rfl | hp
    · exact howns
    · exact h.owns p hp

theorem semopUndo_isSome (hundo : State.undos sops = true → s.hasUndo task = true) :
    (s.array.semadj (s.semopUndo task sops)).isSome := by
  rw [State.semopUndo]
  split_ifs with hu
  · have hhas := hundo hu
    rw [State.hasUndo] at hhas
    cases hlist : s.undoList task with
    | none => simp [hlist] at hhas
    | some u =>
      rw [hlist] at hhas
      exact hhas
  · rfl

section

variable (h : Inv s)
include h

/-- **An attempt of `semop`.** -/
theorem Inv.semop (hruns : s.Runs task)
    (hundo : State.undos sops = true → s.hasUndo task = true) (caller : Caller) :
    ∃ s', Returns (fun turns => s.semop turns task sops caller) s' ∧ Inv s' := by
  have hsame : ∃ s', Returns (fun _ => some s) s' ∧ Inv s' := ⟨s, returns_some s, h⟩
  simp only [State.semop]
  split_ifs with hlen hnum hperm hsec
  · exact hsame
  · exact hsame
  · exact hsame
  · exact hsame
  rcases tryUndo_cases caller.seconds (semopUndo_isSome hundo) sops caller.pid with
    ⟨error, a', htry, hle, hkeep, hquiet⟩ | hwaits
  · simp only [htry, Option.bind_some, State.semopEnd, if_pos hle]
    by_cases hupdate : alters sops = true ∧ error = 0
    · simp only [if_pos hupdate]
      exact h.toTasks.update (fun q hq => hkeep _ (h.structured q hq)) caller.seconds
    · -- nothing has changed for the sleepers
      simp only [if_neg hupdate]
      have hq := hquiet (by
        by_cases hzero : error = 0
        · exact .inl (Bool.not_eq_true _ ▸ fun halters => hupdate ⟨halters, hzero⟩)
        · exact .inr hzero)
      exact ⟨_, returns_some _, h.toTasks.removed (List.Sublist.refl _) _ _,
        fun q hmem => (h.blocked q hmem).congr hq.1 (hq.semadj q.undo)⟩
  · -- the task goes to sleep
    simp only [hwaits caller.seconds]
    refine ⟨_, returns_some _, h.toTasks.enqueue hruns ?_, ?_⟩
    · intro u hu
      dsimp only [State.semopUndo] at hu
      split_ifs at hu
      exact hu
    · intro q hq
      rcases mem_enqueue hq with rfl | hq
      · exact hwaits
      · exact h.blocked q hq

omit h in
theorem structured_map {a b : Locked} {queue : List SemQueue} (h : Structured a queue)
    (hkeep : ∀ u, (a.undo u).isSome → (b.undo u).isSome) : Structured b queue := by
  intro q hq
  have hsome := h q hq
  cases hundo : q.undo with
  | none => rfl
  | some u =>
    rw [hundo] at hsome
    exact hkeep u hsome

theorem Inv.setval (semnum val pid seconds : ℤ) :
    ∃ s', Returns (fun turns => s.setval turns semnum val pid seconds) s' ∧ Inv s' := by
  simp only [State.setval]
  split_ifs
  · exact ⟨s, returns_some s, h⟩
  · exact ⟨s, returns_some s, h⟩
  · refine h.toTasks.update (structured_map h.structured fun u hu => ?_) seconds
    simpa [State.setSem] using hu

theorem Inv.setall (semIo : ℕ → BitVec 16) (seconds : ℤ) :
    ∃ s', Returns (fun turns => s.setall turns semIo seconds) s' ∧ Inv s' := by
  simp only [State.setall]
  split_ifs
  · exact ⟨s, returns_some s, h⟩
  · refine h.toTasks.update (structured_map h.structured fun u hu => ?_) seconds
    simpa [State.setAllSems] using hu

theorem Inv.giveUp (task : ℕ) : Inv (s.giveUp task) :=
  ⟨h.toTasks.removed filter_sublist _ _, fun q hq => h.blocked q (mem_of_mem_filter hq)⟩

theorem Inv.clone {parent : ℕ} (hruns : s.Runs parent) (hnew : child ∉ s.tasks)
    (sysvsem : Bool) : Inv (s.clone parent child sysvsem) := by
  rw [State.clone]
  split_ifs
  · obtain ⟨harray, hpending, htasks⟩ := getUndoList_frame s parent
    obtain ⟨hget, hlist⟩ := h.toTasks.getUndoList hruns
    have hlt := hget.fresh parent (htasks ▸ hruns.1) _ hlist
    refine ⟨hget.share (htasks ▸ hnew) hlt, ?_⟩
    intro q hq
    have hq' : q ∈ s.pending := hpending ▸ hq
    exact harray ▸ h.blocked q hq'
  · exact ⟨h.toTasks.addTask hnew (by simp) (by simp), h.blocked⟩

/-- **The exit of a task.**  When it was the last to use its undo list, no sleeper uses the undo
structure that is freed. -/
theorem Inv.exitSem (hruns : s.Runs task) (pid seconds : ℤ) :
    ∃ s', Returns (fun turns => s.exitSem turns task pid seconds) s' ∧ Inv s' := by
  cases hlist : s.undoList task with
  | none =>
    simp only [State.exitSem, hlist]
    exact ⟨_, returns_some _, h.toTasks.leave hruns hlist, h.blocked⟩
  | some u =>
    have hleave := h.toTasks.leaveList hruns hlist
    simp only [State.exitSem, hlist]
    by_cases hlast : (s.leaveList task u).refcnt u ≠ 0
    · simp only [if_pos hlast]
      exact ⟨_, returns_some _, hleave, h.blocked⟩
    · simp only [if_neg hlast, State.exitLast]
      cases hundo : (s.leaveList task u).array.undo u with
      | none => exact ⟨_, returns_some _, hleave, h.blocked⟩
      | some semadj =>
        refine hleave.update ?_ seconds
        -- nobody is left who uses the undo list, so no sleeper does
        have hzero : (s.leaveList task u).tasks.countP
            (fun t => (s.leaveList task u).undoList t = some u) = 0 :=
          (hleave.count u).symm.trans (not_not.mp hlast)
        intro q hq
        have hsome : (s.array.semadj q.undo).isSome := h.structured q hq
        cases hqu : q.undo with
        | none => rfl
        | some v =>
          have hv : v ≠ u := by
            rintro rfl
            have howner := hleave.owns q hq v hqu
            have hnobody := countP_eq_zero.mp hzero _ (hleave.sleeper q hq)
            simp [howner] at hnobody
          rw [hqu] at hsome
          have hkept : (Function.update s.array.undo u none v).isSome := by
            rw [update_of_ne hv]
            exact hsome
          exact hkept

/-- **Every step ends and keeps the invariant.** -/
theorem exec_spec (e : Event) : ∃ s', Returns (fun turns => exec turns s e) s' ∧ Inv s' := by
  have hsame : ∃ s', Returns (fun _ => some s) s' ∧ Inv s' := ⟨s, returns_some s, h⟩
  cases e with
  | findUndo task =>
    simp only [exec]
    split_ifs with hruns
    · exact ⟨_, returns_some _, h.findUndo hruns⟩
    · exact hsame
  | semop task sops caller =>
    simp only [exec]
    split_ifs with hguard
    · exact h.semop hguard.1 hguard.2 caller
    · exact hsame
  | setval semnum val pid seconds => exact h.setval semnum val pid seconds
  | setall semIo seconds => exact h.setall semIo seconds
  | giveUp task => exact ⟨_, returns_some _, h.giveUp task⟩
  | clone parent child sysvsem =>
    simp only [exec]
    split_ifs with hguard
    · exact ⟨_, returns_some _, h.clone hguard.1 hguard.2 sysvsem⟩
    · exact hsame
  | exit task pid seconds =>
    simp only [exec]
    split_ifs with hruns
    · exact h.exitSem hruns pid seconds
    · exact hsame

end

/-! ## All runs -/

theorem reach_inv {tr : List Event} (h : semSystem.Reach tr s) : Inv s := by
  refine System.Reach.invariant (P := fun _ s => Inv s) ?_ ?_ h
  · rintro s ⟨hpending, -, -, hnodup, hcount, hfresh⟩
    refine ⟨⟨hnodup, hcount, fun t _ => hfresh t, ?_, ?_, ?_⟩, ?_⟩ <;> simp [hpending]
  · intro _ s e s' hinv hstep
    obtain ⟨out, hout, hinv'⟩ := exec_spec hinv e
    exact hout.unique hstep ▸ hinv'

/-- **Main theorem.**  In every state that can be reached, `try_atomic_semop` returns 1 for every
entry of the queue, every step ends, and no task has two entries in the queue.  Whatever the array
is when `update_queue` is called, as long as it has the undo structures of the sleepers, the scan
ends, wakes each entry that it removes once, with the status of its own attempt, and leaves no entry
that could complete. -/
theorem no_sleeper_left_behind {tr : List Event} (h : semSystem.Reach tr s) :
    (∀ q ∈ s.pending, ∀ seconds, attempt seconds s.array q = some (1, s.array)) ∧
      (s.pending.map SemQueue.sleeper).Nodup ∧
      (∀ e, ∃ s', Returns (fun turns => exec turns s e) s') ∧
      ∀ seconds array, Structured array s.pending →
        ∃ out, Returns (fun turns => updateQueue seconds turns array s.pending) out ∧
          (out.woken.map Prod.fst ++ out.passed).Perm s.pending ∧
          Attempts seconds array out.woken out.array ∧
          ∀ q ∈ out.passed, ∀ seconds, attempt seconds out.array q = some (1, out.array) := by
  have hinv := reach_inv h
  refine ⟨hinv.blocked, hinv.once, ?_, ?_⟩
  · intro e
    obtain ⟨s', hs', -⟩ := exec_spec hinv e
    exact ⟨s', hs'⟩
  · intro seconds array hstruct
    obtain ⟨out, hout, hrest, hupdated⟩ := updateQueue_spec seconds hstruct
    have hperm := hupdated.perm
    rw [hrest, append_nil] at hperm
    exact ⟨out, hout, hperm, hupdated.attempts, hupdated.blocked⟩

/-- Two tasks, and one semaphore with the value zero. -/
def twoTasks : State where
  array := ⟨⟨fun _ => ⟨0, 0⟩, 1, 0⟩, fun _ => none⟩
  pending := []
  tasks := [1, 2]
  undoList := fun _ => none
  refcnt := fun _ => 0
  lists := 0
  woken := []

/-- The first task waits for the semaphore. -/
def firstWaits : Event := .semop 1 [⟨0, -1, false, false⟩] ⟨500, fun _ => false, 0, 1, 0⟩

theorem reach_firstWaits : ∃ s, s.pending.length = 1 ∧ semSystem.Reach [firstWaits] s := by
  refine ⟨(exec 0 twoTasks firstWaits).getD twoTasks, by rfl, .step (.init (s := twoTasks) ?_) ?_⟩
  · exact ⟨rfl, fun _ => rfl, fun _ => rfl, by decide, fun _ => rfl, fun _ _ h => by cases h⟩
  · exact ⟨0, fun _ _ => rfl⟩

theorem no_sleeper_left_behind_firstWaits :
    ∃ s, s.pending.length = 1 ∧ semSystem.Reach [firstWaits] s ∧
      ∀ q ∈ s.pending, ∀ seconds, attempt seconds s.array q = some (1, s.array) := by
  obtain ⟨s, hlen, hreach⟩ := reach_firstWaits
  exact ⟨s, hlen, hreach, (no_sleeper_left_behind hreach).1⟩

end Gp2xKernel.Semaphore
