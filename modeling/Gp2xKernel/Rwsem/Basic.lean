import Mathlib.Data.BitVec

/-!
# Reader/writer semaphores with a spinlock

The functions of `rwsem-spinlock.c`, each as the one step that it takes under `wait_lock`.  A task
that does not get the semaphore at once goes to the end of the wait list and sleeps, until the task
that releases the semaphore takes it off the list; from then on it has the semaphore.

## Main definitions

* `RwSemaphore`, `Waiter`: the semaphore and the entries of its wait list
* `doWake`, `wakeOneWriter`: whom a release wakes
* `downRead`, `downWriteNested`, `upRead`, `upWrite`, `downgradeWrite`: the operations
-/

namespace Gp2xKernel.Rwsem

/-- What the semaphore is held or waited for: `RWSEM_WAITING_FOR_READ`,
`RWSEM_WAITING_FOR_WRITE`. -/
inductive Mode
  | read
  | write
  deriving DecidableEq

/-- `struct rwsem_waiter`, with the number of the request. -/
structure Waiter (Task : Type) where
  task : Task
  mode : Mode
  ticket : ℕ

/-- `struct rw_semaphore`. -/
structure RwSemaphore (Task : Type) where
  activity : BitVec 32
  waitList : List (Waiter Task)

variable {Task : Type}

/-- The loop of `__rwsem_do_wake`: the readers that are woken, and the rest of the list. -/
def grantReaders : List (Waiter Task) → List (Waiter Task) × List (Waiter Task)
  | [] => ([], [])
  | waiter :: rest =>
    if waiter.mode = .read then (waiter :: (grantReaders rest).1, (grantReaders rest).2)
    else ([], waiter :: rest)

/-- `__rwsem_do_wake`: the waiters that are woken, and the semaphore.  It is called with waiters. -/
def doWake (sem : RwSemaphore Task) (wakewrite : Bool) : List (Waiter Task) × RwSemaphore Task :=
  match sem.waitList with
  | [] => ([], sem)
  | waiter :: rest =>
    if waiter.mode = .write then if wakewrite then ([waiter], ⟨-1, rest⟩) else ([], sem)
    else
      ((grantReaders (waiter :: rest)).1,
        ⟨sem.activity + BitVec.ofNat 32 (grantReaders (waiter :: rest)).1.length,
          (grantReaders (waiter :: rest)).2⟩)

/-- `__rwsem_wake_one_writer`: the first waiter is woken, without a look at what it waits for. -/
def wakeOneWriter (sem : RwSemaphore Task) : List (Waiter Task) × RwSemaphore Task :=
  match sem.waitList with
  | [] => ([], sem)
  | waiter :: rest => ([waiter], ⟨-1, rest⟩)

/-- `__down_read_trylock`. -/
def downReadTrylock (sem : RwSemaphore Task) : Bool × RwSemaphore Task :=
  if 0 ≤ sem.activity.toInt ∧ sem.waitList.isEmpty then
    (true, { sem with activity := sem.activity + 1 })
  else (false, sem)

/-- `__down_read`, up to the loop in which the task sleeps: whether it was granted at once. -/
def downRead (sem : RwSemaphore Task) (waiter : Waiter Task) : Bool × RwSemaphore Task :=
  if 0 ≤ sem.activity.toInt ∧ sem.waitList.isEmpty then
    (true, { sem with activity := sem.activity + 1 })
  else (false, { sem with waitList := sem.waitList ++ [waiter] })

/-- `__down_write_trylock`. -/
def downWriteTrylock (sem : RwSemaphore Task) : Bool × RwSemaphore Task :=
  if sem.activity = 0 ∧ sem.waitList.isEmpty then (true, { sem with activity := -1 })
  else (false, sem)

/-- `__down_write_nested`, up to the loop in which the task sleeps. -/
def downWriteNested (sem : RwSemaphore Task) (waiter : Waiter Task) : Bool × RwSemaphore Task :=
  if sem.activity = 0 ∧ sem.waitList.isEmpty then (true, { sem with activity := -1 })
  else (false, { sem with waitList := sem.waitList ++ [waiter] })

/-- `__up_read`. -/
def upRead (sem : RwSemaphore Task) : List (Waiter Task) × RwSemaphore Task :=
  if sem.activity - 1 = 0 ∧ ¬ sem.waitList.isEmpty then
    wakeOneWriter { sem with activity := sem.activity - 1 }
  else ([], { sem with activity := sem.activity - 1 })

/-- `__up_write`. -/
def upWrite (sem : RwSemaphore Task) : List (Waiter Task) × RwSemaphore Task :=
  if ¬ sem.waitList.isEmpty then doWake { sem with activity := 0 } true
  else ([], { sem with activity := 0 })

/-- `__downgrade_write`. -/
def downgradeWrite (sem : RwSemaphore Task) : List (Waiter Task) × RwSemaphore Task :=
  if ¬ sem.waitList.isEmpty then doWake { sem with activity := 1 } false
  else ([], { sem with activity := 1 })

end Gp2xKernel.Rwsem
