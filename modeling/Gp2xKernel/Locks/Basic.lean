import Mathlib.Data.BitVec

/-!
# Byte-range locks

`__posix_lock_file` of `fs/locks.c`.  The locks of an inode are records in memory, chained in a
list; a list of pointers stands for the chain.  The routine works on the records through pointers:
the request itself becomes one of the records of the list as soon as it is merged with one, or
replaces one.

The requests that wait for a lock are not modelled, except for the list that the search for
deadlocks reads.  Two requests have the same owner if their owners are equal.

## Main definitions

* `FileLock`, `Inode`: a lock, and the list of an inode
* `posixLocksConflict`, `posixLocksDeadlock`: the reasons to refuse a request
* `ownerLoop`: the loop over the locks of the owner
* `posixLockFile`: the whole routine
-/

namespace Gp2xKernel.Locks

/-- `F_RDLCK`, `F_WRLCK` and `F_UNLCK` -/
inductive LockType
  | rdlck
  | wrlck
  | unlck
  deriving DecidableEq, Repr

/-- `OFFSET_MAX`, the largest value of type `loff_t` -/
def offsetMax : ℤ := 2 ^ 63 - 1

/-- The value of a sum of type `loff_t`. -/
def loff (z : ℤ) : ℤ := Int.bmod z (2 ^ 64)

/-- The fields of `struct file_lock` that the routine reads. -/
structure FileLock (Owner : Type) where
  flOwner : Owner
  flType : LockType
  flStart : ℤ
  flEnd : ℤ
  deriving DecidableEq

/-- `FL_ACCESS`, `FL_SLEEP` and `FL_EXISTS` among the flags of a request. -/
structure Flags where
  access : Bool
  sleep : Bool
  mustExist : Bool

/-- What the routine returns. -/
inductive Errno
  | ok
  | eagain
  | edeadlk
  | enolck
  | enoent
  deriving DecidableEq, Repr

/-- The locks in memory, by their addresses. -/
abbrev Mem (Owner : Type) := ℕ → FileLock Owner

/-- The list `i_flock` of an inode.  Addresses from `fresh` on are not in use. -/
structure Inode (Owner : Type) where
  flock : List ℕ
  mem : Mem Owner
  fresh : ℕ

/-- The locks of an inode, in the order of the list. -/
def Inode.locks {Owner : Type} (inode : Inode Owner) : List (FileLock Owner) :=
  inode.flock.map inode.mem

variable {Owner : Type} [DecidableEq Owner]

/-! ## Conflicts -/

def locksOverlap (fl₁ fl₂ : FileLock Owner) : Prop :=
  fl₁.flEnd ≥ fl₂.flStart ∧ fl₂.flEnd ≥ fl₁.flStart

instance (fl₁ fl₂ : FileLock Owner) : Decidable (locksOverlap fl₁ fl₂) :=
  inferInstanceAs (Decidable (_ ∧ _))

def locksConflict (caller sys : FileLock Owner) : Prop :=
  sys.flType = .wrlck ∨ caller.flType = .wrlck

instance (caller sys : FileLock Owner) : Decidable (locksConflict caller sys) :=
  inferInstanceAs (Decidable (_ ∨ _))

def posixLocksConflict (caller sys : FileLock Owner) : Prop :=
  caller.flOwner ≠ sys.flOwner ∧ locksOverlap caller sys ∧ locksConflict caller sys

instance (caller sys : FileLock Owner) : Decidable (posixLocksConflict caller sys) :=
  inferInstanceAs (Decidable (_ ∧ _))

/-- `posix_locks_deadlock`, with the number of steps that the counter `i` still allows.  The list
`blocked_list` holds the owner of each waiting request and the owner of the lock it waits for. -/
def posixLocksDeadlock (blocked : List (Owner × Owner)) (caller : Owner) : ℕ → Owner → Bool
  | steps, block =>
    if caller = block then true
    else match steps, blocked.find? fun waiter => waiter.1 = block with
      | steps + 1, some waiter => posixLocksDeadlock blocked caller steps waiter.2
      | _, _ => false

/-- The number of steps that `MAX_DEADLK_ITERATIONS` allows. -/
def maxDeadlkSteps : ℕ := 11

/-! ## The loop over the locks of the owner -/

/-- The variables of the loop. -/
structure Loop (Owner : Type) where
  mem : Mem Owner
  request : ℕ
  added : Bool
  left : Option ℕ
  right : Option ℕ

def setStart (mem : Mem Owner) (p : ℕ) (z : ℤ) : Mem Owner :=
  Function.update mem p { mem p with flStart := z }

def setEnd (mem : Mem Owner) (p : ℕ) (z : ℤ) : Mem Owner :=
  Function.update mem p { mem p with flEnd := z }

/-- Both locks get the lower start. -/
def mergeStart (mem : Mem Owner) (request fl : ℕ) : Mem Owner :=
  if (mem fl).flStart > (mem request).flStart then setStart mem fl (mem request).flStart
  else setStart mem request (mem fl).flStart

/-- Both locks get the higher end. -/
def mergeEnd (mem : Mem Owner) (request fl : ℕ) : Mem Owner :=
  if (mem fl).flEnd < (mem request).flEnd then setEnd mem fl (mem request).flEnd
  else setEnd mem request (mem fl).flEnd

/-- The assignments that make the request and a lock of the same type one. -/
def mergeLocks (mem : Mem Owner) (request fl : ℕ) : Mem Owner :=
  mergeEnd (mergeStart mem request fl) request fl

/-- The assignments that put the request in the place of a lock. -/
def replaceLock (mem : Mem Owner) (request fl : ℕ) : Mem Owner :=
  Function.update mem fl { mem fl with
    flStart := (mem request).flStart, flEnd := (mem request).flEnd, flType := (mem request).flType }

/-- The loop over the locks with the owner of the request.  The arguments are the list from
`before` on and the list up to there, and so are the first two results. -/
def ownerLoop : List ℕ → List ℕ → Loop Owner → List ℕ × List ℕ × Loop Owner
  | [], pre, loop => (pre, [], loop)
  | fl :: post, pre, loop =>
    let lock := loop.mem fl
    let request := loop.mem loop.request
    if request.flOwner ≠ lock.flOwner then (pre, fl :: post, loop)
    else if request.flType = lock.flType then
      if lock.flEnd < loff (request.flStart - 1) then ownerLoop post (pre ++ [fl]) loop
      else if loff (lock.flStart - 1) > request.flEnd then (pre, fl :: post, loop)
      else
        let mem := mergeLocks loop.mem loop.request fl
        -- a second lock to be merged is deleted
        if loop.added then ownerLoop post pre { loop with mem }
        else ownerLoop post (pre ++ [fl]) { loop with mem, request := fl, added := true }
    else
      if lock.flEnd < request.flStart then ownerLoop post (pre ++ [fl]) loop
      else if lock.flStart > request.flEnd then (pre, fl :: post, loop)
      else
        let added := loop.added || request.flType = .unlck
        let left := if lock.flStart < request.flStart then some fl else loop.left
        if lock.flEnd > request.flEnd then
          (pre, fl :: post, { loop with added, left, right := some fl })
        else if lock.flStart ≥ request.flStart then
          if added then ownerLoop post pre { loop with added, left }
          else ownerLoop post (pre ++ [fl])
            { loop with mem := replaceLock loop.mem loop.request fl, request := fl,
                        added := true, left }
        else ownerLoop post (pre ++ [fl]) { loop with added, left }

/-! ## After the loop -/

/-- A new lock for the request is inserted before `post`, unless it has a place in the list. -/
def insertRequest (newFl : ℕ) (loop : Loop Owner) (post : List ℕ) : Loop Owner × List ℕ :=
  if loop.added then (loop, post)
  else ({ loop with mem := Function.update loop.mem newFl (loop.mem loop.request) }, newFl :: post)

/-- The lock `right` is cut behind the request.  If it is also `left`, a second new lock becomes
the part before the request. -/
def cutRight (newFl2 : ℕ) (loop : Loop Owner) (post : List ℕ) : Loop Owner × List ℕ :=
  match loop.right with
  | none => (loop, post)
  | some right =>
    let (loop, post) :=
      if loop.left = loop.right then
        ({ loop with mem := Function.update loop.mem newFl2 (loop.mem right), left := some newFl2 },
          newFl2 :: post)
      else (loop, post)
    ({ loop with
        mem := setStart loop.mem right (loff ((loop.mem loop.request).flEnd + 1)) }, post)

/-- The lock `left` is cut before the request. -/
def cutLeft (loop : Loop Owner) : Mem Owner :=
  match loop.left with
  | none => loop.mem
  | some left => setEnd loop.mem left (loff ((loop.mem loop.request).flStart - 1))

/-- The part of the routine behind the loop.  The addresses of the new locks are missing if they
could not be allocated. -/
def afterLoop (newFl newFl2 : Option ℕ) (mustExist : Bool) (pre post : List ℕ)
    (loop : Loop Owner) : Errno × List ℕ × Mem Owner :=
  if loop.right.isSome ∧ loop.left = loop.right ∧ newFl2 = none then
    (.enolck, pre ++ post, loop.mem)
  else if ¬loop.added ∧ (loop.mem loop.request).flType = .unlck then
    (if mustExist then .enoent else .ok, pre ++ post, loop.mem)
  else if ¬loop.added ∧ newFl = none then (.enolck, pre ++ post, loop.mem)
  else
    let (loop, post) := insertRequest (newFl.getD 0) loop post
    let (loop, post) := cutRight (newFl2.getD 0) loop post
    (.ok, pre ++ post, cutLeft loop)

/-! ## The routine -/

/-- A call: the request and its flags, whether each of the two allocations succeeds, and the
requests that wait for locks. -/
structure Call (Owner : Type) where
  lock : FileLock Owner
  flags : Flags
  alloc : Bool
  alloc2 : Bool
  blocked : List (Owner × Owner)

/-- New locks are only allocated if they may be needed. -/
def needsNew (call : Call Owner) : Bool :=
  !call.flags.access && (call.lock.flType ≠ .unlck || call.lock.flStart ≠ 0 ||
    call.lock.flEnd ≠ offsetMax)

/-- The first lock in the list that conflicts with the request. -/
def firstConflict (inode : Inode Owner) (request : FileLock Owner) : Option (FileLock Owner) :=
  if request.flType ≠ .unlck then
    inode.locks.find? fun fl => posixLocksConflict request fl
  else none

/-- `__posix_lock_file`: what it returns, the conflicting lock that it copies to `conflock`, and
the new list.  The request and the two new locks are at unused addresses. -/
def posixLockFile (call : Call Owner) (inode : Inode Owner) :
    Errno × Option (FileLock Owner) × Inode Owner :=
  let request := inode.fresh
  let newFl := if needsNew call && call.alloc then some (inode.fresh + 1) else none
  let newFl2 := if needsNew call && call.alloc2 then some (inode.fresh + 2) else none
  match firstConflict inode call.lock with
  | some fl =>
    (if call.flags.sleep && posixLocksDeadlock call.blocked call.lock.flOwner maxDeadlkSteps
      fl.flOwner then .edeadlk else .eagain, some fl, inode)
  | none =>
    if call.flags.access then (.ok, none, inode)
    else
      let mem := Function.update inode.mem request call.lock
      -- skip the locks of other owners, and process those of this one
      let other := fun fl => decide (call.lock.flOwner ≠ (mem fl).flOwner)
      let (pre, post, loop) := ownerLoop (inode.flock.dropWhile other) (inode.flock.takeWhile other)
        ⟨mem, request, false, none, none⟩
      let (error, flock, mem) := afterLoop newFl newFl2 call.flags.mustExist pre post loop
      (error, none, ⟨flock, mem, inode.fresh + 3⟩)

end Gp2xKernel.Locks
