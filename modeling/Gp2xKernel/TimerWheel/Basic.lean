import Mathlib.Data.BitVec

/-!
# The timer wheel

The timers of `kernel/timer.c`.  A base keeps its timers in five vectors of lists, `tv1` to `tv5`,
which are the levels `0` to `4` here.  The vector of a timer depends on how far ahead it expires,
and its list on the bits of the time at which it expires.  Lists are taken from the higher vectors
to the lower ones whenever the time has the bits of the list.

One base is modelled.  A timer that goes to the base of another processor leaves this one as if it
were deleted.  The locks of the base are dropped while a timer runs, so that anything may happen
between two timers.

## Main definitions

* `Config`: the word size and the sizes of the vectors
* `Base`: a base and its timers
* `internalAddTimer`, `cascade`, `cascadeTimers`: putting a timer into a vector, and moving timers
* `startIteration`, `runTimer`: the loops of `__run_timers`
* `modTimerAlways`, `modTimer`, `delTimer`: the operations on timers
-/

namespace Gp2xKernel.TimerWheel

/-- `BITS_PER_LONG`, `TVR_BITS` and `TVN_BITS`. -/
structure Config where
  W : ℕ
  tvrBits : ℕ
  tvnBits : ℕ
  tvn_pos : 0 < tvnBits
  fits : tvrBits + 4 * tvnBits ≤ 32
  word : 32 ≤ W

/-- The sizes without `CONFIG_BASE_SMALL`; with it they are 6 and 4. -/
def Config.large (W : ℕ) (h : 32 ≤ W) : Config := ⟨W, 8, 6, Nat.succ_pos 5, Nat.le_refl 32, h⟩

/-- A `tvec_base_t`: the time of the next iteration, the vectors, and the list of the timers that
the iteration under way still has to run; for each timer the field `expires`, and whether its
`entry.next` is not `NULL`; and the variable `jiffies`. -/
structure Base (c : Config) (Timer : Type) where
  timerJiffies : BitVec c.W
  tv : ℕ → ℕ → List Timer
  work : List Timer
  expires : Timer → BitVec c.W
  pending : Timer → Bool
  jiffies : BitVec c.W

variable {c : Config} {Timer : Type}

/-! ## The vectors -/

/-- The vector and the list that `internal_add_timer` chooses. -/
def place (c : Config) (timerJiffies expires : BitVec c.W) : ℕ × ℕ :=
  let idx := expires - timerJiffies
  if idx.toNat < 2 ^ c.tvrBits then (0, expires.toNat &&& (2 ^ c.tvrBits - 1))
  else if idx.toNat < 2 ^ (c.tvrBits + c.tvnBits) then
    (1, (expires.toNat >>> c.tvrBits) &&& (2 ^ c.tvnBits - 1))
  else if idx.toNat < 2 ^ (c.tvrBits + 2 * c.tvnBits) then
    (2, (expires.toNat >>> (c.tvrBits + c.tvnBits)) &&& (2 ^ c.tvnBits - 1))
  else if idx.toNat < 2 ^ (c.tvrBits + 3 * c.tvnBits) then
    (3, (expires.toNat >>> (c.tvrBits + 2 * c.tvnBits)) &&& (2 ^ c.tvnBits - 1))
  else if idx.toInt < 0 then (0, timerJiffies.toNat &&& (2 ^ c.tvrBits - 1))
  else
    let expires :=
      if idx.toNat > 0xffffffff then BitVec.ofNat c.W 0xffffffff + timerJiffies else expires
    (4, (expires.toNat >>> (c.tvrBits + 3 * c.tvnBits)) &&& (2 ^ c.tvnBits - 1))

/-- One of the lists is replaced. -/
def setVec (tv : ℕ → ℕ → List Timer) (level slot : ℕ) (timers : List Timer) :
    ℕ → ℕ → List Timer :=
  fun l i => if l = level ∧ i = slot then timers else tv l i

/-- `INDEX (N)` -/
def index (base : Base c Timer) (n : ℕ) : ℕ :=
  (base.timerJiffies.toNat >>> (c.tvrBits + n * c.tvnBits)) &&& (2 ^ c.tvnBits - 1)

/-- The index in `tv1` of the time of the next iteration. -/
def rootIndex (base : Base c Timer) : ℕ := base.timerJiffies.toNat &&& (2 ^ c.tvrBits - 1)

variable [DecidableEq Timer]

def internalAddTimer (base : Base c Timer) (t : Timer) : Base c Timer :=
  let vec := place c base.timerJiffies (base.expires t)
  { base with
    tv := setVec base.tv vec.1 vec.2 (base.tv vec.1 vec.2 ++ [t])
    pending := Function.update base.pending t true }

def detachTimer (base : Base c Timer) (t : Timer) (clearPending : Bool) : Base c Timer :=
  { base with
    tv := fun l i => (base.tv l i).erase t
    work := base.work.erase t
    pending := if clearPending then Function.update base.pending t false else base.pending }

def cascade (base : Base c Timer) (level slot : ℕ) : Base c Timer :=
  (base.tv level slot).foldl internalAddTimer { base with tv := setVec base.tv level slot [] }

/-! ## The operations -/

/-- `__mod_timer` -/
def modTimerAlways (base : Base c Timer) (t : Timer) (expires : BitVec c.W) : Base c Timer :=
  let base := if base.pending t then detachTimer base t false else base
  internalAddTimer { base with expires := Function.update base.expires t expires } t

def modTimer (base : Base c Timer) (t : Timer) (expires : BitVec c.W) : Base c Timer :=
  if base.expires t = expires ∧ base.pending t then base else modTimerAlways base t expires

def delTimer (base : Base c Timer) (t : Timer) : Base c Timer :=
  if base.pending t then detachTimer base t true else base

/-! ## `__run_timers` -/

def timeAfterEq (a b : BitVec c.W) : Prop := 0 ≤ (a - b).toInt

instance (a b : BitVec c.W) : Decidable (timeAfterEq a b) := inferInstanceAs (Decidable (0 ≤ _))

/-- Moving timers from the higher vectors to the lower ones. -/
def cascadeTimers (base : Base c Timer) : Base c Timer :=
  if rootIndex base ≠ 0 then base
  else
    let base := cascade base 1 (index base 0)
    if index base 0 ≠ 0 then base
    else
      let base := cascade base 2 (index base 1)
      if index base 1 ≠ 0 then base
      else
        let base := cascade base 3 (index base 2)
        if index base 2 ≠ 0 then base else cascade base 4 (index base 3)

/-- An iteration of the outer loop, up to the list of the timers that it is to run. -/
def startIteration (base : Base c Timer) : Base c Timer :=
  let slot := rootIndex base
  let base := cascadeTimers base
  { base with
    timerJiffies := base.timerJiffies + 1
    work := base.tv 0 slot
    tv := setVec base.tv 0 slot [] }

/-- The next timer of the iteration is detached, and runs. -/
def runTimer (base : Base c Timer) : Option (Timer × Base c Timer) :=
  base.work.head?.map fun t => (t, detachTimer base t true)

end Gp2xKernel.TimerWheel
