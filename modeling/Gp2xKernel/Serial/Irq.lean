import Mathlib.Data.BitVec

/-!
# Interrupt lines

The kernel keeps for every interrupt line whether a handler is installed and how often the line
has been disabled since.  `request_irq` installs a handler and starts the line enabled,
`free_irq` removes it; `disable_irq` and `enable_irq` nest in between.

Besides the descriptors the model keeps the log of all calls.  What a driver owes to the kernel
is stated on that log alone: a line is requested only when it is not held, it is freed and
switched only while it is held, and it is enabled only after it has been disabled.

## Main definitions

* `IrqDesc`, `Irqs`: the descriptors of the two lines of a port, and the log of the calls
* `requestIrq`, `freeIrq`, `enableIrq`, `disableIrq`: `kernel/irq/manage.c`
* `heldIn`, `depthIn`: what a log says about a line
* `Balanced`: the calls that a driver may make

## Main results

* `Irqs.Tracks`: the descriptors say what the log says; every call keeps this
* `Balanced.frees_add`: in a balanced log every successful request is freed exactly once, except
  for the one that is still held
-/

namespace Gp2xKernel.Serial

/-- The two interrupt lines of a port. -/
inductive Line
  | tx
  | rx
  deriving DecidableEq, Repr

/-- The errors of `request_irq`. -/
inductive Errno
  | EINVAL
  | ENOMEM
  | ENOSYS
  | EBUSY
  deriving DecidableEq, Repr

/-- `struct irq_desc`: whether a handler is installed, and how often the line is disabled. -/
structure IrqDesc where
  action : Bool
  depth : ℕ
  deriving DecidableEq, Repr

/-- A call of the interrupt layer; a request carries its return value, `none` for 0. -/
inductive IrqCall
  | request (l : Line) (ret : Option Errno)
  | free (l : Line)
  | enable (l : Line)
  | disable (l : Line)
  deriving DecidableEq, Repr

/-- The descriptors of the lines, and the calls made so far, latest first. -/
structure Irqs where
  desc : Line → IrqDesc
  log : List IrqCall

namespace Irqs

/-- The call `c` leaves the descriptor `d` on the line `l`. -/
def record (q : Irqs) (l : Line) (d : IrqDesc) (c : IrqCall) : Irqs :=
  ⟨Function.update q.desc l d, c :: q.log⟩

variable (q : Irqs)

@[simp] theorem record_log (l : Line) (d : IrqDesc) (c : IrqCall) :
    (q.record l d c).log = c :: q.log := rfl

@[simp] theorem record_desc_self (l : Line) (d : IrqDesc) (c : IrqCall) :
    (q.record l d c).desc l = d := Function.update_self ..

theorem record_desc_of_ne {l l' : Line} (h : l' ≠ l) (d : IrqDesc) (c : IrqCall) :
    (q.record l d c).desc l' = q.desc l' := Function.update_of_ne h ..

end Irqs

/-- `request_irq` without `IRQF_SHARED`.  `fails` is what the checks before `setup_irq` looks for
an installed handler return, the allocation of the action included.  A line whose handler is
installed is started with depth 0. -/
def requestIrq (q : Irqs) (l : Line) (fails : Option Errno) : Option Errno × Irqs :=
  match fails with
  | some e => (some e, q.record l (q.desc l) (.request l (some e)))
  | none =>
    if (q.desc l).action then
      (some .EBUSY, q.record l (q.desc l) (.request l (some .EBUSY)))
    else
      (none, q.record l ⟨true, 0⟩ (.request l none))

/-- `free_irq`: of a line without a handler it only complains. -/
def freeIrq (q : Irqs) (l : Line) : Irqs :=
  q.record l { q.desc l with action := false } (.free l)

def disableIrq (q : Irqs) (l : Line) : Irqs :=
  q.record l { q.desc l with depth := (q.desc l).depth + 1 } (.disable l)

/-- `enable_irq`: at depth 0 it only complains about the unbalanced call. -/
def enableIrq (q : Irqs) (l : Line) : Irqs :=
  q.record l { q.desc l with depth := (q.desc l).depth - 1 } (.enable l)

/-! ## What a log says -/

/-- Whether the line is held after the calls of a log. -/
def heldIn (l : Line) : List IrqCall → Bool
  | [] => false
  | .request l' none :: log => if l' = l then true else heldIn l log
  | .free l' :: log => if l' = l then false else heldIn l log
  | _ :: log => heldIn l log

/-- How often the line has been disabled, and not enabled again, since it was requested. -/
def depthIn (l : Line) : List IrqCall → ℕ
  | [] => 0
  | .request l' none :: log => if l' = l then 0 else depthIn l log
  | .disable l' :: log => if l' = l then depthIn l log + 1 else depthIn l log
  | .enable l' :: log => if l' = l then depthIn l log - 1 else depthIn l log
  | _ :: log => depthIn l log

/-- The calls that may follow a log. -/
def Allowed (log : List IrqCall) : IrqCall → Prop
  | .request l _ => heldIn l log = false
  | .free l => heldIn l log = true
  | .enable l => heldIn l log = true ∧ 0 < depthIn l log
  | .disable l => heldIn l log = true

/-- Logs in which every call was allowed. -/
inductive Balanced : List IrqCall → Prop
  | nil : Balanced []
  | call {c : IrqCall} {log : List IrqCall} : Balanced log → Allowed log c → Balanced (c :: log)

/-- The successful requests of a line. -/
def requests (l : Line) (log : List IrqCall) : ℕ := log.count (.request l none)

/-- The times a line was freed. -/
def frees (l : Line) (log : List IrqCall) : ℕ := log.count (.free l)

/-- **In a balanced log every successful request of a line is freed exactly once**, except for
the last one of a line that is still held. -/
theorem Balanced.frees_add {log : List IrqCall} (h : Balanced log) (l : Line) :
    frees l log + (heldIn l log).toNat = requests l log := by
  induction h with
  | nil => rfl
  | @call c log _ hc ih =>
    rw [frees, requests] at ih ⊢
    cases c with
    | request l' ret =>
      cases ret with
      | none =>
        by_cases hl : l' = l
        · -- the line was not held, and is now
          subst hl
          rw [show heldIn l' log = false from hc] at ih
          simp [heldIn, ← ih]
        · simp [heldIn, hl, ← ih]
      | some e => simp [heldIn, ← ih]
    | free l' =>
      by_cases hl : l' = l
      · -- the line was held, and is not any more
        subst hl
        rw [show heldIn l' log = true from hc] at ih
        simp [heldIn, ← ih]
      · simp [heldIn, hl, ← ih]
    | enable | disable => simp [heldIn, ← ih]

/-! ## The descriptors and the log -/

/-- The descriptors say what the log says. -/
structure Irqs.Tracks (q : Irqs) : Prop where
  action : ∀ l, (q.desc l).action = heldIn l q.log
  depth : ∀ l, (q.desc l).action = true → (q.desc l).depth = depthIn l q.log

namespace Irqs.Tracks

variable {q : Irqs} {l : Line}

section

variable (h : q.Tracks)
include h

/-- A call that concerns the line `l` only. -/
theorem record {d : IrqDesc} {c : IrqCall} (haction : d.action = heldIn l (c :: q.log))
    (hdepth : d.action = true → d.depth = depthIn l (c :: q.log))
    (hheld : ∀ l', l' ≠ l → heldIn l' (c :: q.log) = heldIn l' q.log)
    (hdeep : ∀ l', l' ≠ l → depthIn l' (c :: q.log) = depthIn l' q.log) :
    (q.record l d c).Tracks := by
  constructor
  · intro l'
    by_cases hl : l' = l
    · subst hl
      rw [record_desc_self]
      exact haction
    · rw [record_desc_of_ne _ hl, record_log, hheld l' hl]
      exact h.action l'
  · intro l' ha
    by_cases hl : l' = l
    · subst hl
      rw [record_desc_self] at ha ⊢
      exact hdepth ha
    · rw [record_desc_of_ne _ hl] at ha ⊢
      rw [record_log, hdeep l' hl]
      exact h.depth l' ha

theorem requestIrq_some (e : Errno) : (q.record l (q.desc l) (.request l (some e))).Tracks :=
  h.record (h.action l) (h.depth l) (fun _ _ => rfl) fun _ _ => rfl

theorem requestIrq_none : (q.record l ⟨true, 0⟩ (.request l none)).Tracks := by
  apply h.record
  · simp [heldIn]
  · simp [depthIn]
  · intro l' hl
    simp [heldIn, hl.symm]
  · intro l' hl
    simp [depthIn, hl.symm]

theorem freeIrq : (freeIrq q l).Tracks := by
  apply h.record
  · simp [heldIn]
  · simp
  · intro l' hl
    simp [heldIn, hl.symm]
  · intro l' _
    rfl

theorem disableIrq : (disableIrq q l).Tracks := by
  apply h.record
  · exact h.action l
  · intro ha
    simp [depthIn, h.depth l ha]
  · intro l' _
    rfl
  · intro l' hl
    simp [depthIn, hl.symm]

theorem enableIrq : (enableIrq q l).Tracks := by
  apply h.record
  · exact h.action l
  · intro ha
    simp [depthIn, h.depth l ha]
  · intro l' _
    rfl
  · intro l' hl
    simp [depthIn, hl.symm]

end

end Irqs.Tracks

end Gp2xKernel.Serial
