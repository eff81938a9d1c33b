import Mathlib.Data.Fintype.Basic
import Mathlib.Tactic.FinCases

/-!
# The interrupt lines of the UARTs

The port of a line is taken from the low bits of its number.  The numbers start at 36, so that these
bits are zero for the lines of port 3 and the subtraction wraps: a register that belongs to none of
the ports is accessed.

## Main definitions

* `mmsp2UartMaskIrq`, `mmsp2UartUnmaskIrq`: the operations on the registers
* `Independent`: the lines are masked independently

## Main results

* `independent_iff`: the lines are masked independently unless one is of port 3
-/

namespace Gp2xKernel.Uart

open BitVec Function

/-- The registers by their addresses, and the addresses that were accessed. -/
structure State where
  regs : BitVec 32 → BitVec 16
  accessed : List (BitVec 32)

variable (s : State) (irq : BitVec 32) (n : BitVec 16)

/-- `io_p2v` -/
def ioP2v (x : BitVec 32) : BitVec 32 := (x &&& 0xff000000) >>> 4 ||| 0xf0000000 ||| x &&& 0xffff

/-- `UCONn` -/
def uconn : BitVec 32 := ioP2v (0xc0001202 + 0x20 * n.setWidth 32)

/-- `MCONn` -/
def mconn : BitVec 32 := ioP2v (0xc0001206 + 0x20 * n.setWidth 32)

def uconTxInt : BitVec 16 := 1 <<< 9

def uconRxInt : BitVec 16 := 1 <<< 8

def uconRxTimeout : BitVec 16 := 1 <<< 7

def mconModemInt : BitVec 16 := 1 <<< 3

/-- A value computed from that of a register is assigned to it. -/
def State.assign (reg : BitVec 32) (f : BitVec 16 → BitVec 16) : State :=
  ⟨update s.regs reg (f (s.regs reg)), reg :: s.accessed⟩

def port : BitVec 16 := ((irq &&& 0xf) >>> 2 - 1).setWidth 16

def type : BitVec 16 := (irq &&& 0x3).setWidth 16

def mmsp2UartMaskIrq : State :=
  match type irq with
  | 0#16 => s.assign (uconn (port irq)) (· &&& ~~~uconTxInt)
  | 1#16 => s.assign (uconn (port irq)) (· &&& ~~~uconRxInt)
  | 2#16 => s.assign (uconn (port irq)) (· &&& ~~~0x40)
  | 3#16 => s.assign (mconn (port irq)) (· &&& ~~~mconModemInt)
  | _ => s

def mmsp2UartUnmaskIrq : State :=
  match type irq with
  | 0#16 => s.assign (uconn (port irq)) (· ||| uconTxInt)
  | 1#16 => s.assign (uconn (port irq)) (· ||| (uconRxInt ||| uconRxTimeout))
  | 2#16 => s.assign (uconn (port irq)) (· ||| 0x40)
  | 3#16 => s.assign (mconn (port irq)) (· ||| mconModemInt)
  | _ => s

/-- One of the sixteen lines, from `IRQ_UART_TXD0` on, is unmasked or masked. -/
def step (c : Fin 16 × Bool) : State :=
  if c.2 then mmsp2UartUnmaskIrq s (36 + c.1.val) else mmsp2UartMaskIrq s (36 + c.1.val)

/-! ## Enable bits -/

variable (i : Fin 16) {calls : List (Fin 16 × Bool)}

/-- The register of its port that has the enable bit of a line. -/
def enableReg : BitVec 32 := if i.val % 4 = 3 then mconn (i / 4).val else uconn (i / 4).val

def enableBit : ℕ := [9, 8, 6, 3].getD (i.val % 4) 0

def enabled : Bool := (s.regs (enableReg i)).getLsbD (enableBit i)

/-- `MP25XXF_UART0_START` to `MP25XXF_UART3_END` -/
def InPorts (reg : BitVec 32) : Prop := ioP2v 0xc0001200 ≤ reg ∧ reg ≤ ioP2v 0xc000127f

/-- Only registers of the four ports are accessed, and each line is as its last call left it. -/
def Independent (regs : BitVec 32 → BitVec 16) (calls : List (Fin 16 × Bool)) : Prop :=
  (∀ reg ∈ (calls.foldl step ⟨regs, []⟩).accessed, InPorts reg) ∧
    enabled (calls.foldl step ⟨regs, []⟩) =
      calls.foldl (fun e c => update e c.1 c.2) (enabled ⟨regs, []⟩)

/-! ## Calls -/

/-- The register that a call for a line accesses. -/
def reg : BitVec 32 :=
  if i.val % 4 = 3 then mconn (port (36 + i.val)) else uconn (port (36 + i.val))

theorem inPorts_reg_iff : InPorts (reg i) ↔ i < 12 := by
  unfold InPorts
  decide +revert

/-- A call changes one enable bit of the register that it accesses. -/
theorem step_eq (i : Fin 16) (s : State) (b : Bool) : ∃ bits : BitVec 16,
    (∀ j, enableReg j = enableReg i → bits.getLsbD (enableBit j) = decide (j = i)) ∧
      step s (i, b) = s.assign (reg i) fun x => if b then x ||| bits else x &&& ~~~bits := by
  cases b with
  | false =>
    refine ⟨twoPow 16 (enableBit i), by decide +revert, ?_⟩
    fin_cases i <;> rfl
  | true =>
    -- the timeout is enabled together with the line for received data
    refine ⟨twoPow 16 (enableBit i) ||| if i.val % 4 = 1 then uconRxTimeout else 0,
      by decide +revert, ?_⟩
    fin_cases i <;> rfl

theorem enabled_step {c : Fin 16 × Bool} (hc : c.1 < 12) :
    enabled (step s c) = update (enabled s) c.1 c.2 := by
  obtain ⟨i, b⟩ := c
  obtain ⟨bits, hbits, hstep⟩ := step_eq i s b
  have hreg : ∀ i : Fin 16, i < 12 → reg i = enableReg i := by decide
  funext j
  rw [hstep, hreg i hc]
  simp only [enabled, State.assign, update_apply]
  by_cases hj : enableReg j = enableReg i
  · cases b <;> grind
  · have hne : j ≠ i := fun h => hj (congrArg enableReg h)
    rw [if_neg hj, if_neg hne]

theorem accessed_run_iff : (∀ reg ∈ (calls.foldl step s).accessed, InPorts reg) ↔
    (∀ reg ∈ s.accessed, InPorts reg) ∧ ∀ c ∈ calls, c.1 < 12 := by
  induction calls generalizing s with
  | nil => simp
  | cons c calls ih =>
    obtain ⟨bits, -, hstep⟩ := step_eq c.1 s c.2
    rw [List.foldl_cons, ih, hstep]
    simp only [State.assign, List.forall_mem_cons, inPorts_reg_iff]
    tauto

theorem enabled_run (h : ∀ c ∈ calls, c.1 < 12) :
    enabled (calls.foldl step s) = calls.foldl (fun e c => update e c.1 c.2) (enabled s) := by
  induction calls generalizing s with
  | nil => rfl
  | cons c calls ih =>
    obtain ⟨hc, hcalls⟩ := List.forall_mem_cons.mp h
    rw [List.foldl_cons, ih _ hcalls, enabled_step s hc, List.foldl_cons]

/-- **Independent lines.**  For any contents of the registers and any calls, only registers of the
ports are accessed and each line is as its last call left it if and only if no call is for a line of
port 3. -/
theorem independent_iff (regs : BitVec 32 → BitVec 16) (calls : List (Fin 16 × Bool)) :
    Independent regs calls ↔ ∀ c ∈ calls, c.1 < 12 := by
  constructor
  · rintro ⟨hinside, -⟩
    exact ((accessed_run_iff _).mp hinside).2
  · intro hcalls
    exact ⟨(accessed_run_iff _).mpr ⟨List.forall_mem_nil _, hcalls⟩, enabled_run _ hcalls⟩

theorem independent_iff_two : Independent (fun _ => 0) [(0, true), (5, false)] :=
  (independent_iff _ _).mpr (by decide)

/-- The line for sent data of port 3 is unmasked, and stays masked. -/
theorem step_outside :
    (step ⟨fun _ => 0, []⟩ (12, true)).accessed = [0xfc0011e2] ∧
      enabled (step ⟨fun _ => 0, []⟩ (12, true)) 12 = false ∧
      ¬ Independent (fun _ => 0) [(12, true)] := by
  refine ⟨rfl, rfl, ?_⟩
  rintro ⟨hinside, -⟩
  have hle := (hinside 0xfc0011e2 (List.mem_singleton_self _)).1
  revert hle
  decide

end Gp2xKernel.Uart
