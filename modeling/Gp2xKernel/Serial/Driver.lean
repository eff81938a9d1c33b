import Gp2xKernel.Serial.Irq

/-!
# The MP25xxF serial driver

The driver keeps one flag for each interrupt line, `tx_claimed` and `rx_claimed`.  `startup` sets
it when the line is requested, and `shutdown` frees the line only if it is set; in between the
same flag says whether the line is enabled, so the stop functions clear it.  The transmit
interrupt stops its own line when the buffer has drained.

The registers of the controller are inputs: a handler sees the sequence of values that its reads
of a status register return.

## Main definitions

* `Port`: the port with its flags, its buffer and the interrupt lines
* `startTx`, `stopTx`, `stopRx`, `txInt`, `rxInt`, `startup`, `shutdown`: the driver
* `uartStartup`, `uartShutdown`: the calls of the serial core around them

## Main results

* `drain_sameIrqs`, `rxInt_sameIrqs`: moving characters leaves flags and lines alone
* `txInt_cases`: the transmit interrupt does so as well, except for a final `stopTx`
-/

namespace Gp2xKernel.Serial

/-! ## The state of a port -/

/-- `struct circ_buf`, the transmit buffer -/
structure CircBuf where
  buf : BitVec 32 → BitVec 8
  head : BitVec 32
  tail : BitVec 32

/-- `UART_XMIT_SIZE`, one page -/
def UART_XMIT_SIZE : BitVec 32 := 4096

def WAKEUP_CHARS : BitVec 32 := 256

def uartCircEmpty (xmit : CircBuf) : Bool := xmit.head = xmit.tail

def uartCircCharsPending (xmit : CircBuf) : BitVec 32 :=
  (xmit.head - xmit.tail) &&& (UART_XMIT_SIZE - 1)

/-- The flags of a character in the flip buffer -/
inductive TtyFlag
  | normal
  | break
  | frame
  | parity
  | overrun
  deriving DecidableEq, Repr

/-- `struct uart_icount`, as far as the driver counts -/
structure Icount where
  rx : BitVec 32
  tx : BitVec 32
  frame : BitVec 32
  overrun : BitVec 32
  brk : BitVec 32
  deriving DecidableEq, Repr

/-- A port of the driver: `tx_claimed` and `rx_claimed`, the parts of `struct uart_port` that the
driver reads and writes, and the interrupt lines. -/
structure Port where
  /-- the interrupt layer -/
  irqs : Irqs
  /-- `tx_claimed` and `rx_claimed` -/
  claimed : Line → Bool
  /-- `UIF_INITIALIZED` of the serial core -/
  initialized : Bool
  xmit : CircBuf
  xChar : BitVec 8
  icount : Icount
  fifosize : ℕ
  readStatusMask : BitVec 32
  ignoreStatusMask : BitVec 32
  /-- the last values written to the control registers -/
  ucon : BitVec 16
  fcon : BitVec 16
  /-- the bytes written to the transmit register, in order -/
  thb : List (BitVec 8)
  /-- the characters handed to the tty, in order -/
  flip : List (BitVec 32 × TtyFlag)
  /-- the calls of `uart_write_wakeup` -/
  wakeups : ℕ

/-- Set or clear the flag of a line. -/
def Port.claim (p : Port) (l : Line) (v : Bool) : Port :=
  { p with claimed := Function.update p.claimed l v }

/-! ## Start and stop -/

/-- `mp25xxf_uart_start_tx` -/
def startTx (p : Port) : Port :=
  if p.claimed .tx then p
  else { p with irqs := enableIrq p.irqs .tx }.claim .tx true

/-- The common body of the stop functions: disable a claimed line and clear its flag. -/
def stopLine (l : Line) (p : Port) : Port :=
  if p.claimed l then { p with irqs := disableIrq p.irqs l }.claim l false
  else p

/-- `mp25xxf_uart_stop_tx` -/
def stopTx (p : Port) : Port := stopLine .tx p

/-- `mp25xxf_uart_stop_rx` -/
def stopRx (p : Port) : Port := stopLine .rx p

/-! ## The interrupts -/

def FSTATUS_TX_FIFO_FULL : BitVec 16 := 1 <<< 9

def FSTATUS_RX_FIFO_COUNT : BitVec 16 := 0xf

def ESTATUS_BREAK_DETECT : BitVec 16 := 1 <<< 3

def ESTATUS_FRAME_ERROR : BitVec 16 := 1 <<< 2

def ESTATUS_PARITY_ERROR : BitVec 16 := 1 <<< 1

def ESTATUS_OVERRUN_ERROR : BitVec 16 := 1

/-- `ESTATUS_ANY`, which leaves the parity error out -/
def ESTATUS_ANY : BitVec 16 :=
  ESTATUS_OVERRUN_ERROR ||| ESTATUS_FRAME_ERROR ||| ESTATUS_BREAK_DETECT

/-- Write one byte to the transmit register. -/
def Port.transmit (p : Port) (b : BitVec 8) : Port :=
  { p with thb := p.thb ++ [b], icount := { p.icount with tx := p.icount.tx + 1 } }

/-- The byte at the tail of the buffer has been sent. -/
def Port.advance (p : Port) : Port :=
  { p with xmit := { p.xmit with tail := (p.xmit.tail + 1) &&& (UART_XMIT_SIZE - 1) } }

/-- The loop of `mp25xxf_tx_int`: `count` turns are left, and the next read of the FIFO status
is the read number `i`. -/
def drain (fstatus : ℕ → BitVec 16) : (count i : ℕ) → Port → Port
  | 0, _, p => p
  | count + 1, i, p =>
    if uartCircEmpty p.xmit then p
    else if fstatus i &&& FSTATUS_TX_FIFO_FULL ≠ 0 then p
    else drain fstatus count (i + 1) (p.transmit (p.xmit.buf p.xmit.tail)).advance

/-- `uart_write_wakeup`, called when few characters are left -/
def wakeup (p : Port) : Port :=
  if uartCircCharsPending p.xmit < WAKEUP_CHARS then { p with wakeups := p.wakeups + 1 } else p

/-- Stop when nothing is left to transmit. -/
def stopIfEmpty (p : Port) : Port := if uartCircEmpty p.xmit then stopTx p else p

/-- `mp25xxf_tx_int`; `stopped` is `uart_tx_stopped`, `fstatus` what the FIFO status reads. -/
def txInt (stopped : Bool) (fstatus : ℕ → BitVec 16) (p : Port) : Port :=
  if p.xChar ≠ 0 then { p.transmit p.xChar with xChar := 0 }
  else if uartCircEmpty p.xmit || stopped then stopTx p
  else stopIfEmpty (wakeup (drain fstatus 16 0 p))

/-- What one turn of `mp25xxf_rx_int` reads: the FIFO status, the character, the error status,
and the answers of `uart_handle_break` and `uart_handle_sysrq_char`. -/
structure RxRead where
  fstatus : BitVec 16
  rhb : BitVec 16
  estatus : BitVec 16
  handleBreak : Bool
  handleSysrq : Bool

def ttyInsertFlipChar (p : Port) (ch : BitVec 32) (flag : TtyFlag) : Port :=
  { p with flip := p.flip ++ [(ch, flag)] }

/-- `uart_insert_char`: the character, unless its status is to be ignored -/
def insertStatus (p : Port) (status overrun ch : BitVec 32) (flag : TtyFlag) : Port :=
  if status &&& p.ignoreStatusMask &&& ~~~overrun = 0 then ttyInsertFlipChar p ch flag else p

/-- `uart_insert_char`: an overrun is reported as a character of its own -/
def insertOverrun (p : Port) (status overrun : BitVec 32) : Port :=
  if status &&& ~~~p.ignoreStatusMask &&& overrun ≠ 0 then ttyInsertFlipChar p 0 .overrun else p

def uartInsertChar (p : Port) (status overrun ch : BitVec 32) (flag : TtyFlag) : Port :=
  insertOverrun (insertStatus p status overrun ch flag) status overrun

/-- Count with `f` when one of the bits of `mask` is set in the error status. -/
def countIf (p : Port) (estatus mask : BitVec 16) (f : Icount → Icount) : Port :=
  if estatus &&& mask ≠ 0 then { p with icount := f p.icount } else p

/-- `port->icount.brk++` for a break -/
def countBreak (p : Port) (estatus : BitVec 16) : Port :=
  countIf p estatus ESTATUS_BREAK_DETECT fun c => { c with brk := c.brk + 1 }

/-- `port->icount.frame++` for a framing error -/
def countFrame (p : Port) (estatus : BitVec 16) : Port :=
  countIf p estatus ESTATUS_FRAME_ERROR fun c => { c with frame := c.frame + 1 }

/-- `port->icount.overrun++` for an overrun -/
def countOverrun (p : Port) (estatus : BitVec 16) : Port :=
  countIf p estatus ESTATUS_OVERRUN_ERROR fun c => { c with overrun := c.overrun + 1 }

/-- The flag of a character whose masked error status is `estatus`. -/
def errorFlag (estatus : BitVec 16) : TtyFlag :=
  if estatus &&& ESTATUS_BREAK_DETECT ≠ 0 then .break
  else if estatus &&& ESTATUS_PARITY_ERROR ≠ 0 then .parity
  else if estatus &&& (ESTATUS_FRAME_ERROR ||| ESTATUS_OVERRUN_ERROR) ≠ 0 then .frame
  else .normal

/-- The end of a turn of `mp25xxf_rx_int`: the character goes to the tty, unless it is for
SysRq. -/
def rxInsert (p : Port) (r : RxRead) (estatus : BitVec 16) (flag : TtyFlag) : Port :=
  if r.handleSysrq then p
  else uartInsertChar p (estatus.setWidth 32) (ESTATUS_OVERRUN_ERROR.setWidth 32)
    (r.rhb.setWidth 32) flag

/-- The part of a turn after the break has been handled. -/
def rxErrors (p : Port) (r : RxRead) : Port :=
  let estatus := r.estatus &&& p.readStatusMask.setWidth 16
  rxInsert (countOverrun (countFrame p r.estatus) r.estatus) r estatus (errorFlag estatus)

/-- `port->icount.rx++` -/
def countRx (p : Port) : Port := { p with icount := { p.icount with rx := p.icount.rx + 1 } }

/-- One turn of `mp25xxf_rx_int` for a character that has arrived. -/
def rxChar (p : Port) (r : RxRead) : Port :=
  if r.estatus &&& ESTATUS_ANY = 0 then rxInsert (countRx p) r r.estatus .normal
  else if r.estatus &&& ESTATUS_BREAK_DETECT ≠ 0 && r.handleBreak then
    countBreak (countRx p) r.estatus
  else rxErrors (countBreak (countRx p) r.estatus) r

/-- The loop of `mp25xxf_rx_int` with `maxCount` turns left. -/
def rxLoop (reads : ℕ → RxRead) : (maxCount i : ℕ) → Port → Port
  | 0, _, p => p
  | maxCount + 1, i, p =>
    if (reads i).fstatus &&& FSTATUS_RX_FIFO_COUNT = 0 then p
    else rxLoop reads maxCount (i + 1) (rxChar p (reads i))

/-- `mp25xxf_rx_int` -/
def rxInt (reads : ℕ → RxRead) (p : Port) : Port := rxLoop reads p.fifosize 0 p

/-! ## Startup and shutdown -/

/-- `UCON_RECEIVE_MODEx(UCON_RECEIVE_MODE_IRQ) | UCON_TRANS_MODEx(UCON_TRANS_MODE_IRQ) |
UCON_RX_TIMEOUT` -/
def uconInit : BitVec 16 := 1 ||| 1 <<< 2 ||| 1 <<< 7

/-- `FCON_FIFO_EN | FCON_TX_FIFO_RESET | FCON_RX_FIFO_RESET` -/
def fconInit : BitVec 16 := 1 ||| 1 <<< 2 ||| 1 <<< 1

/-- `mp25xxf_uart_startup`; `txFails` and `rxFails` are what makes either `request_irq` fail. -/
def startup (p : Port) (txFails rxFails : Option Errno) : Option Errno × Port :=
  let p := { p with ucon := uconInit }
  match requestIrq p.irqs .tx txFails with
  | (some e, q) => (some e, { p with irqs := q })
  | (none, q) =>
    match requestIrq q .rx rxFails with
    | (some e, q) => (some e, { p with irqs := freeIrq q .tx })
    | (none, q) =>
      (none, { ({ p with irqs := q }.claim .tx true).claim .rx true with fcon := fconInit })

/-- One half of `mp25xxf_uart_shutdown`: free a claimed line and clear its flag. -/
def releaseLine (l : Line) (p : Port) : Port :=
  if p.claimed l then { p with irqs := freeIrq p.irqs l }.claim l false
  else p

/-- `mp25xxf_uart_shutdown` -/
def shutdown (p : Port) : Port := releaseLine .rx (releaseLine .tx p)

/-- `uart_startup` of the serial core, as far as the driver is concerned: a port that is
initialized already is left alone, and a port whose startup fails is not initialized. -/
def uartStartup (p : Port) (txFails rxFails : Option Errno) : Port :=
  if p.initialized then p
  else
    match startup p txFails rxFails with
    | (none, q) => { q with initialized := true }
    | (some _, q) => q

/-- `uart_shutdown` of the serial core. -/
def uartShutdown (p : Port) : Port :=
  if p.initialized then shutdown { p with initialized := false } else p

/-! ## What moving characters leaves alone -/

/-- The two ports agree on flags and interrupt lines. -/
structure SameIrqs (p q : Port) : Prop where
  irqs : q.irqs = p.irqs
  claimed : q.claimed = p.claimed
  initialized : q.initialized = p.initialized

namespace SameIrqs

variable {p q r : Port}

theorem refl (p : Port) : SameIrqs p p := ⟨rfl, rfl, rfl⟩

theorem trans (h : SameIrqs p q) (h' : SameIrqs q r) : SameIrqs p r :=
  ⟨h'.irqs.trans h.irqs, h'.claimed.trans h.claimed, h'.initialized.trans h.initialized⟩

/-- Either branch of a test leaves flags and lines alone. -/
theorem ite {c : Prop} [Decidable c] (hq : SameIrqs p q) (hr : SameIrqs p r) :
    SameIrqs p (if c then q else r) := by
  by_cases hc : c
  · rw [if_pos hc]
    exact hq
  · rw [if_neg hc]
    exact hr

end SameIrqs

theorem drain_sameIrqs (fstatus : ℕ → BitVec 16) (count i : ℕ) (p : Port) :
    SameIrqs p (drain fstatus count i p) := by
  induction count generalizing i p with
  | zero => exact .refl p
  | succ count ih =>
    have hturn : SameIrqs p (p.transmit (p.xmit.buf p.xmit.tail)).advance := ⟨rfl, rfl, rfl⟩
    exact .ite (.refl p) (.ite (.refl p) (hturn.trans (ih ..)))

/-- **The transmit interrupt** moves characters, and may end with a `stopTx`. -/
theorem txInt_cases (stopped : Bool) (fstatus : ℕ → BitVec 16) (p : Port) :
    ∃ q, SameIrqs p q ∧ (txInt stopped fstatus p = q ∨ txInt stopped fstatus p = stopTx q) := by
  rw [txInt]
  split_ifs with hx hstop
  · exact ⟨{ p.transmit p.xChar with xChar := 0 }, ⟨rfl, rfl, rfl⟩, .inl rfl⟩
  · exact ⟨p, .refl p, .inr rfl⟩
  · -- the buffer has been drained as far as the FIFO takes it
    set q := wakeup (drain fstatus 16 0 p)
    refine ⟨q, (drain_sameIrqs fstatus 16 0 p).trans (.ite ⟨rfl, rfl, rfl⟩ (.refl _)), ?_⟩
    by_cases hempty : uartCircEmpty q.xmit = true
    · exact .inr (if_pos hempty)
    · exact .inl (if_neg hempty)

variable (p : Port)

theorem uartInsertChar_sameIrqs (status overrun ch : BitVec 32) (flag : TtyFlag) :
    SameIrqs p (uartInsertChar p status overrun ch flag) := by
  have hstatus : SameIrqs p (insertStatus p status overrun ch flag) :=
    .ite ⟨rfl, rfl, rfl⟩ (.refl p)
  exact hstatus.trans (.ite ⟨rfl, rfl, rfl⟩ (.refl _))

theorem countIf_sameIrqs (estatus mask : BitVec 16) (f : Icount → Icount) :
    SameIrqs p (countIf p estatus mask f) :=
  .ite ⟨rfl, rfl, rfl⟩ (.refl p)

theorem rxInsert_sameIrqs (r : RxRead) (estatus : BitVec 16) (flag : TtyFlag) :
    SameIrqs p (rxInsert p r estatus flag) :=
  .ite (.refl p) (uartInsertChar_sameIrqs ..)

theorem rxErrors_sameIrqs (r : RxRead) : SameIrqs p (rxErrors p r) := by
  have hcount : SameIrqs p (countOverrun (countFrame p r.estatus) r.estatus) :=
    (countIf_sameIrqs ..).trans (countIf_sameIrqs ..)
  exact hcount.trans (rxInsert_sameIrqs ..)

theorem rxChar_sameIrqs (r : RxRead) : SameIrqs p (rxChar p r) := by
  have hrx : SameIrqs p (countRx p) := ⟨rfl, rfl, rfl⟩
  have hbreak : SameIrqs p (countBreak (countRx p) r.estatus) := hrx.trans (countIf_sameIrqs ..)
  refine .ite (hrx.trans (rxInsert_sameIrqs ..)) (.ite hbreak ?_)
  exact hbreak.trans (rxErrors_sameIrqs ..)

/-- **The receive interrupt** moves characters only. -/
theorem rxInt_sameIrqs (reads : ℕ → RxRead) (p : Port) : SameIrqs p (rxInt reads p) := by
  suffices ∀ (count i : ℕ) (q : Port), SameIrqs q (rxLoop reads count i q) from this ..
  intro count
  induction count with
  | zero =>
    intro i q
    exact .refl q
  | succ count ih =>
    intro i q
    exact .ite (.refl q) ((rxChar_sameIrqs q (reads i)).trans (ih ..))

end Gp2xKernel.Serial
