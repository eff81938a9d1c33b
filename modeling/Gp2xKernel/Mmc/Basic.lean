import Mathlib.Data.BitVec

/-!
# The MP2520F MMC host driver

The driver polls the registers of its controller.  What a register returns may change between any
two reads, so the controller is a sequence of values for each register: the value of its first
read, of its second read, and so on.  The state of the model counts the reads, and logs the
writes to registers and the bytes stored to memory.

## Main definitions

* `Reg`, `Controller`, `Bus`: the registers, what they return, and the accesses so far
* `MmcCommand`, `MmcData`, `MmcRequest`: the request
* `pioRead`: `mp2520f_mmc_pio_read`
* `mmcRequest`: `mmsp2_mmc_request`
-/

namespace Gp2xKernel.Mmc

/-! ## Registers -/

/-- The registers of the controller that the driver uses. -/
inductive Reg
  | SDICON
  | SDICMDARG
  | SDICMDCON
  | SDICMDSTA
  | SDIRSP (i : Fin 8)
  | SDIBSIZE
  | SDIDATCON
  | SDIDATSTA
  | SDIFSTA
  | SDIDAT
  deriving DecidableEq, Repr

/-- The width of a register: `__REG`, `__REGW` or `__REGB`. -/
def Reg.width : Reg → ℕ
  | .SDICMDARG => 32
  | .SDIDATCON => 32
  | .SDIDAT => 8
  | _ => 16

/-- The behaviour of the controller: the value of each read of each register. -/
abbrev Controller := Reg → ℕ → BitVec 32

/-- The accesses so far: the number of reads of each register, the writes to registers, latest
first, and the bytes stored to memory, in order. -/
structure Bus where
  count : Reg → ℕ
  written : List (Reg × BitVec 32)
  stores : List (BitVec 32 × BitVec 8)

/-- The value `v` as a register of the width of `r` holds it. -/
def Reg.fit (r : Reg) (v : BitVec 32) : BitVec 32 := (v.setWidth r.width).setWidth 32

namespace Bus

/-- What the read number `i` from now on returns. -/
def value (b : Bus) (dev : Controller) (r : Reg) (i : ℕ) : BitVec 32 :=
  r.fit (dev r (b.count r + i))

/-- Read a register. -/
def read (b : Bus) (r : Reg) : Bus :=
  { b with count := Function.update b.count r (b.count r + 1) }

/-- Write a register. -/
def write (b : Bus) (r : Reg) (v : BitVec 32) : Bus :=
  { b with written := (r, r.fit v) :: b.written }

/-- Read a register and write it back changed, as `|=` does. -/
def modify (b : Bus) (dev : Controller) (r : Reg) (f : BitVec 32 → BitVec 32) : Bus :=
  (b.read r).write r (f (b.value dev r 0))

/-- `R &= R`, which reads the register twice. -/
def clear (b : Bus) (dev : Controller) (r : Reg) : Bus :=
  ((b.read r).read r).write r (b.value dev r 0 &&& b.value dev r 1)

/-- Store a byte to memory. -/
def store (b : Bus) (a : BitVec 32) (v : BitVec 8) : Bus :=
  { b with stores := b.stores ++ [(a, v)] }

end Bus

/-! ## Requests -/

/-- `struct mmc_command` -/
structure MmcCommand where
  opcode : BitVec 32
  arg : BitVec 32
  resp : Fin 4 → BitVec 32
  flags : BitVec 32
  error : BitVec 32

/-- `struct scatterlist`: the address of the segment and its length -/
structure Scatterlist where
  virt : BitVec 32
  length : BitVec 32

/-- `struct mmc_data`; `sg` is the array of segments, of which `sgLen` are in use. -/
structure MmcData where
  blksz : BitVec 32
  blocks : BitVec 32
  error : BitVec 32
  flags : BitVec 32
  bytesXfered : BitVec 32
  stop : Option MmcCommand
  sgLen : BitVec 32
  sg : ℕ → Scatterlist

/-- `struct mmc_request` -/
structure MmcRequest where
  cmd : MmcCommand
  data : Option MmcData

def MMC_RSP_PRESENT : BitVec 32 := 1

def MMC_RSP_136 : BitVec 32 := 1 <<< 1

def MMC_RSP_CRC : BitVec 32 := 1 <<< 2

def MMC_DATA_WRITE : BitVec 32 := 1 <<< 8

def MMC_DATA_READ : BitVec 32 := 1 <<< 9

/-- Whether one of the bits of `mask` is set. -/
def hasBit (v mask : BitVec 32) : Bool := v &&& mask ≠ 0

/-! ## Reading the FIFO -/

def SDIFSTA_RFDET : BitVec 32 := 1 <<< 12

def SDIDATCON_STOPMODE : BitVec 32 := 1 <<< 14

/-- The locals of `mp2520f_mmc_pio_read`. -/
structure Cursor where
  cnt : BitVec 32
  sgIdx : BitVec 32
  buffer : BitVec 32
  bufferBytesLeft : BitVec 32

/-- The locals when segment `i` has been taken up. -/
def Cursor.enter (data : MmcData) (cnt i : BitVec 32) : Cursor where
  cnt := cnt
  sgIdx := i
  buffer := (data.sg i.toNat).virt
  bufferBytesLeft := (data.sg i.toNat).length

/-- Go on to the next segment when this one is full; `none` for the `BUG_ON`. -/
def nextSegment (data : MmcData) (c : Cursor) : Option Cursor :=
  if c.bufferBytesLeft = 0 then
    if c.sgIdx + 1 = data.sgLen then none
    else some (.enter data c.cnt (c.sgIdx + 1))
  else some c

/-- Store one byte: `*(buffer + cnt++) = SDIDAT; buffer_bytes_left -= 1; SDIFSTA &= SDIFSTA`. -/
def takeByte (dev : Controller) (c : Cursor) (b : Bus) : Cursor × Bus :=
  ({ c with cnt := c.cnt + 1, bufferBytesLeft := c.bufferBytesLeft - 1 },
    ((b.read .SDIDAT).store (c.buffer + c.cnt) ((b.value dev .SDIDAT 0).setWidth 8)).clear dev
      .SDIFSTA)

/-- The loop of `mp2520f_mmc_pio_read`.  `left` is `len - cnt`, so that `cnt < len` is `left ≠ 0`;
the status is read before the count is looked at. -/
def pioLoop (dev : Controller) (data : MmcData) : (left : ℕ) → Cursor → Bus → Option (Cursor × Bus)
  | 0, c, b => some (c, b.read .SDIFSTA)
  | left + 1, c, b =>
    if hasBit (b.value dev .SDIFSTA 0) SDIFSTA_RFDET then
      (nextSegment data c).bind fun c' =>
        pioLoop dev data left (takeByte dev c' (b.read .SDIFSTA)).1
          (takeByte dev c' (b.read .SDIFSTA)).2
    else some (c, b.read .SDIFSTA)

/-- `mp2520f_mmc_pio_read` -/
def pioRead (dev : Controller) (data : MmcData) (b : Bus) : Option (MmcData × Bus) :=
  (pioLoop dev data (data.blksz * data.blocks).toNat (.enter data 0 0) b).map fun r =>
    ({ data with bytesXfered := 0 + r.1.cnt },
      r.2.modify dev .SDIDATCON (· ||| SDIDATCON_STOPMODE))

/-! ## Commands and data -/

def SDICMDCON_CMDINDEX_MSK : BitVec 32 := 0xff

def SDICMDCON_HOSTRCV : BitVec 32 := 1 <<< 10

def SDICMDCON_HOSTWAITS : BitVec 32 := 1 <<< 9

def SDICMDCON_CMDOPST : BitVec 32 := 1 <<< 8

/-- `SDICMDCON |= bits` when one of the bits of `flag` is set in `flags`. -/
def cmdconIf (dev : Controller) (flags flag bits : BitVec 32) (b : Bus) : Bus :=
  if hasBit flags flag then b.modify dev .SDICMDCON (· ||| bits) else b

/-- The bits that a command with a response sets: a long response is a response. -/
def expectResponse (dev : Controller) (flags : BitVec 32) (b : Bus) : Bus :=
  if hasBit flags MMC_RSP_PRESENT then
    (cmdconIf dev flags MMC_RSP_136 SDICMDCON_HOSTRCV b).modify dev .SDICMDCON
      (· ||| SDICMDCON_HOSTWAITS)
  else b

/-- `mp2520f_start_command` -/
def startCommand (dev : Controller) (cmd : MmcCommand) (b : Bus) : Bus :=
  ((expectResponse dev cmd.flags
    (b.write .SDICMDCON (cmd.opcode &&& SDICMDCON_CMDINDEX_MSK ||| 1 <<< 6))).write
      .SDICMDARG cmd.arg).modify dev .SDICMDCON (· ||| SDICMDCON_CMDOPST)

def MMC_BUS_WIDTH_4 : BitVec 8 := 2

def SDIDATCON_WIDE : BitVec 32 := 1 <<< 16

def SDIDATCON_BLKMODE : BitVec 32 := 1 <<< 17

/-- `SDIDATCON_TARSP | SDIDATCON_DATMODE_TS` -/
def writeMode : BitVec 32 := 1 <<< 20 ||| 3 <<< 12

/-- `SDIDATCON_RACMD | SDIDATCON_DATMODE_RS` -/
def readMode : BitVec 32 := 1 <<< 19 ||| 2 <<< 12

/-- The value of `SDIDATCON` in `mp2520f_start_data`: eight bits of the number of blocks. -/
def datcon (busWidth : BitVec 8) (data : MmcData) : BitVec 32 :=
  (if busWidth = MMC_BUS_WIDTH_4 then SDIDATCON_WIDE else 0) |||
    (data.blocks &&& 0xff ||| SDIDATCON_BLKMODE) |||
    (if hasBit data.flags MMC_DATA_WRITE then writeMode else 0) |||
    (if hasBit data.flags MMC_DATA_READ then readMode else 0)

/-- `mp2520f_start_data` -/
def startData (busWidth : BitVec 8) (data : MmcData) (b : Bus) : Bus :=
  (b.write .SDIBSIZE data.blksz).write .SDIDATCON (datcon busWidth data)

/-! ## The end of a request -/

def SDICMDSTA_RSPCRC : BitVec 32 := 1 <<< 12

def SDICMDSTA_CMDTOUT : BitVec 32 := 1 <<< 10

def SDICMDSTA_RSPFIN : BitVec 32 := 1 <<< 9

def SDICMDSTA_RSPINDEX : BitVec 32 := 0xff

/-- `-ETIMEDOUT`, as an `unsigned int` -/
def errTimedOut : BitVec 32 := -110

/-- `-EINVAL` -/
def errInval : BitVec 32 := -22

/-- `-EILSEQ` -/
def errIlSeq : BitVec 32 := -84

/-- The word of a response that the registers `2 * i` and `2 * i + 1` hold. -/
def responseWord (dev : Controller) (b : Bus) (i : Fin 4) : BitVec 32 :=
  b.value dev (.SDIRSP ⟨2 * i, by omega⟩) 0 ||| b.value dev (.SDIRSP ⟨2 * i + 1, by omega⟩) 0 <<< 16

/-- The two reads of `responseWord`. -/
def readWord (b : Bus) (i : Fin 4) : Bus :=
  (b.read (.SDIRSP ⟨2 * i, by omega⟩)).read (.SDIRSP ⟨2 * i + 1, by omega⟩)

/-- The response: all four words, or the first one only. -/
def readResponse (dev : Controller) (cmd : MmcCommand) (b : Bus) : MmcCommand × Bus :=
  if hasBit cmd.flags MMC_RSP_136 then
    ({ cmd with resp := responseWord dev b },
      readWord (readWord (readWord (readWord b 3) 2) 1) 0)
  else
    ({ cmd with resp := Function.update cmd.resp 0 (responseWord dev b 0) }, readWord b 0)

/-- The checks of `mmsp2_mmc_cmd_end` for a command with a response. -/
def checkResponse (status : BitVec 32) (cmd : MmcCommand) : MmcCommand :=
  if hasBit status SDICMDSTA_CMDTOUT then { cmd with error := errTimedOut }
  else if !hasBit status SDICMDSTA_RSPFIN then { cmd with error := errInval }
  else if hasBit cmd.flags MMC_RSP_CRC && hasBit status SDICMDSTA_RSPCRC then
    { cmd with error := errIlSeq }
  else cmd

/-- `mmsp2_mmc_cmd_end`; the status is read once for the message and once for the checks. -/
def cmdEnd (dev : Controller) (cmd : MmcCommand) (b : Bus) : MmcCommand × Bus :=
  let status := b.value dev .SDICMDSTA 1
  let b := (b.read .SDICMDSTA).read .SDICMDSTA
  if hasBit cmd.flags MMC_RSP_PRESENT then
    (checkResponse status (readResponse dev cmd b).1,
      (readResponse dev cmd b).2.write .SDICMDSTA status)
  else (cmd, b.write .SDICMDSTA status)

def SDICON_FRESET : BitVec 32 := 1 <<< 1

/-- The data of `mmsp2_mmc_data_end`: nothing is done for a write. -/
def transfer (dev : Controller) (data : MmcData) (b : Bus) : Option (MmcData × Bus) :=
  if hasBit data.flags MMC_DATA_WRITE then some (data, b) else pioRead dev data b

/-- `mmsp2_mmc_data_end` -/
def dataEnd (dev : Controller) (data : MmcData) (b : Bus) : Option (MmcData × Bus) :=
  (transfer dev data b).map fun r =>
    (r.1, (r.2.clear dev .SDIDATSTA).modify dev .SDICON (· ||| SDICON_FRESET))

/-- `while (!(SDICMDSTA & ~SDICMDSTA_RSPINDEX));` with a bounded number of turns. -/
def waitStatus (dev : Controller) : (turns : ℕ) → Bus → Option Bus
  | 0, _ => none
  | turns + 1, b =>
    if hasBit (b.value dev .SDICMDSTA 0) (~~~SDICMDSTA_RSPINDEX) then some (b.read .SDICMDSTA)
    else waitStatus dev turns (b.read .SDICMDSTA)

/-- The stop command after the data. -/
def sendStop (dev : Controller) (stop : Option MmcCommand) (b : Bus) : Bus :=
  match stop with
  | some cmd => startCommand dev cmd b
  | none => b

/-- The part of `mmsp2_mmc_request_end` after the command: the request that `mmc_request_done`
is called with. -/
def finish (dev : Controller) (cmd : MmcCommand) (data : Option MmcData) (b : Bus) :
    Option (MmcRequest × Bus) :=
  match data with
  | none => some (⟨cmd, none⟩, b)
  | some data =>
    if cmd.error = 0 then
      (dataEnd dev data b).map fun r => (⟨cmd, some r.1⟩, sendStop dev r.1.stop r.2)
    else some (⟨cmd, some data⟩, b)

/-- `mmsp2_mmc_request_end`; its first message reads the three status registers. -/
def requestEnd (dev : Controller) (req : MmcRequest) (turns : ℕ) (b : Bus) :
    Option (MmcRequest × Bus) :=
  (waitStatus dev turns (((b.read .SDICMDSTA).read .SDIDATSTA).read .SDIFSTA)).bind fun b =>
    finish dev (cmdEnd dev req.cmd b).1 req.data (cmdEnd dev req.cmd b).2

/-- The data part of `mmsp2_mmc_request`. -/
def startIfData (busWidth : BitVec 8) (data : Option MmcData) (b : Bus) : Bus :=
  match data with
  | some data => startData busWidth data b
  | none => b

/-- `mmsp2_mmc_request` -/
def mmcRequest (dev : Controller) (busWidth : BitVec 8) (req : MmcRequest) (b : Bus) (turns : ℕ) :
    Option (MmcRequest × Bus) :=
  requestEnd dev req turns (startCommand dev req.cmd (startIfData busWidth req.data b))

/-! ## Counting reads and writes -/

namespace Bus

variable (b : Bus) (dev : Controller) (r r' : Reg)

@[simp] theorem read_stores : (b.read r).stores = b.stores := rfl

variable (v : BitVec 32) (a : BitVec 32)

@[simp] theorem write_count : (b.write r v).count = b.count := rfl

@[simp] theorem write_written :
    (b.write r v).written = (r, r.fit v) :: b.written := rfl

@[simp] theorem store_count (v : BitVec 8) : (b.store a v).count = b.count := rfl

@[simp] theorem store_stores (v : BitVec 8) :
    (b.store a v).stores = b.stores ++ [(a, v)] := rfl

theorem read_count : (b.read r).count r' = if r' = r then b.count r' + 1 else b.count r' := by
  by_cases h : r' = r
  · subst h
    simp [read]
  · simp [read, h]

theorem clear_count : (b.clear dev r).count r' = if r' = r then b.count r' + 2 else b.count r' := by
  rw [clear, write_count, read_count, read_count]
  split_ifs <;> rfl

@[simp] theorem clear_stores : (b.clear dev r).stores = b.stores := rfl

end Bus

end Gp2xKernel.Mmc
