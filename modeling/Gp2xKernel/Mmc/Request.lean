import Gp2xKernel.Mmc.Pio

/-!
# Requests with data

`mmsp2_mmc_request` starts the data and the command, waits for a command status, and ends the
request.  The end of the data phase looks at no data status: a write hands no byte to the
controller at all, and a read stops as soon as the FIFO is empty, and neither sets an error.  So
a request can be done without an error although its data has not been moved.

## Main definitions

* `handed`: the bytes handed to the controller
* `DoneOrFailed`: what `mmc_request_done` may be told
* `Moved`: the behaviours of the controller for which it is told the truth

## Main results

* `waitStatus_spec`: the status that ends the waiting
* `cmdEnd_error_iff`: when the command is reported as failed
* `doneOrFailed_iff`: the requests that are done or reported as failed
-/

namespace Gp2xKernel.Mmc

open Option

variable {dev : Controller} {cmd : MmcCommand} {data : MmcData} {b b' : Bus}

/-! ## What is handed to the controller -/

/-- The bytes handed to the controller: the writes to its data register. -/
def handed (b : Bus) : ℕ := b.written.countP fun w => w.1 = .SDIDAT

@[simp] theorem handed_read (r : Reg) : handed (b.read r) = handed b := rfl

@[simp] theorem handed_store (a : BitVec 32) (v : BitVec 8) : handed (b.store a v) = handed b :=
  rfl

variable {r : Reg} {data' : MmcData} {out : MmcRequest × Bus}

theorem handed_write (h : r ≠ .SDIDAT) (v : BitVec 32) : handed (b.write r v) = handed b := by
  simp [handed, h]

theorem handed_modify (h : r ≠ .SDIDAT) (f : BitVec 32 → BitVec 32) :
    handed (b.modify dev r f) = handed b := by
  rw [Bus.modify, handed_write h, handed_read]

theorem handed_clear (h : r ≠ .SDIDAT) : handed (b.clear dev r) = handed b := by
  rw [Bus.clear, handed_write h, handed_read, handed_read]

/-! ## What the calls leave alone

The conditions below are about the reads of `SDICMDSTA` and `SDIFSTA`, so only these are
followed. -/

/-- From `b` to `b'` no byte has been handed over and the register `r` has not been read. -/
structure Quiet (r : Reg) (b b' : Bus) : Prop where
  count : b'.count r = b.count r
  handed : handed b' = handed b

namespace Quiet

variable {r : Reg} {b'' : Bus}

theorem refl (b : Bus) : Quiet r b b := ⟨rfl, rfl⟩

theorem trans (h : Quiet r b b') (h' : Quiet r b' b'') : Quiet r b b'' :=
  ⟨h'.count.trans h.count, h'.handed.trans h.handed⟩

variable {r' : Reg}

section

variable (h : Quiet r b b')
include h

theorem write (hdat : r' ≠ .SDIDAT) (v : BitVec 32) : Quiet r b (b'.write r' v) :=
  h.trans ⟨rfl, handed_write hdat v⟩

theorem read (hne : r ≠ r') : Quiet r b (b'.read r') :=
  h.trans ⟨by rw [Bus.read_count, if_neg hne], rfl⟩

theorem modify (hne : r ≠ r') (hdat : r' ≠ .SDIDAT)
    (f : BitVec 32 → BitVec 32) : Quiet r b (b'.modify dev r' f) :=
  h.trans ⟨(Bus.read_count b' r' r).trans (if_neg hne), handed_modify hdat f⟩

end

end Quiet

theorem startCommand_quiet (hr : r ≠ .SDICMDCON) (cmd : MmcCommand) (b : Bus) :
    Quiet r b (startCommand dev cmd b) := by
  have hcon : Reg.SDICMDCON ≠ .SDIDAT := by decide
  have hindex :
      Quiet r b (b.write .SDICMDCON (cmd.opcode &&& SDICMDCON_CMDINDEX_MSK ||| 1 <<< 6)) :=
    (Quiet.refl b).write hcon _
  have hexpect : ∀ b', Quiet r b' (expectResponse dev cmd.flags b') := by
    intro b'
    rw [expectResponse]
    split_ifs
    · rw [cmdconIf]
      split_ifs
      · exact ((Quiet.refl b').modify hr hcon _).modify hr hcon _
      · exact (Quiet.refl b').modify hr hcon _
    · exact .refl b'
  exact ((hindex.trans (hexpect _)).write (by decide) _).modify hr hcon _

theorem startIfData_quiet (busWidth : BitVec 8) (data : Option MmcData) (b : Bus) :
    Quiet r b (startIfData busWidth data b) := by
  cases data with
  | none => exact .refl b
  | some data => exact ((Quiet.refl b).write (by decide) _).write (by decide) _

theorem readResponse_quiet (hr : ∀ i, r ≠ .SDIRSP i) (cmd : MmcCommand) (b : Bus) :
    Quiet r b (readResponse dev cmd b).2 := by
  have hword : ∀ b' i, Quiet r b' (readWord b' i) := fun b' i =>
    ((Quiet.refl b').read (hr _)).read (hr _)
  rw [readResponse]
  split_ifs
  · exact (((hword b 3).trans (hword _ 2)).trans (hword _ 1)).trans (hword _ 0)
  · exact hword b 0

theorem cmdEnd_quiet (cmd : MmcCommand) (b : Bus) : Quiet .SDIFSTA b (cmdEnd dev cmd b).2 := by
  have hread : Quiet .SDIFSTA b ((b.read .SDICMDSTA).read .SDICMDSTA) :=
    ((Quiet.refl b).read (by decide)).read (by decide)
  rw [cmdEnd]
  split_ifs
  · exact (hread.trans (readResponse_quiet (by simp) cmd _)).write (by decide) _
  · exact hread.write (by decide) _

theorem takeByte_handed (c : Cursor) (b : Bus) : handed (takeByte dev c b).2 = handed b := by
  rw [takeByte, handed_clear (by decide), handed_store, handed_read]

theorem pioLoop_handed {left : ℕ} {c c' : Cursor}
    (h : pioLoop dev data left c b = some (c', b')) : handed b' = handed b := by
  induction left generalizing c b with
  | zero =>
    cases h
    rfl
  | succ left ih =>
    rw [pioLoop] at h
    split_ifs at h with hready
    · obtain ⟨c1, -, hloop⟩ := bind_eq_some_iff.mp h
      rw [ih hloop, takeByte_handed, handed_read]
    · cases h
      rfl

theorem transfer_handed (h : transfer dev data b = some (data', b')) : handed b' = handed b := by
  rw [transfer] at h
  split_ifs at h
  · cases h
    rfl
  · obtain ⟨⟨c', b1⟩, hloop, hout⟩ := map_eq_some_iff.mp h
    obtain ⟨-, rfl⟩ := Prod.mk.inj hout
    rw [handed_modify (by decide), pioLoop_handed hloop]

theorem dataEnd_some (h : dataEnd dev data b = some (data', b')) :
    (∃ b1, transfer dev data b = some (data', b1)) ∧ handed b' = handed b := by
  obtain ⟨⟨d, b1⟩, htransfer, hout⟩ := map_eq_some_iff.mp h
  obtain ⟨rfl, rfl⟩ := Prod.mk.inj hout
  refine ⟨⟨b1, htransfer⟩, ?_⟩
  rw [handed_modify (by decide), handed_clear (by decide)]
  exact transfer_handed htransfer

/-! ## The command -/

/-- The status shows that something happened to the command. -/
def StatusSet (dev : Controller) (b : Bus) (i : ℕ) : Prop :=
  hasBit (b.value dev .SDICMDSTA i) (~~~SDICMDSTA_RSPINDEX) = true

/-- **Waiting for a status** ends with the first read that shows one. -/
theorem waitStatus_spec {turns : ℕ} (h : waitStatus dev turns b = some b') :
    ∃ j, StatusSet dev b j ∧ (∀ i < j, ¬ StatusSet dev b i) ∧
      b'.count .SDICMDSTA = b.count .SDICMDSTA + (j + 1) ∧ Quiet .SDIFSTA b b' := by
  induction turns generalizing b with
  | zero => cases h
  | succ turns ih =>
    have hread : (b.read .SDICMDSTA).count .SDICMDSTA = b.count .SDICMDSTA + 1 := by
      rw [Bus.read_count, if_pos rfl]
    have hnext : ∀ i, StatusSet dev (b.read .SDICMDSTA) i ↔ StatusSet dev b (i + 1) := by
      intro i
      rw [StatusSet, StatusSet, Bus.value_of_count hread, Nat.add_comm]
    rw [waitStatus] at h
    split_ifs at h with hset
    · cases h
      exact ⟨0, hset, fun i hi => absurd hi (Nat.not_lt_zero i), hread,
        (Quiet.refl b).read (by decide)⟩
    · obtain ⟨j, hj, hbefore, hcount, hquiet⟩ := ih h
      refine ⟨j + 1, (hnext j).mp hj, fun i hi => ?_, ?_, ?_⟩
      · cases i with
        | zero => exact hset
        | succ i =>
          rw [← hnext]
          exact hbefore i (Nat.lt_of_succ_lt_succ hi)
      · omega
      · exact ((Quiet.refl b).read (by decide)).trans hquiet

/-- The status makes the command fail; without a response nothing is checked. -/
def CommandFails (cmd : MmcCommand) (status : BitVec 32) : Prop :=
  hasBit cmd.flags MMC_RSP_PRESENT = true ∧
    (hasBit status SDICMDSTA_CMDTOUT = true ∨ hasBit status SDICMDSTA_RSPFIN = false ∨
      hasBit cmd.flags MMC_RSP_CRC = true ∧ hasBit status SDICMDSTA_RSPCRC = true)

theorem readResponse_flags (dev : Controller) (cmd : MmcCommand) (b : Bus) :
    (readResponse dev cmd b).1.flags = cmd.flags ∧ (readResponse dev cmd b).1.error =
    cmd.error := by
  rw [readResponse]
  split_ifs
  · exact ⟨rfl, rfl⟩
  · exact ⟨rfl, rfl⟩

theorem checkResponse_error_iff (status : BitVec 32) (cmd : MmcCommand) :
    (checkResponse status cmd).error = 0 ↔
      cmd.error = 0 ∧ ¬ (hasBit status SDICMDSTA_CMDTOUT = true ∨
        hasBit status SDICMDSTA_RSPFIN = false ∨
        hasBit cmd.flags MMC_RSP_CRC = true ∧ hasBit status SDICMDSTA_RSPCRC = true) := by
  rw [checkResponse]
  split_ifs with htimeout hfin hcrc
  · simp [htimeout, errTimedOut]
  · simp [Bool.not_eq_true' .. ▸ hfin, errInval]
  · simp [(Bool.and_eq_true .. ▸ hcrc : _ ∧ _), errIlSeq]
  · simp_all

/-- **The command is reported as failed** if it was so before or its status makes it fail. -/
theorem cmdEnd_error_iff (cmd : MmcCommand) (b : Bus) :
    (cmdEnd dev cmd b).1.error = 0 ↔
      cmd.error = 0 ∧ ¬ CommandFails cmd (b.value dev .SDICMDSTA 1) := by
  rw [cmdEnd, CommandFails]
  by_cases hpresent : hasBit cmd.flags MMC_RSP_PRESENT = true
  · obtain ⟨hflags, herror⟩ :=
      readResponse_flags dev cmd ((b.read .SDICMDSTA).read .SDICMDSTA)
    simp only [hpresent, if_true, true_and]
    rw [checkResponse_error_iff, hflags, herror]
  · simp [hpresent]

/-! ## The request -/

/-- The number of bytes of the request. -/
def total (data : MmcData) : ℕ := data.blksz.toNat * data.blocks.toNat

/-- **What `mmc_request_done` may be told**: a request without an error has moved all its bytes,
and a write has handed them to the controller. -/
def DoneOrFailed (data : MmcData) (b : Bus) (out : MmcRequest × Bus) : Prop :=
  ∀ d, out.1.data = some d → out.1.cmd.error = 0 → d.error = 0 →
    d.bytesXfered.toNat = total data ∧
      (hasBit data.flags MMC_DATA_WRITE = true → handed out.2 = handed b + total data)

/-- The data phase moves all bytes: a write has none, and for a read the FIFO has a byte at every
test.  The message at the end of the command reads the FIFO status once. -/
def Moved (dev : Controller) (data : MmcData) (b : Bus) : Prop :=
  if hasBit data.flags MMC_DATA_WRITE then total data = 0 ∧ data.bytesXfered = 0
  else total data < 2 ^ 32 ∧
    ∀ k < total data, hasBit (b.value dev .SDIFSTA (1 + 3 * k)) SDIFSTA_RFDET = true

/-- The read number `j`, the first after the message that shows a status, is followed by the
status that makes the command fail; one more read is for a message. -/
def StatusFails (dev : Controller) (cmd : MmcCommand) (b : Bus) : Prop :=
  ∃ j, StatusSet dev b (j + 1) ∧ (∀ i < j, ¬ StatusSet dev b (i + 1)) ∧
    CommandFails cmd (b.value dev .SDICMDSTA (j + 3))

/-- The data phase reads as many bytes as the request has exactly when the FIFO never runs
empty. -/
theorem turns_total_iff {n : ℕ} (h : Turns dev b (data.blksz * data.blocks).toNat n) :
    n = total data ↔ total data < 2 ^ 32 ∧ ∀ k < total data, Ready dev b k := by
  have hlt := h.le.trans_lt (data.blksz * data.blocks).isLt
  have hmod : (data.blksz * data.blocks).toNat = total data % 2 ^ 32 := BitVec.toNat_mul ..
  constructor
  · intro hn
    exact ⟨hn ▸ hlt, fun k hk => h.ready k (hn ▸ hk)⟩
  · rintro ⟨htotal, hready⟩
    rw [Nat.mod_eq_of_lt htotal] at hmod
    by_contra hne
    have hless : n < total data := lt_of_le_of_ne (hmod ▸ h.le) hne
    exact h.stop (hmod ▸ hless) (hready n hless)

theorem transfer_total_iff (h : transfer dev data b = some (data', b')) :
    data'.error = data.error ∧
      ((data'.bytesXfered.toNat = total data ∧
          (hasBit data.flags MMC_DATA_WRITE = true → total data = 0)) ↔
        if hasBit data.flags MMC_DATA_WRITE then total data = 0 ∧ data.bytesXfered = 0
        else total data < 2 ^ 32 ∧ ∀ k < total data, Ready dev b k) := by
  rw [transfer] at h
  split_ifs at h with hwrite
  · cases h
    refine ⟨rfl, ?_⟩
    simp only [hwrite, true_implies]
    constructor
    · rintro ⟨hx, hzero⟩
      rw [hzero] at hx
      exact ⟨hzero, BitVec.eq_of_toNat_eq hx⟩
    · rintro ⟨hzero, hx⟩
      rw [hx, hzero]
      exact ⟨rfl, rfl⟩
  · obtain ⟨n, hturns, hdata, hx⟩ := pioRead_counts h
    refine ⟨by rw [hdata], ?_⟩
    simp only [hwrite, if_false, false_implies, and_true, Bool.false_eq_true]
    rw [hx]
    exact turns_total_iff hturns

theorem finish_some (h : finish dev cmd (some data) b = some out) :
    (cmd.error ≠ 0 ∧ out = (⟨cmd, some data⟩, b)) ∨
      (cmd.error = 0 ∧ ∃ d b1, dataEnd dev data b = some (d, b1) ∧
        out = (⟨cmd, some d⟩, sendStop dev d.stop b1)) := by
  rw [finish] at h
  by_cases herror : cmd.error = 0
  · simp only [herror] at h
    obtain ⟨⟨d, b1⟩, hd, hout⟩ := map_eq_some_iff.mp h
    exact .inr ⟨herror, d, b1, hd, hout.symm⟩
  · simp only [herror] at h
    exact .inl ⟨herror, (some.inj h).symm⟩

theorem sendStop_handed (stop : Option MmcCommand) (b : Bus) :
    handed (sendStop dev stop b) = handed b := by
  cases stop with
  | none => rfl
  | some stop => exact (startCommand_quiet (r := .SDIFSTA) (by decide) stop b).handed

/-- **The end of a request** tells the truth if the command has failed, the data has an error, or
the data phase moves all bytes. -/
theorem finish_doneOrFailed_iff {b0 : Bus} (h : finish dev cmd (some data) b = some out)
    (hhanded : handed b = handed b0) :
    DoneOrFailed data b0 out ↔ cmd.error ≠ 0 ∨ data.error ≠ 0 ∨
      if hasBit data.flags MMC_DATA_WRITE then total data = 0 ∧ data.bytesXfered = 0
      else total data < 2 ^ 32 ∧ ∀ k < total data, Ready dev b k := by
  obtain ⟨herror, rfl⟩ | ⟨herror, d, b1, hd, rfl⟩ := finish_some h
  · constructor
    · intro _
      exact .inl herror
    · rintro - d - hcmd
      exact absurd hcmd herror
  · obtain ⟨⟨b2, htransfer⟩, hb1⟩ := dataEnd_some hd
    obtain ⟨hderror, hiff⟩ := transfer_total_iff htransfer
    have hstop : handed (sendStop dev d.stop b1) = handed b0 := by
      rw [sendStop_handed, hb1, hhanded]
    -- no byte is ever handed over, so a write must have none
    have hself : handed b0 = handed b0 + total data ↔ total data = 0 := by omega
    rw [DoneOrFailed, ← hiff]
    simp only [hstop, hself, some.injEq, forall_eq', herror, hderror, true_implies, ne_eq,
      not_true_eq_false, false_or]
    exact imp_iff_not_or

/-- **Main theorem.** A request with data that returns is done or reported as failed if and only
if the command or the data has an error before, the status makes the command fail, or the data
phase moves all bytes: a write of no bytes, or a read for which the FIFO never runs empty. -/
theorem doneOrFailed_iff (dev : Controller) (busWidth : BitVec 8) (cmd : MmcCommand)
    (data : MmcData) (b : Bus) (turns : ℕ) (out : MmcRequest × Bus)
    (h : mmcRequest dev busWidth ⟨cmd, some data⟩ b turns = some out) :
    DoneOrFailed data b out ↔ cmd.error ≠ 0 ∨ data.error ≠ 0 ∨ StatusFails dev cmd b ∨
      Moved dev data b := by
  obtain ⟨b1, hwait, hfinish⟩ := bind_eq_some_iff.mp h
  set bs := startCommand dev cmd (startIfData busWidth (some data) b)
  have hstart : ∀ r, r ≠ .SDICMDCON → Quiet r b bs := fun r hr =>
    (startIfData_quiet busWidth (some data) b).trans (startCommand_quiet hr cmd _)
  -- the message reads each status register once
  have hsta : (((bs.read .SDICMDSTA).read .SDIDATSTA).read .SDIFSTA).count .SDICMDSTA =
      b.count .SDICMDSTA + 1 := by
    simp [Bus.read_count, (hstart .SDICMDSTA (by decide)).count]
  have hfsta : (((bs.read .SDICMDSTA).read .SDIDATSTA).read .SDIFSTA).count .SDIFSTA =
      b.count .SDIFSTA + 1 := by
    simp [Bus.read_count, (hstart .SDIFSTA (by decide)).count]
  obtain ⟨j, hset, hbefore, hcount, hquiet⟩ := waitStatus_spec hwait
  have hstatus : ∀ i, StatusSet dev (((bs.read .SDICMDSTA).read .SDIDATSTA).read .SDIFSTA) i ↔
      StatusSet dev b (i + 1) := by
    intro i
    rw [StatusSet, StatusSet, Bus.value_of_count hsta, Nat.add_comm]
  rw [hstatus] at hset
  have hend : b1.value dev .SDICMDSTA 1 = b.value dev .SDICMDSTA (j + 3) := by
    rw [Bus.value]
    congr 2
    omega
  have hready : ∀ k, Ready dev (cmdEnd dev cmd b1).2 k ↔
      hasBit (b.value dev .SDIFSTA (1 + 3 * k)) SDIFSTA_RFDET = true := by
    intro k
    rw [Ready, Bus.value_of_count ((cmdEnd_quiet cmd b1).count.trans (hquiet.count.trans hfsta))]
  have hhanded : handed (cmdEnd dev cmd b1).2 = handed b := by
    rw [(cmdEnd_quiet cmd b1).handed, hquiet.handed]
    exact (hstart .SDIFSTA (by decide)).handed
  have hfails : StatusFails dev cmd b ↔ CommandFails cmd (b.value dev .SDICMDSTA (j + 3)) := by
    constructor
    · rintro ⟨i, hi, hless, hf⟩
      -- the first status that is set is only one
      have hij : i = j := by
        rcases Nat.lt_trichotomy i j with hlt | heq | hgt
        · exact absurd ((hstatus i).mpr hi) (hbefore i hlt)
        · exact heq
        · exact absurd hset (hless j hgt)
      exact hij ▸ hf
    · intro hf
      exact ⟨j, hset, fun i hi => by rw [← hstatus]; exact hbefore i hi, hf⟩
  rw [finish_doneOrFailed_iff hfinish hhanded, ne_eq, cmdEnd_error_iff, hend]
  simp only [hready, not_and_or, not_not, ne_eq]
  tauto

/-- A command with a checked response. -/
def blockCommand : MmcCommand where
  opcode := 17
  arg := 0
  resp _ := 0
  flags := MMC_RSP_PRESENT ||| MMC_RSP_CRC
  error := 0

/-- A controller that reports the response as received and whose FIFO is empty. -/
def emptyFifo : Controller := fun r _ => if r = .SDICMDSTA then SDICMDSTA_RSPFIN else 0

/-- One block of 512 bytes. -/
def oneBlock (flags : BitVec 32) : MmcData where
  blksz := 512
  blocks := 1
  error := 0
  flags := flags
  bytesXfered := 0
  stop := none
  sgLen := 1
  sg _ := ⟨0x1000, 512⟩

/-- The request that `mmc_request_done` is called with. -/
def afterBlock (flags : BitVec 32) : Option (MmcRequest × Bus) :=
  mmcRequest emptyFifo 0 ⟨blockCommand, some (oneBlock flags)⟩ idleBus 1

theorem afterBlock_write :
    afterBlock MMC_DATA_WRITE =
      some ((afterBlock MMC_DATA_WRITE).get (by decide)) := (Option.some_get _).symm

theorem doneOrFailed_iff_write :
    DoneOrFailed (oneBlock MMC_DATA_WRITE) idleBus ((afterBlock MMC_DATA_WRITE).get (by decide)) ↔
      blockCommand.error ≠ 0 ∨ (oneBlock MMC_DATA_WRITE).error ≠ 0 ∨
        StatusFails emptyFifo blockCommand idleBus ∨
        Moved emptyFifo (oneBlock MMC_DATA_WRITE) idleBus :=
  doneOrFailed_iff emptyFifo 0 blockCommand (oneBlock MMC_DATA_WRITE) idleBus 1 _ afterBlock_write

/-- What the driver reports about a block: the two errors and the bytes transferred. -/
def report (out : MmcRequest × Bus) : Option (BitVec 32 × BitVec 32 × BitVec 32) :=
  out.1.data.map fun d => (out.1.cmd.error, d.error, d.bytesXfered)

/-- **A block written, and a block read from an empty FIFO**: both are done without an error, and
no byte has been moved. -/
theorem blocks_not_moved :
    (∃ out, afterBlock MMC_DATA_WRITE = some out ∧ report out = some (0, 0, 0) ∧
      ¬ DoneOrFailed (oneBlock MMC_DATA_WRITE) idleBus out) ∧
    ∃ out, afterBlock MMC_DATA_READ = some out ∧ report out = some (0, 0, 0) ∧
      ¬ DoneOrFailed (oneBlock MMC_DATA_READ) idleBus out := by
  have hnot : ∀ (flags : BitVec 32) (out : MmcRequest × Bus), report out = some (0, 0, 0) →
      ¬ DoneOrFailed (oneBlock flags) idleBus out := by
    intro flags out hreport hdone
    obtain ⟨d, hd, hfields⟩ := map_eq_some_iff.mp hreport
    simp only [Prod.mk.injEq] at hfields
    obtain ⟨hcmd, herror, hx⟩ := hfields
    have htotal := (hdone d hd hcmd herror).1
    rw [hx] at htotal
    exact absurd htotal (by simp [total, oneBlock])
  have hwrite : report ((afterBlock MMC_DATA_WRITE).get (by decide)) = some (0, 0, 0) := by decide
  have hread : report ((afterBlock MMC_DATA_READ).get (by decide)) = some (0, 0, 0) := by decide
  exact ⟨⟨_, (some_get _).symm, hwrite, hnot _ _ hwrite⟩,
    ⟨_, (some_get _).symm, hread, hnot _ _ hread⟩⟩

end Gp2xKernel.Mmc
