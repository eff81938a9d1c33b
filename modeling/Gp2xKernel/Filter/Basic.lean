import Mathlib.Data.BitVec

/-!
# The socket filter of `net/core/filter.c`

A filter is an array of instructions for a machine with an accumulator `A`, an index register
`X` and sixteen words of scratch memory.  `sk_chk_filter` checks a filter before it is
attached, `sk_run_filter` runs it on a packet.  Both are one `switch` over the codes of the
instructions, and each `switch` is given here by its own list of labels.

A run ends with a reason (`Exit`) and the value returned, or with a fault: an instruction
outside of the array, a scratch word that does not exist, a division by zero, or a NULL
pointer that is followed.

## Main definitions

* `SockFilter`, `Label`, `Label.code`: instructions, and the labels of the two `switch`es.
* `skChkFilter`: the checker.
* `SkBuff`, `loadPointer`: packets, and the loads from them.
* `exec`, `step`, `skRunFilter`: one instruction, one turn of the loop, and a whole run.
-/

namespace Gp2xKernel.Filter

/-! ## Instructions -/

/-- `struct sock_filter`. -/
structure SockFilter where
  code : BitVec 16
  jt : BitVec 8
  jf : BitVec 8
  k : BitVec 32

/-- The operations of the class `BPF_ALU` that take an operand, without the division. -/
inductive AluOp
  | add | sub | mul | and | or | lsh | rsh
  deriving DecidableEq

/-- The comparisons of the class `BPF_JMP`. -/
inductive JmpOp
  | jeq | jgt | jge | jset
  deriving DecidableEq

/-- The operand: the field `k`, or the index register. -/
inductive Src
  | k | x
  deriving DecidableEq

/-- The size of a load. -/
inductive Size
  | w | h | b
  deriving DecidableEq

/-- The labels of the two `switch`es. -/
inductive Label
  | alu (op : AluOp) (src : Src)
  | div (src : Src)
  | neg
  | ja
  | jmp (op : JmpOp) (src : Src)
  | ldAbs (size : Size)
  | ldLen
  | ldxLen
  | ldInd (size : Size)
  | ldxMsh
  | ldImm
  | ldxImm
  | ldMem
  | ldxMem
  | tax
  | txa
  | retK
  | retA
  | st
  | stx
  deriving DecidableEq

def bpfLd : BitVec 16 := 0x00
def bpfLdx : BitVec 16 := 0x01
def bpfSt : BitVec 16 := 0x02
def bpfStx : BitVec 16 := 0x03
def bpfAlu : BitVec 16 := 0x04
def bpfJmp : BitVec 16 := 0x05
def bpfRet : BitVec 16 := 0x06
def bpfMisc : BitVec 16 := 0x07

/-- `BPF_CLASS(code)`. -/
def bpfClass (code : BitVec 16) : BitVec 16 := code &&& 0x07

def AluOp.code : AluOp → BitVec 16
  | .add => 0x00
  | .sub => 0x10
  | .mul => 0x20
  | .or => 0x40
  | .and => 0x50
  | .lsh => 0x60
  | .rsh => 0x70

def bpfDiv : BitVec 16 := 0x30
def bpfNeg : BitVec 16 := 0x80
def bpfJa : BitVec 16 := 0x00

def JmpOp.code : JmpOp → BitVec 16
  | .jeq => 0x10
  | .jgt => 0x20
  | .jge => 0x30
  | .jset => 0x40

def Src.code : Src → BitVec 16
  | .k => 0x00
  | .x => 0x08

def Size.code : Size → BitVec 16
  | .w => 0x00
  | .h => 0x08
  | .b => 0x10

def bpfImm : BitVec 16 := 0x00
def bpfAbs : BitVec 16 := 0x20
def bpfInd : BitVec 16 := 0x40
def bpfMem : BitVec 16 := 0x60
def bpfLen : BitVec 16 := 0x80
def bpfMsh : BitVec 16 := 0xa0
def bpfA : BitVec 16 := 0x10
def bpfTax : BitVec 16 := 0x00
def bpfTxa : BitVec 16 := 0x80

/-- The value of a label. -/
def Label.code : Label → BitVec 16
  | .alu op src => bpfAlu ||| op.code ||| src.code
  | .div src => bpfAlu ||| bpfDiv ||| src.code
  | .neg => bpfAlu ||| bpfNeg
  | .ja => bpfJmp ||| bpfJa
  | .jmp op src => bpfJmp ||| op.code ||| src.code
  | .ldAbs size => bpfLd ||| size.code ||| bpfAbs
  | .ldLen => bpfLd ||| Size.w.code ||| bpfLen
  | .ldxLen => bpfLdx ||| Size.w.code ||| bpfLen
  | .ldInd size => bpfLd ||| size.code ||| bpfInd
  | .ldxMsh => bpfLdx ||| Size.b.code ||| bpfMsh
  | .ldImm => bpfLd ||| bpfImm
  | .ldxImm => bpfLdx ||| bpfImm
  | .ldMem => bpfLd ||| bpfMem
  | .ldxMem => bpfLdx ||| bpfMem
  | .tax => bpfMisc ||| bpfTax
  | .txa => bpfMisc ||| bpfTxa
  | .retK => bpfRet ||| Src.k.code
  | .retA => bpfRet ||| bpfA
  | .st => bpfSt
  | .stx => bpfStx

/-- `filter[i]`, for an `int` index. -/
def fetch (filter : List SockFilter) (i : ℤ) : Option SockFilter :=
  if 0 ≤ i then filter[i.toNat]? else none

/-- `BPF_MEMWORDS`. -/
def bpfMemwords : ℕ := 16

/-- `BPF_MAXINSNS`. -/
def bpfMaxinsns : ℤ := 4096

/-! ## The checker -/

/-- What `sk_chk_filter` checks about an instruction. -/
inductive Check
  | none
  | divisor
  | memory
  | ja
  | conditional
  deriving DecidableEq

/-- The labels of the `switch` in `sk_chk_filter`, with what is checked under them. -/
def chkLabels : List (Label × Check) :=
  [(.alu .add .k, .none), (.alu .add .x, .none), (.alu .sub .k, .none), (.alu .sub .x, .none),
   (.alu .mul .k, .none), (.alu .mul .x, .none), (.div .x, .none), (.alu .and .k, .none),
   (.alu .and .x, .none), (.alu .or .k, .none), (.alu .or .x, .none), (.alu .lsh .k, .none),
   (.alu .lsh .x, .none), (.alu .rsh .k, .none), (.alu .rsh .x, .none), (.neg, .none),
   (.ldAbs .w, .none), (.ldAbs .h, .none), (.ldAbs .b, .none), (.ldLen, .none),
   (.ldInd .w, .none), (.ldInd .h, .none), (.ldInd .b, .none), (.ldImm, .none),
   (.ldxLen, .none), (.ldxMsh, .none), (.ldxImm, .none), (.tax, .none), (.txa, .none),
   (.retK, .none), (.retA, .none), (.div .k, .divisor), (.ldMem, .memory), (.ldxMem, .memory),
   (.st, .memory), (.stx, .memory), (.ja, .ja), (.jmp .jeq .k, .conditional),
   (.jmp .jeq .x, .conditional), (.jmp .jge .k, .conditional), (.jmp .jge .x, .conditional),
   (.jmp .jgt .k, .conditional), (.jmp .jgt .x, .conditional), (.jmp .jset .k, .conditional),
   (.jmp .jset .x, .conditional)]

/-- What `sk_chk_filter` returns: 0 or `-EINVAL`. -/
inductive Status
  | ok
  | einval
  deriving DecidableEq

/-- The check under a label, for the instruction at `pc`. -/
def Check.passes (c : Check) (f : SockFilter) (pc flen : ℤ) : Bool :=
  match c with
  | .none => true
  | .divisor => f.k ≠ 0
  | .memory => f.k.toNat < bpfMemwords
  | .ja => f.k < BitVec.ofInt 32 (flen - pc - 1)
  | .conditional => pc + f.jt.toNat + 1 < flen ∧ pc + f.jf.toNat + 1 < flen

/-- The loop of `sk_chk_filter` over the next `n` instructions. -/
def chkLoop (filter : List SockFilter) (flen : ℤ) : ℕ → ℤ → Option Status
  | 0, _ => some .ok
  | n + 1, pc => do
    let ftest ← fetch filter pc
    match chkLabels.find? fun l => l.1.code = ftest.code with
    | none => return .einval
    | some l => if l.2.passes ftest pc flen then chkLoop filter flen n (pc + 1) else return .einval

/-- `sk_chk_filter`; a read outside of the array makes it fail. -/
def skChkFilter (filter : List SockFilter) (flen : ℤ) : Option Status := do
  if flen = 0 ∨ flen > bpfMaxinsns then return .einval
  if (← chkLoop filter flen flen.toNat 0) = .einval then return .einval
  let last ← fetch filter (flen - 1)
  return if bpfClass last.code = bpfRet then .ok else .einval

/-! ## Packets -/

/-- `struct net_device`. -/
structure NetDevice where
  ifindex : BitVec 32

/-- What `sk_run_filter` sees of a `struct sk_buff`.  Places are distances from `skb->head`,
and `memory` is what lies there.  `copyBits` is `skb_copy_bits` for this packet, which also
reads the fragments; `protocol` is in the byte order of the machine. -/
structure SkBuff where
  memory : ℤ → BitVec 8
  data : ℤ
  tail : ℤ
  networkHeader : ℤ
  macHeader : ℤ
  len : BitVec 32
  dataLen : BitVec 32
  copyBits : ℤ → ℕ → Option (List (BitVec 8))
  protocol : BitVec 16
  pktType : BitVec 3
  dev : Option NetDevice

/-- The bytes at a place of the linear part. -/
def SkBuff.bytes (skb : SkBuff) (ptr : ℤ) (n : ℕ) : List (BitVec 8) :=
  (List.range n).map fun (i : ℕ) => skb.memory (ptr + i)

/-- `skb_header_pointer`: the bytes at the pointer that it returns. -/
def skbHeaderPointer (skb : SkBuff) (offset : ℤ) (n : ℕ) : Option (List (BitVec 8)) :=
  if (skb.len - skb.dataLen).toInt - offset ≥ n then some (skb.bytes (skb.data + offset) n)
  else skb.copyBits offset n

def skfAdOff : ℤ := -0x1000
def skfAdProtocol : ℤ := 0
def skfAdPkttype : ℤ := 4
def skfAdIfindex : ℤ := 8
def skfNetOff : ℤ := -0x100000
def skfLlOff : ℤ := -0x200000

/-- `__load_pointer`; `ptr` stays NULL for the smallest offsets. -/
def loadPointerNegative (skb : SkBuff) (k : ℤ) (n : ℕ) : Option (List (BitVec 8)) := do
  let ptr ← if k ≥ skfNetOff then some (skb.networkHeader + k - skfNetOff)
    else if k ≥ skfLlOff then some (skb.macHeader + k - skfLlOff)
    else none
  if ptr ≥ 0 ∧ ptr < skb.tail then some (skb.bytes ptr n) else none

def loadPointer (skb : SkBuff) (k : ℤ) (n : ℕ) : Option (List (BitVec 8)) :=
  if k ≥ 0 then skbHeaderPointer skb k n
  else if k ≥ skfAdOff then none
  else loadPointerNegative skb k n

/-! ## The machine -/

/-- What the machine does when it shifts; C leaves shifts by 32 and more open. -/
structure Shifter where
  shl : BitVec 32 → BitVec 32 → BitVec 32
  shr : BitVec 32 → BitVec 32 → BitVec 32

/-- The local variables of `sk_run_filter`. -/
structure State where
  pc : ℤ
  A : BitVec 32
  X : BitVec 32
  mem : Fin bpfMemwords → BitVec 32

/-- How a run ends. -/
inductive Exit
  | ret
  | failedLoad
  | divideByX
  | illegal
  | fellOff
  deriving DecidableEq

/-- What a run must not do. -/
inductive Fault
  | instruction
  | scratch
  | divideByZero
  | nullDevice
  deriving DecidableEq

/-- The effect of one instruction. -/
inductive Effect
  | next (s : State)
  | exit (why : Exit) (value : BitVec 32)
  | fault (what : Fault)

/-- `continue`: the loop goes on with the next instruction. -/
def State.continue (s : State) : Effect := .next { s with pc := s.pc + 1 }

/-- `pc += offset; continue`, for an `int` and an unsigned number. -/
def State.jump (s : State) (offset : ℕ) : Effect :=
  State.continue { s with pc := (s.pc + offset).bmod (2 ^ 32) }

/-- The operand of an instruction. -/
def Src.operand (src : Src) (f : SockFilter) (s : State) : BitVec 32 :=
  match src with
  | .k => f.k
  | .x => s.X

def AluOp.eval (hw : Shifter) (op : AluOp) (a y : BitVec 32) : BitVec 32 :=
  match op with
  | .add => a + y
  | .sub => a - y
  | .mul => a * y
  | .and => a &&& y
  | .or => a ||| y
  | .lsh => hw.shl a y
  | .rsh => hw.shr a y

def JmpOp.holds (op : JmpOp) (a y : BitVec 32) : Bool :=
  match op with
  | .jeq => a = y
  | .jgt => a > y
  | .jge => a ≥ y
  | .jset => a &&& y ≠ 0

/-- The number of bytes of a load. -/
def Size.bytes : Size → ℕ
  | .w => 4
  | .h => 2
  | .b => 1

/-- The number that bytes in network order stand for. -/
def ofNetwork (bytes : List (BitVec 8)) : BitVec 32 :=
  bytes.foldl (fun acc b => acc <<< 8 ||| b.setWidth 32) 0

/-- The second `switch` of `sk_run_filter`, for a load at `k` that found nothing in the
packet: ancillary data. -/
def ancillary (skb : SkBuff) (s : State) (k : BitVec 32) : Effect :=
  let off := k - BitVec.ofInt 32 skfAdOff
  if off = BitVec.ofInt 32 skfAdProtocol then
    State.continue { s with A := skb.protocol.setWidth 32 }
  else if off = BitVec.ofInt 32 skfAdPkttype then
    State.continue { s with A := skb.pktType.setWidth 32 }
  else if off = BitVec.ofInt 32 skfAdIfindex then
    match skb.dev with
    | some dev => State.continue { s with A := dev.ifindex }
    | none => .fault .nullDevice
  else .exit .failedLoad 0

/-- The labels `load_w`, `load_h` and `load_b`. -/
def load (skb : SkBuff) (s : State) (size : Size) (k : BitVec 32) : Effect :=
  match loadPointer skb k.toInt size.bytes with
  | some bytes => State.continue { s with A := ofNetwork bytes }
  | none => ancillary skb s k

/-- The code under a label of `sk_run_filter`. -/
def exec (hw : Shifter) (skb : SkBuff) (f : SockFilter) (s : State) : Label → Effect
  | .alu op src => State.continue { s with A := op.eval hw s.A (src.operand f s) }
  | .div .x =>
    if s.X = 0 then .exit .divideByX 0 else State.continue { s with A := s.A / s.X }
  | .div .k =>
    if f.k = 0 then .fault .divideByZero else State.continue { s with A := s.A / f.k }
  | .neg => State.continue { s with A := -s.A }
  | .ja => s.jump f.k.toNat
  | .jmp op src =>
    s.jump (if op.holds s.A (src.operand f s) then f.jt.toNat else f.jf.toNat)
  | .ldAbs size => load skb s size f.k
  | .ldLen => State.continue { s with A := skb.len }
  | .ldxLen => State.continue { s with X := skb.len }
  | .ldInd size => load skb s size (s.X + f.k)
  | .ldxMsh =>
    match loadPointer skb f.k.toInt 1 with
    | some bytes => State.continue { s with X := (ofNetwork bytes &&& 0xf) <<< 2 }
    | none => .exit .failedLoad 0
  | .ldImm => State.continue { s with A := f.k }
  | .ldxImm => State.continue { s with X := f.k }
  | .ldMem =>
    if h : f.k.toNat < bpfMemwords then State.continue { s with A := s.mem ⟨f.k.toNat, h⟩ }
    else .fault .scratch
  | .ldxMem =>
    if h : f.k.toNat < bpfMemwords then State.continue { s with X := s.mem ⟨f.k.toNat, h⟩ }
    else .fault .scratch
  | .tax => State.continue { s with X := s.A }
  | .txa => State.continue { s with A := s.X }
  | .retK => .exit .ret f.k
  | .retA => .exit .ret s.A
  | .st =>
    if h : f.k.toNat < bpfMemwords then
      State.continue { s with mem := Function.update s.mem ⟨f.k.toNat, h⟩ s.A }
    else .fault .scratch
  | .stx =>
    if h : f.k.toNat < bpfMemwords then
      State.continue { s with mem := Function.update s.mem ⟨f.k.toNat, h⟩ s.X }
    else .fault .scratch

/-- The labels of the `switch` in `sk_run_filter`. -/
def runLabels : List Label :=
  [.alu .add .x, .alu .add .k, .alu .sub .x, .alu .sub .k, .alu .mul .x, .alu .mul .k, .div .x,
   .div .k, .alu .and .x, .alu .and .k, .alu .or .x, .alu .or .k, .alu .lsh .x, .alu .lsh .k,
   .alu .rsh .x, .alu .rsh .k, .neg, .ja, .jmp .jgt .k, .jmp .jge .k, .jmp .jeq .k,
   .jmp .jset .k, .jmp .jgt .x, .jmp .jge .x, .jmp .jeq .x, .jmp .jset .x, .ldAbs .w, .ldAbs .h,
   .ldAbs .b, .ldLen, .ldxLen, .ldInd .w, .ldInd .h, .ldInd .b, .ldxMsh, .ldImm, .ldxImm,
   .ldMem, .ldxMem, .tax, .txa, .retK, .retA, .st, .stx]

/-- The label that a code leads to, if it is not the default one. -/
def decode (code : BitVec 16) : Option Label := runLabels.find? fun l => l.code = code

/-- One instruction: `fentry = &filter[pc]` and the `switch`. -/
def step (hw : Shifter) (filter : List SockFilter) (skb : SkBuff) (s : State) : Effect :=
  match fetch filter s.pc with
  | none => .fault .instruction
  | some fentry =>
    match decode fentry.code with
    | none => .exit .illegal 0
    | some l => exec hw skb fentry s l

/-- How a call of `sk_run_filter` ends. -/
inductive Result
  | exit (why : Exit) (value : BitVec 32)
  | fault (what : Fault)
  deriving DecidableEq

/-- The loop of `sk_run_filter`; it fails if it does not end within the given number of
instructions. -/
def runLoop (hw : Shifter) (filter : List SockFilter) (flen : ℤ) (skb : SkBuff) :
    ℕ → State → Option Result
  | turns, s =>
    if s.pc < flen then
      match turns with
      | 0 => none
      | turns + 1 =>
        match step hw filter skb s with
        | .next s => runLoop hw filter flen skb turns s
        | .exit why value => some (.exit why value)
        | .fault what => some (.fault what)
    else some (.exit .fellOff 0)

/-- The state in which `sk_run_filter` starts; the scratch memory is not initialised. -/
def State.start (mem : Fin bpfMemwords → BitVec 32) : State := ⟨0, 0, 0, mem⟩

/-- `sk_run_filter`, with the contents of its scratch memory at the start. -/
def skRunFilter (hw : Shifter) (turns : ℕ) (skb : SkBuff) (filter : List SockFilter) (flen : ℤ)
    (mem : Fin bpfMemwords → BitVec 32) : Option Result :=
  runLoop hw filter flen skb turns (.start mem)

end Gp2xKernel.Filter
