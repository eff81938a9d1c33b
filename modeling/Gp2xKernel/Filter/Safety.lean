import Gp2xKernel.Filter.Basic

/-!
# Accepted filters run safely

The labels that the checker knows are labels of the interpreter, and what it checks under a
label keeps the instruction from doing harm: every jump goes forward and stays inside, and so
does every other instruction, because the last one returns.

## Main definitions

* `Accepted`: what it means for `sk_chk_filter` to return 0.
* `After`: the states of a run.
* `Safe`: what is required of a run.

## Main results

* `accepted_of_skChkFilter`: the checker checks every instruction.
* `step_spec`: one instruction of an accepted filter.
* `skRunFilter_safe_iff`: the run of an accepted filter is safe, unless it asks for the
  interface of a packet that has no device.
-/

namespace Gp2xKernel.Filter

variable {hw : Shifter} {filter : List SockFilter} {flen : ℤ} {skb : SkBuff}
  {mem : Fin bpfMemwords → BitVec 32} {s s' : State} {f : SockFilter} {l : Label}

/-! ## The checker -/

/-- A filter that `sk_chk_filter` accepts. -/
structure Accepted (filter : List SockFilter) (flen : ℤ) : Prop where
  pos : 0 < flen
  le : flen ≤ bpfMaxinsns
  checked : ∀ pc, 0 ≤ pc → pc < flen → ∃ f l c, fetch filter pc = some f ∧ (l, c) ∈ chkLabels ∧
    l.code = f.code ∧ c.passes f pc flen = true
  last : ∃ f, fetch filter (flen - 1) = some f ∧ bpfClass f.code = bpfRet

variable {n : ℕ} {pc : ℤ} {asks : Prop}

theorem chkLoop_ok (h : chkLoop filter flen n pc = some .ok) {i : ℤ} (hi : pc ≤ i)
    (hin : i < pc + n) : ∃ f l c, fetch filter i = some f ∧ (l, c) ∈ chkLabels ∧
      l.code = f.code ∧ c.passes f i flen = true := by
  induction n generalizing pc with
  | zero => omega
  | succ n ih =>
    obtain ⟨f, hf, h⟩ := Option.bind_eq_some_iff.mp h
    cases hfind : chkLabels.find? fun l => l.1.code = f.code with
    | none => simp [hfind] at h
    | some lc =>
      simp only [hfind] at h
      split at h
      · rename_i hpass
        rcases eq_or_lt_of_le hi with rfl | hlt
        · refine ⟨f, lc.1, lc.2, hf, List.mem_of_find?_eq_some hfind, ?_, hpass⟩
          simpa using List.find?_some hfind
        · exact ih h (by omega) (by push_cast at hin; omega)
      · simp at h

theorem accepted_of_skChkFilter (h : skChkFilter filter flen = some .ok) :
    Accepted filter flen := by
  rw [skChkFilter] at h
  split at h
  · simp at h
  · obtain ⟨status, hloop, h⟩ := Option.bind_eq_some_iff.mp h
    cases status with
    | einval => simp at h
    | ok =>
      obtain ⟨f, hf, h⟩ := Option.bind_eq_some_iff.mp h
      have hpos : 0 < flen := by
        by_contra hneg
        rw [fetch, if_neg (by omega)] at hf
        cases hf
      refine ⟨hpos, by omega, fun pc h0 h1 => chkLoop_ok hloop h0 (by omega), f, hf, ?_⟩
      by_contra hret
      simp [hret] at h

/-! ## The two lists of labels -/

/-- What has to be checked under a label for the instruction to be harmless. -/
def Label.check : Label → Check
  | .div .k => .divisor
  | .ja => .ja
  | .jmp _ _ => .conditional
  | .ldMem | .ldxMem | .st | .stx => .memory
  | _ => .none

/-- The labels under which the scratch memory is used. -/
def Label.usesScratch (l : Label) : Prop := l.check = .memory

instance (l : Label) : Decidable l.usesScratch := inferInstanceAs (Decidable (_ = _))

/-- The interpreter knows every label of the checker. -/
theorem decode_of_chkLabels : ∀ lc ∈ chkLabels, decode lc.1.code = some lc.1 := by
  decide

theorem check_of_chkLabels : ∀ lc ∈ chkLabels, lc.2 = lc.1.check := by
  decide

theorem ret_of_chkLabels :
    ∀ lc ∈ chkLabels, bpfClass lc.1.code = bpfRet → lc.1 = .retK ∨ lc.1 = .retA := by
  decide

theorem Accepted.instruction (H : Accepted filter flen) (h0 : 0 ≤ pc) (h1 : pc < flen) :
    ∃ f l, fetch filter pc = some f ∧ decode f.code = some l ∧ l.check.passes f pc flen = true ∧
      (pc + 1 < flen ∨ l = .retK ∨ l = .retA) := by
  obtain ⟨f, l, c, hf, hmem, hcode, hpass⟩ := H.checked pc h0 h1
  obtain rfl : c = l.check := check_of_chkLabels _ hmem
  refine ⟨f, l, hf, hcode ▸ decode_of_chkLabels _ hmem, hpass, ?_⟩
  by_cases hlast : pc + 1 < flen
  · exact .inl hlast
  · -- the last instruction returns
    obtain ⟨f', hf', hret⟩ := H.last
    obtain rfl : pc = flen - 1 := by omega
    obtain rfl := Option.some.inj (hf.symm.trans hf')
    exact .inr (ret_of_chkLabels _ hmem (hcode.symm ▸ hret))

/-! ## One instruction -/

/-- The load asks for the interface that the packet came from. -/
def AsksIfindex (filter : List SockFilter) (s : State) : Prop :=
  ∃ f size, fetch filter s.pc = some f ∧
    ((decode f.code = some (.ldAbs size) ∧ f.k = BitVec.ofInt 32 (skfAdOff + skfAdIfindex)) ∨
      (decode f.code = some (.ldInd size) ∧
        s.X + f.k = BitVec.ofInt 32 (skfAdOff + skfAdIfindex)))

/-- The three ways in which a run may end. -/
def Exit.Proper (why : Exit) : Prop := why = .ret ∨ why = .failedLoad ∨ why = .divideByX

/-- The effect of an instruction of an accepted filter: the loop goes on further down, the run
ends properly, or the instruction follows a NULL pointer to a device. -/
inductive Harmless (flen : ℤ) (skb : SkBuff) (s : State) (asks : Prop) : Effect → Prop
  | next (s' : State) : s.pc < s'.pc → s'.pc < flen → Harmless flen skb s asks (.next s')
  | exit (why : Exit) (value : BitVec 32) : why.Proper → Harmless flen skb s asks (.exit why value)
  | nullDevice : asks → skb.dev = none → Harmless flen skb s asks (.fault .nullDevice)

theorem harmless_continue {t : State} (ht : t.pc = s.pc) (hnext : s.pc + 1 < flen) :
    Harmless flen skb s asks t.continue :=
  .next _ (by show s.pc < t.pc + 1; omega) (by show t.pc + 1 < flen; omega)

theorem harmless_jump {offset : ℕ} (h0 : 0 ≤ s.pc) (hle : flen ≤ bpfMaxinsns)
    (hnext : s.pc + offset + 1 < flen) : Harmless flen skb s asks (s.jump offset) := by
  rw [bpfMaxinsns] at hle
  have hmod : (s.pc + offset).bmod (2 ^ 32) = s.pc + offset :=
    Int.bmod_eq_of_le (by omega) (by omega)
  refine .next _ ?_ ?_
  · show s.pc < (s.pc + offset).bmod (2 ^ 32) + 1
    omega
  · show (s.pc + offset).bmod (2 ^ 32) + 1 < flen
    omega

theorem loadPointer_ifindex (n : ℕ) :
    loadPointer skb (BitVec.ofInt 32 (skfAdOff + skfAdIfindex)).toInt n = none := by
  rw [loadPointer, if_neg (by decide), if_pos (by decide)]

theorem harmless_load {size : Size} {k : BitVec 32} (hnext : s.pc + 1 < flen)
    (hasks : k = BitVec.ofInt 32 (skfAdOff + skfAdIfindex) → asks) :
    Harmless flen skb s asks (load skb s size k) := by
  rw [load]
  split
  · exact harmless_continue rfl hnext
  · rw [ancillary]
    split
    · exact harmless_continue rfl hnext
    · split
      · exact harmless_continue rfl hnext
      · split
        · rename_i hk
          cases hdev : skb.dev with
          | some dev => exact harmless_continue rfl hnext
          | none =>
            refine .nullDevice (hasks ?_) hdev
            rw [sub_eq_iff_eq_add] at hk
            rw [hk]
            rfl
        · exact .exit _ _ (.inr (.inl rfl))

/-- **One instruction** of an accepted filter. -/
theorem step_spec (hw : Shifter) (skb : SkBuff) (H : Accepted filter flen) (h0 : 0 ≤ s.pc)
    (h1 : s.pc < flen) :
    Harmless flen skb s (AsksIfindex filter s) (step hw filter skb s) := by
  obtain ⟨f, l, hf, hl, hpass, hnext⟩ := H.instruction h0 h1
  have hle := H.le
  have hstep : step hw filter skb s = exec hw skb f s l := by
    rw [step, hf]
    simp only [hl]
  rw [hstep]
  cases l with
  | retK | retA => exact .exit _ _ (.inl rfl)
  | alu | neg | ldLen | ldxLen | ldImm | ldxImm | tax | txa =>
    exact harmless_continue rfl (by simpa using hnext)
  | div src =>
    replace hnext : s.pc + 1 < flen := by simpa using hnext
    cases src with
    | k =>
      have hk : f.k ≠ 0 := of_decide_eq_true hpass
      rw [exec, if_neg hk]
      exact harmless_continue rfl hnext
    | x =>
      rw [exec]
      split
      · exact .exit _ _ (.inr (.inr rfl))
      · exact harmless_continue rfl hnext
  | ja =>
    have hk : f.k < BitVec.ofInt 32 (flen - s.pc - 1) := of_decide_eq_true hpass
    refine harmless_jump h0 hle ?_
    have hlt := BitVec.lt_def.mp hk
    rw [BitVec.toNat_ofInt] at hlt
    omega
  | jmp op src =>
    obtain ⟨hjt, hjf⟩ : s.pc + f.jt.toNat + 1 < flen ∧ s.pc + f.jf.toNat + 1 < flen :=
      of_decide_eq_true hpass
    rw [exec]
    split
    · exact harmless_jump h0 hle hjt
    · exact harmless_jump h0 hle hjf
  | ldAbs size =>
    exact harmless_load (by simpa using hnext) fun hk => ⟨f, size, hf, .inl ⟨hl, hk⟩⟩
  | ldInd size =>
    exact harmless_load (by simpa using hnext) fun hk => ⟨f, size, hf, .inr ⟨hl, hk⟩⟩
  | ldxMsh =>
    have hnext : s.pc + 1 < flen := by simpa using hnext
    rw [exec]
    split
    · exact harmless_continue rfl hnext
    · exact .exit _ _ (.inr (.inl rfl))
  | ldMem | ldxMem | st | stx =>
    have hk : f.k.toNat < bpfMemwords := of_decide_eq_true hpass
    rw [exec, dif_pos hk]
    exact harmless_continue rfl (by simpa using hnext)

/-! ## Whole runs -/

/-- The state after `n` instructions. -/
inductive After (hw : Shifter) (filter : List SockFilter) (flen : ℤ) (skb : SkBuff)
    (mem : Fin bpfMemwords → BitVec 32) : ℕ → State → Prop
  | start : After hw filter flen skb mem 0 (.start mem)
  | step {n : ℕ} {s s' : State} : After hw filter flen skb mem n s → s.pc < flen →
      step hw filter skb s = .next s' → After hw filter flen skb mem (n + 1) s'

/-- What is required of a run: the program counter stays inside the filter, every instruction
is known, uses scratch words that exist and does not divide by zero, and the run ends properly
after at most `flen` instructions. -/
structure Safe (hw : Shifter) (filter : List SockFilter) (flen : ℤ) (skb : SkBuff)
    (mem : Fin bpfMemwords → BitVec 32) : Prop where
  bounds : ∀ n s, After hw filter flen skb mem n s → 0 ≤ s.pc ∧ s.pc < flen ∧ n < flen
  legal : ∀ n s, After hw filter flen skb mem n s →
    ∃ f l, fetch filter s.pc = some f ∧ decode f.code = some l ∧
      (l.usesScratch → f.k.toNat < bpfMemwords) ∧ (l = .div .k → f.k ≠ 0)
  ends : ∃ why value, skRunFilter hw flen.toNat skb filter flen mem = some (.exit why value) ∧
    why.Proper

/-- The program counter grows with every instruction and stays inside. -/
theorem After.bounds (H : Accepted filter flen) (h : After hw filter flen skb mem n s) :
    (n : ℤ) ≤ s.pc ∧ s.pc < flen := by
  induction h with
  | start => exact ⟨le_rfl, H.pos⟩
  | step _ hlt hstep ih =>
    have heffect := step_spec hw skb H (by omega) ih.2
    rw [hstep] at heffect
    cases heffect with
    | next _ h1 h2 =>
      exact ⟨by omega, h2⟩

/-- A run is in one state after `n` instructions. -/
theorem After.unique (h : After hw filter flen skb mem n s)
    (h' : After hw filter flen skb mem n s') : s = s' := by
  induction h generalizing s' with
  | start =>
    cases h'
    rfl
  | step _ _ hstep ih =>
    cases h' with
    | step hs _ hstep' =>
      obtain rfl := ih hs
      exact Effect.next.inj (hstep.symm.trans hstep')

/-- What a call returns is what its loop returns from any state of the run on. -/
theorem After.runLoop_eq (h : After hw filter flen skb mem n s) (turns : ℕ) :
    skRunFilter hw (n + turns) skb filter flen mem = runLoop hw filter flen skb turns s := by
  induction h generalizing turns with
  | start => rw [Nat.zero_add, skRunFilter]
  | @step n s s' _ hlt hstep ih =>
    rw [Nat.add_assoc, Nat.add_comm 1, ih, runLoop, if_pos hlt, hstep]

/-- A run that never asks for the interface of a packet without a device ends properly. -/
theorem runLoop_ends (H : Accepted filter flen)
    (hdev : ∀ n s, After hw filter flen skb mem n s → AsksIfindex filter s → skb.dev ≠ none)
    (turns : ℕ) (h : After hw filter flen skb mem n s) (hturns : flen - s.pc ≤ turns) :
    ∃ why value, runLoop hw filter flen skb turns s = some (.exit why value) ∧ why.Proper := by
  induction turns generalizing n s with
  | zero =>
    have := (h.bounds H).2
    omega
  | succ turns ih =>
    have hbounds := h.bounds H
    have heffect := step_spec hw skb H (by omega) hbounds.2
    rw [runLoop, if_pos hbounds.2]
    cases hstep : step hw filter skb s with
    | next s' =>
      rw [hstep] at heffect
      cases heffect with
      | next _ h1 h2 => exact ih (h.step hbounds.2 hstep) (by push_cast at hturns; omega)
    | exit why value =>
      rw [hstep] at heffect
      cases heffect with
      | exit _ _ hwhy => exact ⟨why, value, rfl, hwhy⟩
    | fault what =>
      rw [hstep] at heffect
      cases heffect with
      | nullDevice hasks hnone => exact absurd hnone (hdev n s h hasks)

/-- A load of the interface of a packet without a device follows a NULL pointer. -/
theorem step_asksIfindex (h : AsksIfindex filter s) (hdev : skb.dev = none) :
    step hw filter skb s = .fault .nullDevice := by
  obtain ⟨f, size, hf, ⟨hl, hk⟩ | ⟨hl, hk⟩⟩ := h <;>
  · rw [step, hf]
    simp only [hl, exec, hk, load, ancillary, hdev]
    rfl

/-- **Accepted filters run safely**, on every packet and for every content of the scratch
memory, if and only if no load asks for the interface of a packet without a device. -/
theorem skRunFilter_safe_iff (h : skChkFilter filter flen = some .ok) :
    Safe hw filter flen skb mem ↔
      ∀ n s, After hw filter flen skb mem n s → AsksIfindex filter s → skb.dev ≠ none := by
  have H := accepted_of_skChkFilter h
  constructor
  · intro hsafe n s hs hasks hdev
    -- the run would end with the fault
    obtain ⟨why, value, hrun, -⟩ := hsafe.ends
    have hlt := (hs.bounds H)
    obtain ⟨turns, hturns⟩ := Nat.exists_eq_add_of_le (show n + 1 ≤ flen.toNat by omega)
    rw [hturns, Nat.add_assoc, hs.runLoop_eq, Nat.add_comm 1, runLoop, if_pos hlt.2,
      step_asksIfindex hasks hdev] at hrun
    cases hrun
  · intro hdev
    refine ⟨fun n s hs => ?_, fun n s hs => ?_, ?_⟩
    · have := hs.bounds H
      omega
    · have hbounds := hs.bounds H
      obtain ⟨f, l, hf, hl, hpass, -⟩ := H.instruction (show 0 ≤ s.pc by omega) hbounds.2
      refine ⟨f, l, hf, hl, fun hscratch => ?_, ?_⟩
      · rw [show l.check = .memory from hscratch] at hpass
        exact of_decide_eq_true hpass
      · rintro rfl
        exact of_decide_eq_true hpass
    · have hends := runLoop_ends H hdev flen.toNat .start (by
        show flen - 0 ≤ _
        omega)
      exact hends

/-- A packet of no bytes, without a device. -/
def emptySkb : SkBuff where
  memory _ := 0
  data := 0
  tail := 0
  networkHeader := 0
  macHeader := 0
  len := 0
  dataLen := 0
  copyBits _ _ := none
  protocol := 0
  pktType := 0
  dev := none

/-- Keep packets of protocol 0: a load of ancillary data, a conditional jump and two returns. -/
def protocolFilter : List SockFilter :=
  [⟨0x20, 0, 0, 0xfffff000⟩, ⟨0x15, 0, 1, 0⟩, ⟨0x06, 0, 0, 0xffff⟩, ⟨0x06, 0, 0, 0⟩]

/-- Shifts by a register on ARM, which count up to 255. -/
def armShifter : Shifter where
  shl a y := a <<< (y.toNat % 256)
  shr a y := a >>> (y.toNat % 256)

theorem mem_of_fetch (h : fetch filter pc = some f) : f ∈ filter := by
  rw [fetch] at h
  split at h
  · exact List.mem_of_getElem? h
  · cases h

/-- A filter that asks for the protocol is safe also on a packet without a device. -/
theorem skRunFilter_safe_iff_protocol :
    Safe armShifter protocolFilter 4 emptySkb fun _ => 0 := by
  refine (skRunFilter_safe_iff (by decide)).mpr fun n s _ hasks => ?_
  obtain ⟨f, size, hf, hload⟩ := hasks
  have hmem := mem_of_fetch hf
  simp only [protocolFilter, List.mem_cons, List.not_mem_nil, or_false] at hmem
  -- only the first instruction is a load, and it loads another word
  rcases hmem with rfl | rfl | rfl | rfl
  · rcases hload with ⟨-, hk⟩ | ⟨hl, -⟩
    · exact absurd hk (by decide)
    · exact absurd hl (by cases size <;> decide)
  all_goals
    cases size <;> rcases hload with ⟨hl, -⟩ | ⟨hl, -⟩ <;> exact absurd hl (by decide)

/-- Load the interface of the packet, and return it. -/
def ifindexFilter : List SockFilter := [⟨0x20, 0, 0, 0xfffff008⟩, ⟨0x16, 0, 0, 0⟩]

/-- **A packet without a device.**  The filter is accepted, and its first instruction follows
the NULL pointer `skb->dev`. -/
theorem ifindexFilter_unsafe :
    skChkFilter ifindexFilter 2 = some .ok ∧
      skRunFilter armShifter 2 emptySkb ifindexFilter 2 (fun _ => 0) =
        some (.fault .nullDevice) ∧
      ¬ Safe armShifter ifindexFilter 2 emptySkb fun _ => 0 := by
  have hrun : skRunFilter armShifter 2 emptySkb ifindexFilter 2 (fun _ => 0) =
      some (.fault .nullDevice) := rfl
  refine ⟨by decide, hrun, fun hsafe => ?_⟩
  obtain ⟨why, value, hends, -⟩ := hsafe.ends
  cases hrun.symm.trans hends

end Gp2xKernel.Filter
