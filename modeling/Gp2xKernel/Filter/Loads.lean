import Gp2xKernel.Filter.Safety

/-!
# What the loads of a filter read

A load at an offset that is not negative goes through `skb_header_pointer`, which knows the size
of the load.  Negative offsets are relative to a header, and `__load_pointer` only checks that the
first byte lies between `skb->head` and the tail pointer.  A load of two or four bytes that starts
right before the tail pointer therefore reads past it.

That a load reads certain places only is said without looking into the code: its result does not
change when the memory changes elsewhere.

## Main definitions

* `SkBuff.Proper`: what holds for the packets that a filter sees
* `LoadsAt`: the load of the next instruction
* `Contained`, `LoadsContained`: what is required of a load, and of all loads of a run
* `Overruns`: the loads that cross the tail pointer

## Main results

* `readsInside_iff`: a load reads inside the linear part unless it crosses the tail pointer
* `loads_contained_iff`: all loads of a run
-/

namespace Gp2xKernel.Filter

open Option

variable {hw : Shifter} {filter : List SockFilter} {flen : ℤ} {skb : SkBuff}
  {mem : Fin bpfMemwords → BitVec 32} {s : State} {k p : ℤ} {n : ℕ}

/-- A packet: its linear part starts at `skb->data` and has `skb_headlen` bytes, and
`skb_copy_bits` copies bytes of the packet only. -/
structure SkBuff.Proper (skb : SkBuff) : Prop where
  data_nonneg : 0 ≤ skb.data
  tail_eq : skb.tail = skb.data + (skb.len - skb.dataLen).toInt
  headlen_le : (skb.len - skb.dataLen).toInt ≤ skb.len.toNat
  copyBits_le : ∀ k n, skb.copyBits k n ≠ none → k + n ≤ skb.len.toNat

/-- The next instruction loads `n` bytes at offset `k`. -/
def LoadsAt (filter : List SockFilter) (s : State) (k : ℤ) (n : ℕ) : Prop :=
  ∃ f, fetch filter s.pc = some f ∧
    ((∃ size, decode f.code = some (.ldAbs size) ∧ k = f.k.toInt ∧ n = size.bytes) ∨
      (∃ size, decode f.code = some (.ldInd size) ∧ k = (s.X + f.k).toInt ∧ n = size.bytes) ∨
      decode f.code = some .ldxMsh ∧ k = f.k.toInt ∧ n = 1)

/-- The load does not read the linear buffer outside of `skb->head` and the tail pointer. -/
def ReadsInside (skb : SkBuff) (k : ℤ) (n : ℕ) : Prop :=
  ∀ memory : ℤ → BitVec 8, (∀ p, 0 ≤ p → p < skb.tail → memory p = skb.memory p) →
    loadPointer { skb with memory := memory } k n = loadPointer skb k n

/-- The run ends with 0, or goes on with ancillary data in the accumulator. -/
def Ancillary (skb : SkBuff) (s : State) (e : Effect) : Prop :=
  e = .exit .failedLoad 0 ∨ ∃ a, e = State.continue { s with A := a } ∧
    (a = skb.protocol.setWidth 32 ∨ a = skb.pktType.setWidth 32 ∨
      ∃ dev, skb.dev = some dev ∧ a = dev.ifindex)

/-- What is required of a load in a state with the effect `e`: it reads inside the linear part,
and at an offset that is not negative inside the packet; where it fails, the run ends with 0 or
takes ancillary data. -/
structure Contained (skb : SkBuff) (s : State) (e : Effect) (k : ℤ) (n : ℕ) : Prop where
  inside : ReadsInside skb k n
  packet : 0 ≤ k → loadPointer skb k n ≠ none → k + n ≤ skb.len.toNat
  failed : loadPointer skb k n = none → Ancillary skb s e

/-- Every load of the run is contained. -/
def LoadsContained (hw : Shifter) (filter : List SockFilter) (flen : ℤ) (skb : SkBuff)
    (mem : Fin bpfMemwords → BitVec 32) : Prop :=
  ∀ i s, After hw filter flen skb mem i s → ∀ k n, LoadsAt filter s k n →
    Contained skb s (step hw filter skb s) k n

/-- The place is in the linear part, and `n` bytes from there on are not. -/
def SkBuff.Crosses (skb : SkBuff) (p : ℤ) (n : ℕ) : Prop :=
  0 ≤ p ∧ p < skb.tail ∧ skb.tail < p + n

/-- A load relative to a header that starts in the linear part and ends outside of it. -/
def Overruns (skb : SkBuff) (k : ℤ) (n : ℕ) : Prop :=
  k < skfAdOff ∧ (skfNetOff ≤ k ∧ skb.Crosses (skb.networkHeader + k - skfNetOff) n ∨
    skfLlOff ≤ k ∧ k < skfNetOff ∧ skb.Crosses (skb.macHeader + k - skfLlOff) n)

/-! ## One load -/

theorem bytes_eq_iff {memory : ℤ → BitVec 8} :
    SkBuff.bytes { skb with memory := memory } p n = skb.bytes p n ↔
      ∀ i < n, memory (p + i) = skb.memory (p + i) := by
  rw [SkBuff.bytes, SkBuff.bytes, List.map_inj_left]
  simp only [List.mem_range]

/-- The check of `__load_pointer` does not see the end of the load. -/
theorem checked_iff :
    (∀ memory : ℤ → BitVec 8, (∀ p, 0 ≤ p → p < skb.tail → memory p = skb.memory p) →
      (if p ≥ 0 ∧ p < skb.tail then some (SkBuff.bytes { skb with memory := memory } p n)
        else none) = if p ≥ 0 ∧ p < skb.tail then some (skb.bytes p n) else none) ↔
      ¬ skb.Crosses p n := by
  by_cases hp : p ≥ 0 ∧ p < skb.tail
  · simp only [if_pos hp, some.injEq, bytes_eq_iff]
    constructor
    · rintro h ⟨-, -, hcross⟩
      -- the byte at the tail pointer is read, so it must not change
      have hdiff := h (Function.update skb.memory skb.tail (skb.memory skb.tail + 1))
        (fun q _ hq => Function.update_of_ne hq.ne _ _) (skb.tail - p).toNat (by omega)
      rw [show p + ((skb.tail - p).toNat : ℤ) = skb.tail by omega] at hdiff
      simp at hdiff
    · intro hcross memory hmem i hi
      refine hmem _ (by omega) (not_le.mp fun hle => hcross ⟨hp.1, hp.2, ?_⟩)
      omega
  · simp only [if_neg hp, implies_true, true_iff]
    exact fun hcross => hp ⟨hcross.1, hcross.2.1⟩

/-- **A load reads inside the linear part** unless it crosses the tail pointer. -/
theorem readsInside_iff (hskb : skb.Proper) : ReadsInside skb k n ↔ ¬ Overruns skb k n := by
  unfold ReadsInside Overruns loadPointer
  by_cases hk : k ≥ 0
  · have hover : ¬ k < skfAdOff := by
      rw [skfAdOff]
      omega
    simp only [if_pos hk, hover, false_and, not_false_iff, iff_true]
    intro memory hmem
    unfold skbHeaderPointer
    split
    · next hlen =>
      have h0 := hskb.data_nonneg
      have htail := hskb.tail_eq
      replace hlen : (skb.len - skb.dataLen).toInt - k ≥ n := hlen
      refine congrArg some (bytes_eq_iff.mpr fun i hi => hmem (skb.data + k + i) ?_ ?_) <;> omega
    · rfl
  · by_cases had : k ≥ skfAdOff
    · simp [hk, had]
    · unfold loadPointerNegative
      simp only [if_neg hk, if_neg had, not_le.mp had, true_and]
      by_cases hnet : k ≥ skfNetOff
      · simp only [bind_eq_bind, bind_some, hnet.le, not_lt.mpr hnet, true_and,
          false_and, and_false, or_false]
        exact checked_iff
      · by_cases hll : k ≥ skfLlOff
        · simp only [bind_eq_bind, bind_some, not_le.mpr (not_le.mp hnet),
            not_le.mp hnet, hll.le, true_and, false_and, false_or]
          exact checked_iff
        · simp [hnet, hll]

/-- Behind `skb_header_pointer` the load ends inside the packet. -/
theorem le_len_of_loadPointer (hskb : skb.Proper) (hk : 0 ≤ k)
    (h : loadPointer skb k n ≠ none) : k + n ≤ skb.len.toNat := by
  rw [loadPointer, if_pos hk, skbHeaderPointer] at h
  split at h
  · next hlen => exact le_trans (by omega) hskb.headlen_le
  · exact hskb.copyBits_le k n h

/-- A load that finds nothing in the packet takes ancillary data, unless it follows the NULL
pointer to the device. -/
theorem ancillary_spec {b : BitVec 32}
    (hdev : b = BitVec.ofInt 32 (skfAdOff + skfAdIfindex) → skb.dev ≠ none) :
    Ancillary skb s (ancillary skb s b) := by
  unfold ancillary
  dsimp only
  split
  · exact .inr ⟨_, rfl, .inl rfl⟩
  · split
    · exact .inr ⟨_, rfl, .inr (.inl rfl)⟩
    · split
      · next hk =>
        cases hsome : skb.dev with
        | some dev => exact .inr ⟨_, rfl, .inr (.inr ⟨dev, hsome, rfl⟩)⟩
        | none =>
          rw [sub_eq_iff_eq_add] at hk
          exact absurd hsome (hdev hk)
      · exact .inl rfl

/-! ## Whole runs -/

/-- **The loads of a run** are contained in the packet if and only if none crosses the tail pointer
and none asks for the interface of a packet without a device. -/
theorem loads_contained_iff (hskb : skb.Proper) :
    LoadsContained hw filter flen skb mem ↔ ∀ i s, After hw filter flen skb mem i s →
      (∀ k n, LoadsAt filter s k n → ¬ Overruns skb k n) ∧
        (AsksIfindex filter s → skb.dev ≠ none) := by
  constructor
  · refine fun h i s hs => ⟨fun k n hload => ?_, fun hasks hdev => ?_⟩
    · exact (readsInside_iff hskb).mp (h i s hs k n hload).inside
    · -- the load fails, and the NULL pointer is followed
      obtain ⟨f, size, hf, ⟨hl, hk⟩ | ⟨hl, hk⟩⟩ := id hasks
      · have hfail := (h i s hs _ _ ⟨f, hf, .inl ⟨size, hl, rfl, rfl⟩⟩).failed
        rw [hk, step_asksIfindex hasks hdev] at hfail
        obtain h | ⟨a, h, -⟩ := hfail (loadPointer_ifindex _) <;> cases h
      · have hfail := (h i s hs _ _ ⟨f, hf, .inr (.inl ⟨size, hl, rfl, rfl⟩)⟩).failed
        rw [hk, step_asksIfindex hasks hdev] at hfail
        obtain h | ⟨a, h, -⟩ := hfail (loadPointer_ifindex _) <;> cases h
  · refine fun h i s hs k n hload => ⟨?_, le_len_of_loadPointer hskb, fun hfail => ?_⟩
    · exact (readsInside_iff hskb).mpr ((h i s hs).1 k n hload)
    · obtain ⟨f, hf, ⟨size, hl, rfl, rfl⟩ | ⟨size, hl, rfl, rfl⟩ | ⟨hl, rfl, rfl⟩⟩ := hload
      · simp only [step, hf, hl, exec, load, hfail]
        exact ancillary_spec fun hk => (h i s hs).2 ⟨f, size, hf, .inl ⟨hl, hk⟩⟩
      · simp only [step, hf, hl, exec, load, hfail]
        exact ancillary_spec fun hk => (h i s hs).2 ⟨f, size, hf, .inr ⟨hl, hk⟩⟩
      · simp only [step, hf, hl, exec, hfail]
        exact .inl rfl

/-- A packet of one byte, in which the network header starts. -/
def oneByteSkb : SkBuff := { emptySkb with tail := 1, len := 1, dev := some ⟨1⟩ }

theorem oneByteSkb_proper : oneByteSkb.Proper :=
  ⟨le_rfl, rfl, le_rfl, fun _ _ h => absurd rfl h⟩

/-- A filter that returns the byte at the network header keeps to the packet. -/
theorem loads_contained_iff_byte : LoadsContained armShifter
    [⟨0x30, 0, 0, 0xfff00000⟩, ⟨0x16, 0, 0, 0⟩] 2 oneByteSkb fun _ => 0 := by
  refine (loads_contained_iff oneByteSkb_proper).mpr fun i s _ => ⟨fun k n hload => ?_, fun _ => ?_⟩
  · suffices hn : n = 1 by
      -- a byte that starts before the tail pointer ends there
      rintro ⟨-, ⟨-, -, h, h'⟩ | ⟨-, -, -, h, h'⟩⟩ <;> omega
    obtain ⟨f, hf, ⟨size, hl, -, rfl⟩ | ⟨size, hl, -⟩ | ⟨-, -, hn⟩⟩ := hload
    · have hmem := mem_of_fetch hf
      simp only [List.mem_cons, List.not_mem_nil, or_false] at hmem
      rcases hmem with rfl | rfl <;> cases hl
      rfl
    · have hmem := mem_of_fetch hf
      simp only [List.mem_cons, List.not_mem_nil, or_false] at hmem
      rcases hmem with rfl | rfl <;> cases hl
    · exact hn
  · exact some_ne_none _

/-- Return the word at the network header. -/
def networkFilter : List SockFilter := [⟨0x20, 0, 0, 0xfff00000⟩, ⟨0x16, 0, 0, 0⟩]

/-- **A load past the tail pointer.**  The filter is accepted, and its first instruction reads four
bytes of a buffer with one. -/
theorem networkFilter_overruns :
    skChkFilter networkFilter 2 = some .ok ∧ oneByteSkb.tail = 1 ∧
      loadPointer oneByteSkb skfNetOff 4 = some (oneByteSkb.bytes 0 4) ∧
      ¬ LoadsContained armShifter networkFilter 2 oneByteSkb fun _ => 0 := by
  refine ⟨by decide, rfl, rfl, fun h => ?_⟩
  have hload : LoadsAt networkFilter (.start fun _ => 0) skfNetOff 4 :=
    ⟨_, rfl, .inl ⟨.w, by decide, by decide, rfl⟩⟩
  have hinside := (h 0 _ .start _ _ hload).inside
  have hsame := hinside (fun p => if p = 1 then 1 else 0) fun p _ hp => if_neg (ne_of_lt hp)
  exact absurd hsame (by decide)

end Gp2xKernel.Filter
