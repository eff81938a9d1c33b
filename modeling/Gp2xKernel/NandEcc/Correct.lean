import Gp2xKernel.Library.BitErrors
import Gp2xKernel.Library.XorLinear
import Gp2xKernel.NandEcc.Basic
import Mathlib.Data.Fintype.Prod
import Mathlib.Data.Fintype.Sum
import Mathlib.Tactic.FinCases
import Mathlib.Tactic.IntervalCases

/-!
# One bit is corrected, two are detected

The code is linear up to complements, so the syndrome of a received word is the exclusive or of
one contribution for each flipped bit, whatever the block.  In the contribution of a data bit
exactly one of each pair of parities is set, and the set ones spell its position; a code bit
contributes itself.

* Two data bits leave each pair of parities equal, so the check for a single bit fails, and an
  even number of bits is set.
* A data bit and a code bit break one pair, and leave two other bytes that are not zero; the two
  bits of the code that are always set belong to no pair, and a flipped one does no harm.
* Two code bits leave a byte of the syndrome zero.

## Main definitions

* `Pos`, `Word`, `words`: a block with its code, and its bits
* `delta`: the contribution of a bit to the syndrome

## Main results

* `registers_xor`: the code is linear
* `syndromeOf_flip`: the syndrome of a word with one more flipped bit
* `nandCorrectData_errors`: no error, one error and two errors
-/

namespace Gp2xKernel.NandEcc

open Library List Nat XorLinear
open BitVec (ofNat getLsbD_xor eq_of_getLsbD_eq xor_assoc ofFin)

/-! ## The table is linear -/

/-- The table, as the exclusive or of one constant for each bit of the byte. -/
def columnParities (x : BitVec 8) : BitVec 8 :=
  (if x.getLsbD 0 then 0x55 else 0) ^^^ (if x.getLsbD 1 then 0x56 else 0) ^^^
    (if x.getLsbD 2 then 0x59 else 0) ^^^ (if x.getLsbD 3 then 0x5a else 0) ^^^
    (if x.getLsbD 4 then 0x65 else 0) ^^^ (if x.getLsbD 5 then 0x66 else 0) ^^^
    (if x.getLsbD 6 then 0x69 else 0) ^^^ (if x.getLsbD 7 then 0x6a else 0)

theorem table_eq :
    nandEccPrecalcTable = (List.range 256).map fun n => columnParities (ofNat 8 n) := by
  decide +kernel

theorem precalc_eq (x : BitVec 8) : precalc x = columnParities x := by
  rw [precalc, table_eq, getD_eq_getElem?_getD, List.getElem?_map, List.getElem?_range x.isLt]
  simp

theorem precalc_linear : XorLinear precalc := by
  rw [show precalc = columnParities from funext precalc_eq]
  have hbit : ∀ i (c : BitVec 8), XorLinear fun x : BitVec 8 => if x.getLsbD i then c else 0 :=
    ite_getLsbD
  exact (((((((hbit 0 0x55).xor (hbit 1 0x56)).xor (hbit 2 0x59)).xor (hbit 3 0x5a)).xor
    (hbit 4 0x65)).xor (hbit 5 0x66)).xor (hbit 6 0x69)).xor (hbit 7 0x6a)

/-- The bit of the table that is the parity of the whole byte. -/
theorem and_parity_ne_zero (x : BitVec 8) : x &&& 0x40#8 ≠ 0 ↔ x.getLsbD 6 = true := by
  revert x
  decide +kernel

/-! ## The registers are linear -/

/-- Exclusive or of all registers. -/
def Regs.xor (r r' : Regs) : Regs :=
  ⟨r.reg1 ^^^ r'.reg1, r.reg2 ^^^ r'.reg2, r.reg3 ^^^ r'.reg3⟩

/-- A register that takes up a constant when a parity is set. -/
theorem ite_xor_eq (p : Prop) [Decidable p] (r c : BitVec 8) :
    (if p then r ^^^ c else r) = r ^^^ if p then c else 0 := by
  split
  · rfl
  · exact BitVec.xor_zero.symm

theorem column_xor (r r' : Regs) (x y : BitVec 8) (i : Fin 256) :
    column (r.xor r') (x ^^^ y) i = (column r x i).xor (column r' y i) := by
  have hmask := and_right 0x3f#8 (precalc x) (precalc y)
  have hparity := fun c : BitVec 8 => ite_getLsbD 6 c (precalc x) (precalc y)
  simp only [column, Regs.xor, precalc_linear x y, and_parity_ne_zero, ite_xor_eq, hmask, hparity]
  ac_rfl

/-- **The registers are linear** in the block. -/
theorem registers_xor (dat dat' : Block) :
    registers (fun i => dat i ^^^ dat' i) = (registers dat).xor (registers dat') := by
  suffices ∀ (l : List (Fin 256)) (r r' : Regs),
      l.foldl (fun r i => column r (dat i ^^^ dat' i) i) (r.xor r') =
        (l.foldl (fun r i => column r (dat i) i) r).xor
          (l.foldl (fun r i => column r (dat' i) i) r') from this _ ⟨0, 0, 0⟩ ⟨0, 0, 0⟩
  intro l
  induction l with
  | nil =>
    intro r r'
    rfl
  | cons i l ih =>
    intro r r'
    rw [foldl_cons, column_xor]
    exact ih _ _

/-- A block whose only bit is the bit `j` of byte `i`. -/
def single (i : Fin 256) (j : ℕ) : Block := fun i' => if i' = i then 1#8 <<< j else 0

variable {s : Syndrome} {t t' : Fin 3} {b b' j : Fin 8} {i : Fin 256}
  (dat : Block) (smc : Bool)

theorem flipBit_eq_xor (i : Fin 256) (j : ℕ) :
    flipBit dat i j = fun i' => dat i' ^^^ single i j i' := by
  funext i'
  by_cases h : i' = i
  · subst h
    simp [flipBit, single]
  · simp [flipBit, single, h]

theorem column_zero (r : Regs) (i : Fin 256) : column r 0 i = r := by
  have hzero : precalc 0#8 = 0#8 := precalc_linear.map_zero
  simp [column, hzero]

/-- Bytes that are zero leave the registers alone. -/
theorem foldl_column_zero (l : List (Fin 256)) (h : ∀ i ∈ l, dat i = 0) (r : Regs) :
    l.foldl (fun r i => column r (dat i) i) r = r := by
  induction l generalizing r with
  | nil => rfl
  | cons i l ih =>
    rw [foldl_cons, h i mem_cons_self, column_zero]
    exact ih (fun i' hi' => h i' (mem_cons_of_mem _ hi')) r

theorem registers_single (i : Fin 256) (j : ℕ) :
    registers (single i j) = column ⟨0, 0, 0⟩ (1#8 <<< j) i := by
  obtain ⟨before, after, hl⟩ := append_of_mem (mem_finRange i)
  have hnodup := nodup_finRange 256
  rw [hl, nodup_append, nodup_cons] at hnodup
  obtain ⟨-, ⟨hafter, -⟩, hbefore⟩ := hnodup
  have hzero : ∀ i', i' ≠ i → single i j i' = 0 := fun i' h => if_neg h
  rw [registers, hl, foldl_append, foldl_cons, foldl_column_zero _ before]
  · rw [foldl_column_zero _ after, single, if_pos rfl]
    intro i' hi'
    apply hzero
    rintro rfl
    exact hafter hi'
  · intro i' hi'
    exact hzero i' (hbefore i' hi' i mem_cons_self)

/-! ## Words and their bits -/

/-- The bits of a block and of its code. -/
abbrev Pos := (Fin 256 × Fin 8) ⊕ (Fin 3 × Fin 8)

/-- A block with a code. -/
structure Word where
  dat : Block
  ecc : Code

/-- Flip the bit `b` of a byte of the code. -/
def flipCode (ecc : Code) (k : Fin 3) (b : ℕ) : Code := Function.update ecc k (ecc k ^^^ 1#8 <<< b)

/-- A bit of a word. -/
def Word.bit (w : Word) : Pos → Bool
  | .inl (i, j) => (w.dat i).getLsbD j
  | .inr (k, b) => (w.ecc k).getLsbD b

/-- Flip a bit of a word. -/
def Word.flip (w : Word) : Pos → Word
  | .inl (i, j) => { w with dat := flipBit w.dat i j }
  | .inr (k, b) => { w with ecc := flipCode w.ecc k b }

theorem getLsbD_one_shiftLeft (j j' : Fin 8) :
    (1#8 <<< j.val).getLsbD j' = decide (j' = j) := by
  revert j j'
  decide

/-- Reading and flipping the bits of words. -/
def words : BitWords Word Pos where
  bit := Word.bit
  flip p w := w.flip p
  ext := by
    rintro ⟨dat, ecc⟩ ⟨dat', ecc'⟩ h
    have hdat : dat = dat' := by
      funext i
      exact BitVec.eq_of_getLsbD_eq fun j hj => h (.inl (i, ⟨j, hj⟩))
    have hecc : ecc = ecc' := by
      funext k
      exact BitVec.eq_of_getLsbD_eq fun b hb => h (.inr (k, ⟨b, hb⟩))
    rw [hdat, hecc]
  bit_flip := by
    rintro (⟨i, j⟩ | ⟨k, b⟩) w (⟨i', j'⟩ | ⟨k', b'⟩)
    · by_cases hi : i' = i
      · subst hi
        show (flipBit w.dat i' j i').getLsbD j' = ((w.dat i').getLsbD j' ^^ _)
        rw [flipBit, Function.update_self, getLsbD_xor, getLsbD_one_shiftLeft]
        simp
      · simp [Word.bit, Word.flip, flipBit, hi]
    · simp [Word.bit, Word.flip]
    · simp [Word.bit, Word.flip]
    · by_cases hk : k' = k
      · subst hk
        show (flipCode w.ecc k' b k').getLsbD b' = ((w.ecc k').getLsbD b' ^^ _)
        rw [flipCode, Function.update_self, getLsbD_xor, getLsbD_one_shiftLeft]
        simp
      · simp [Word.bit, Word.flip, flipCode, hk]

/-! ## The syndrome is linear -/

/-- Exclusive or of all bytes. -/
def Syndrome.xor (s s' : Syndrome) : Syndrome := ⟨s.s0 ^^^ s'.s0, s.s1 ^^^ s'.s1, s.s2 ^^^ s'.s2⟩

/-- The contribution of registers to the syndrome. -/
def regsDelta (r : Regs) : Syndrome :=
  ⟨lowerLines r.reg3 r.reg2, upperLines r.reg3 r.reg2, r.reg1 <<< 2⟩

/-- The contribution of a bit to the syndrome. -/
def delta (smc : Bool) : Pos → Syndrome
  | .inl (i, j) => regsDelta (column ⟨0, 0, 0⟩ (1#8 <<< j.val) i)
  | .inr (k, b) =>
    ⟨if k.val = (if smc then 0 else 1) then 1#8 <<< b.val else 0,
      if k.val = (if smc then 1 else 0) then 1#8 <<< b.val else 0,
      if k.val = 2 then 1#8 <<< b.val else 0⟩

/-- The syndrome of a received word. -/
def syndromeOf (smc : Bool) (w : Word) : Syndrome :=
  syndrome smc w.ecc (nandCalculateEcc smc w.dat)

theorem upperLines_xor (a b c d : BitVec 8) :
    upperLines (a ^^^ b) (c ^^^ d) = upperLines a c ^^^ upperLines b d := by
  refine eq_of_getLsbD_eq fun i hi => ?_
  interval_cases i <;> simp [upperLines]

theorem lowerLines_xor (a b c d : BitVec 8) :
    lowerLines (a ^^^ b) (c ^^^ d) = lowerLines a c ^^^ lowerLines b d := by
  refine eq_of_getLsbD_eq fun i hi => ?_
  interval_cases i <;> simp [lowerLines]

theorem shiftLeft_or_xor (a b : BitVec 8) :
    (a ^^^ b) <<< 2 ||| 0x03#8 = (a <<< 2 ||| 0x03#8) ^^^ b <<< 2 := by
  refine eq_of_getLsbD_eq fun i hi => ?_
  interval_cases i <;> simp

theorem syndrome_finalCode_xor (readEcc : Code) (r r' : Regs) :
    syndrome smc readEcc (finalCode smc (r.xor r')) =
      (syndrome smc readEcc (finalCode smc r)).xor (regsDelta r') := by
  have hu := upperLines_xor r.reg3 r'.reg3 r.reg2 r'.reg2
  have hl := lowerLines_xor r.reg3 r'.reg3 r.reg2 r'.reg2
  have hright : ∀ a b c : BitVec 8, a ^^^ b ^^^ c = a ^^^ c ^^^ b := by
    intro a b c
    ac_rfl
  cases smc <;>
    simp [syndrome, finalCode, Syndrome.xor, regsDelta, Regs.xor, hu, hl, BitVec.not_xor_left,
      shiftLeft_or_xor, hright _ _ (readEcc _)]

theorem syndrome_flipCode (readEcc calcEcc : Code) (k : Fin 3) (b : Fin 8) :
    syndrome smc (flipCode readEcc k b) calcEcc =
      (syndrome smc readEcc calcEcc).xor (delta smc (.inr (k, b))) := by
  have hflip : ∀ k', flipCode readEcc k b k' =
      readEcc k' ^^^ if k = k' then 1#8 <<< b.val else 0 := by
    intro k'
    by_cases h : k = k'
    · subst h
      simp [flipCode]
    · simp [flipCode, h, Ne.symm h]
  cases smc <;> simp only [syndrome, Syndrome.xor, hflip, xor_assoc, Bool.false_eq_true,
      if_true, if_false, Fin.ext_iff] <;>
    rfl

/-- **The syndrome of a word with one more flipped bit.** -/
theorem syndromeOf_flip (w : Word) (p : Pos) :
    syndromeOf smc (words.flip p w) = (syndromeOf smc w).xor (delta smc p) := by
  rcases p with ⟨i, j⟩ | ⟨k, b⟩
  · show syndrome smc w.ecc (nandCalculateEcc smc (flipBit w.dat i j)) = _
    rw [nandCalculateEcc, flipBit_eq_xor, registers_xor, registers_single, syndrome_finalCode_xor]
    rfl
  · exact syndrome_flipCode smc w.ecc _ k b

theorem syndromeOf_self (dat : Block) :
    syndromeOf smc ⟨dat, nandCalculateEcc smc dat⟩ = ⟨0, 0, 0⟩ := by
  cases smc <;> simp [syndromeOf, syndrome]

/-! ## Pairs of parities -/

/-- The pairs of bits, within `m`, that differ. -/
def pairs (m s : BitVec 8) : BitVec 8 := (s ^^^ s >>> 1) &&& m

theorem pairs_linear (m : BitVec 8) : XorLinear (pairs m) :=
  (and_right m).comp (id.xor (ushiftRight 1))

/-- A byte of the syndrome. -/
def Syndrome.byte (s : Syndrome) : Fin 3 → BitVec 8 := ![s.s0, s.s1, s.s2]

/-- The pairs of a byte of the syndrome. -/
def mask : Fin 3 → BitVec 8 := ![0x55#8, 0x55#8, 0x54#8]

theorem byte_xor (s s' : Syndrome) (t : Fin 3) : (s.xor s').byte t = s.byte t ^^^ s'.byte t := by
  fin_cases t <;> rfl

theorem singleBit_iff (s : Syndrome) :
    singleBit s = true ↔ ∀ t, pairs (mask t) (s.byte t) = mask t := by
  rw [Fin.forall_fin_succ]
  simp [singleBit, and_assoc, pairs, mask, Syndrome.byte]

/-- The syndrome spells the position of the bit `j` of byte `i`. -/
structure Spells (s : Syndrome) (i : Fin 256) (j : Fin 8) : Prop where
  single : singleBit s = true
  byteoffs : byteoffs s.s0 s.s1 = BitVec.ofFin i
  bitnum : bitnum s.s2 = BitVec.ofNat 8 j

/-! ## The contribution of a data bit -/

theorem delta_data (i : Fin 256) (j : Fin 8) :
    delta smc (.inl (i, j)) =
      ⟨lowerLines (ofFin i) (~~~ofFin i),
        upperLines (ofFin i) (~~~ofFin i),
        (precalc (1#8 <<< j.val) &&& 0x3f#8) <<< 2⟩ := by
  have hparity : precalc (1#8 <<< j.val) &&& 0x40#8 ≠ 0 := by
    revert j
    decide
  simp only [delta, regsDelta, column, if_pos hparity]
  simp

/-- The two parities of every line: one of each pair is set, and they spell its number. -/
theorem lines_spell (x : BitVec 8) :
    pairs 0x55#8 (lowerLines x (~~~x)) = 0x55#8 ∧ pairs 0x55#8 (upperLines x (~~~x)) = 0x55#8 ∧
      byteoffs (lowerLines x (~~~x)) (upperLines x (~~~x)) = x := by
  revert x
  decide +kernel

/-- The two parities of every column. -/
theorem columns_spell (j : Fin 8) :
    pairs 0x55#8 ((precalc (1#8 <<< j.val) &&& 0x3f#8) <<< 2) = 0x54#8 ∧
      bitnum ((precalc (1#8 <<< j.val) &&& 0x3f#8) <<< 2) = ofNat 8 j := by
  revert j
  decide

/-- In the contribution of a data bit one of each pair of parities is set. -/
theorem pairs_delta_data (i : Fin 256) (j : Fin 8) (t : Fin 3) :
    pairs 0x55#8 ((delta smc (.inl (i, j))).byte t) = mask t := by
  obtain ⟨h0, h1, -⟩ := lines_spell (ofFin i)
  rw [delta_data]
  fin_cases t
  · exact h0
  · exact h1
  · exact (columns_spell j).1

theorem pairs_mask (t : Fin 3) (s : BitVec 8) : pairs (mask t) s = pairs 0x55#8 s &&& mask t := by
  have hmask : 0x55#8 &&& mask t = mask t := by
    revert t
    decide
  rw [pairs, pairs, BitVec.and_assoc, hmask]

theorem pairs_mask_delta_data (i : Fin 256) (j : Fin 8) (t : Fin 3) :
    pairs (mask t) ((delta smc (.inl (i, j))).byte t) = mask t := by
  rw [pairs_mask, pairs_delta_data, BitVec.and_self]

theorem delta_data_spells (i : Fin 256) (j : Fin 8) : Spells (delta smc (.inl (i, j))) i j := by
  refine ⟨(singleBit_iff _).mpr (pairs_mask_delta_data smc i j), ?_, ?_⟩
  · rw [delta_data]
    exact (lines_spell (ofFin i)).2.2
  · rw [delta_data]
    exact (columns_spell j).2

theorem byte_delta_data_ne_zero (i : Fin 256) (j : Fin 8) (t : Fin 3) :
    (delta smc (.inl (i, j))).byte t ≠ 0 := by
  intro h
  have hzero : ∀ t, pairs 0x55#8 0 ≠ mask t := by decide
  have hpairs := pairs_delta_data smc i j t
  rw [h] at hpairs
  exact hzero t hpairs

/-! ## The contribution of a code bit -/

/-- Each byte of the code has its place in the syndrome: the first two are swapped, unless the
order is that of SmartMedia. -/
theorem exists_place :
    ∃ place : Fin 3 → Fin 3, Function.Injective place ∧ ∀ k (b : Fin 8) t,
      (delta smc (.inr (k, b))).byte t = if t = place k then 1#8 <<< b.val else 0 := by
  refine ⟨fun k => if k = 2 then 2 else if smc then k else 1 - k, ?_, ?_⟩
  · revert smc
    decide
  · intro k b t
    cases smc <;> fin_cases k <;> fin_cases t <;> rfl

/-- A code bit breaks a pair, unless it is one of the two bits that are always set. -/
theorem pairs_code (t : Fin 3) (b : Fin 8) (h : t = 2 → 2 ≤ b.val) :
    pairs (mask t) (1#8 <<< b.val) ≠ 0 := by
  revert t b
  decide

/-! ## Counting bits -/

theorem and_one_toNat (x : BitVec 32) : (x &&& 0x01#32).toNat = (x.getLsbD 0).toNat := by
  have hbit : x &&& 0x01#32 = BitVec.setWidth 32 (BitVec.ofBool (x.getLsbD 0)) := by
    refine eq_of_getLsbD_eq fun i hi => ?_
    cases i <;> simp
  rw [hbit]
  cases x.getLsbD 0 <;> rfl

theorem countbitsLoop_eq (n : ℕ) (x : BitVec 32) (res : ℕ) :
    countbitsLoop n x res = res + (range n).countP x.getLsbD := by
  induction n generalizing x res with
  | zero => rfl
  | succ n ih =>
    by_cases hzero : x = 0
    · simp [countbitsLoop, hzero]
    · have hnext : x.getLsbD ∘ succ = (x >>> 1).getLsbD := by
        funext m
        rw [BitVec.getLsbD_ushiftRight, add_comm]
        rfl
      rw [countbitsLoop, if_neg hzero, ih, and_one_toNat, range_succ_eq_map, countP_cons,
        countP_map,
        hnext, add_assoc, add_comm _ (countP _ _)]
      cases x.getLsbD 0 <;> rfl

theorem getLsbD_syndromeWord (s : Syndrome) (t : Fin 3) (b : Fin 8) :
    (syndromeWord s).getLsbD (8 * t + b) = (s.byte t).getLsbD b := by
  fin_cases t
  · simp [syndromeWord, Syndrome.byte, show b.val < 16 by omega, show b.val < 32 by omega]
  · simp [syndromeWord, Syndrome.byte, show 8 + b.val < 16 by omega, show 8 + b.val < 32 by omega]
  · have hs0 : s.s0.getLsbD (16 + b.val) = false := BitVec.getLsbD_of_ge _ _ (by omega)
    simp [syndromeWord, Syndrome.byte, show 16 + b.val < 32 by omega,
      show 16 + b.val - 8 = 8 + b.val by omega, hs0]

/-- **Two different bits of the syndrome** are too many for a single error. -/
theorem two_le_countbits (hne : (t, b) ≠ (t', b')) (h : (s.byte t).getLsbD b = true)
    (h' : (s.byte t').getLsbD b' = true) :
    2 ≤ countbits (syndromeWord s) := by
  rw [← getLsbD_syndromeWord] at h h'
  have hpos : 8 * t.val + b.val ≠ 8 * t'.val + b'.val := by
    intro heq
    apply hne
    rw [Prod.mk.injEq]
    exact ⟨Fin.ext (by omega), Fin.ext (by omega)⟩
  have hsub : [8 * t.val + b.val, 8 * t'.val + b'.val].Subperm (range 32) :=
    subperm_of_subset (by simp [hpos]) (by simp; omega)
  have hle := hsub.countP_le (syndromeWord s).getLsbD
  rw [countbits, countbitsLoop_eq]
  simpa [h, h'] using hle

theorem exists_getLsbD_of_ne_zero {x : BitVec 8} (h : x ≠ 0) : ∃ b : Fin 8, x.getLsbD b = true := by
  by_contra hall
  apply h
  refine eq_of_getLsbD_eq fun i hi => ?_
  rw [not_exists] at hall
  simpa using hall ⟨i, hi⟩

/-- A byte in which each pair of bits is equal has none or two bits set. -/
theorem two_bits_of_pairs (x : BitVec 8) (hpairs : pairs 0x55#8 x = 0) (hne : x ≠ 0) :
    ∃ b b' : Fin 8, b ≠ b' ∧ x.getLsbD b = true ∧ x.getLsbD b' = true := by
  revert x
  decide +kernel

/-! ## The outcomes -/

theorem correctFrom_zero : correctFrom ⟨0, 0, 0⟩ dat = (0, dat) := rfl

theorem byte_eq_zero_of_or (h : s.s0 ||| s.s1 ||| s.s2 = 0) (t : Fin 3) : s.byte t = 0 := by
  obtain ⟨h01, h2⟩ := BitVec.or_eq_zero_iff.mp h
  obtain ⟨h0, h1⟩ := BitVec.or_eq_zero_iff.mp h01
  fin_cases t
  · exact h0
  · exact h1
  · exact h2

/-- The bit whose position the syndrome spells is flipped. -/
theorem correctFrom_spells (h : Spells s i j)
    (dat : Block) : correctFrom s dat = (1, flipBit dat i j) := by
  have hne : s.s0 ||| s.s1 ||| s.s2 ≠ 0 := by
    intro hzero
    have hpairs := (singleBit_iff s).mp h.single 0
    rw [byte_eq_zero_of_or hzero] at hpairs
    exact absurd hpairs (by decide)
  have hj : (ofNat 8 j.val).toNat = j.val := mod_eq_of_lt (by omega)
  rw [correctFrom, if_neg hne, if_pos h.single, h.byteoffs, h.bitnum, hj]

/-- A syndrome that no single bit has. -/
theorem correctFrom_bad {u : Fin 3} (ht : pairs (mask u) (s.byte u) ≠ mask u)
    (hne : (t, b) ≠ (t', b')) (h : (s.byte t).getLsbD b = true)
    (h' : (s.byte t').getLsbD b' = true) (dat : Block) : correctFrom s dat = (-EBADMSG, dat) := by
  have hzero : s.s0 ||| s.s1 ||| s.s2 ≠ 0 := by
    intro hzero
    simp [byte_eq_zero_of_or hzero] at h
  have hsingle : ¬ singleBit s = true := fun h => ht ((singleBit_iff s).mp h u)
  have hcount := two_le_countbits hne h h'
  rw [correctFrom, if_neg hzero, if_neg hsingle, if_neg (by omega)]

/-! ## One and two errors -/

/-- Two data bits leave every pair equal. -/
theorem correctFrom_data_data {i' : Fin 256} {j' : Fin 8} (hne : (i, j) ≠ (i', j')) (dat : Block) :
    correctFrom ((delta smc (.inl (i, j))).xor (delta smc (.inl (i', j')))) dat =
      (-EBADMSG, dat) := by
  set d := delta smc (.inl (i, j)) with hd
  set d' := delta smc (.inl (i', j')) with hd'
  have hpairs : ∀ t, pairs 0x55#8 ((d.xor d').byte t) = 0 := by
    intro t
    rw [byte_xor, pairs_linear, pairs_delta_data, pairs_delta_data, BitVec.xor_self]
    rfl
  -- the contributions spell different positions, so some byte differs
  have hbyte : ∃ t, (d.xor d').byte t ≠ 0 := by
    by_contra hall
    rw [not_exists] at hall
    have heq : ∀ t, d.byte t = d'.byte t := by
      intro t
      have hzero := not_not.mp (hall t)
      rw [byte_xor] at hzero
      exact BitVec.xor_eq_zero_iff.mp hzero
    have h0 : d.s0 = d'.s0 := heq 0
    have h1 : d.s1 = d'.s1 := heq 1
    have h2 : d.s2 = d'.s2 := heq 2
    have hs := delta_data_spells smc i j
    have hs' := delta_data_spells smc i' j'
    apply hne
    have hi : (ofFin i : BitVec 8) = ofFin i' := by
      rw [← hs.byteoffs, ← hs'.byteoffs, h0, h1]
    have hj : ofNat 8 j.val = ofNat 8 j'.val := by
      rw [← hs.bitnum, ← hs'.bitnum, h2]
    have hinj : ∀ j j' : Fin 8, ofNat 8 j.val = ofNat 8 j'.val → j = j' := by decide
    rw [Prod.mk.injEq]
    exact ⟨BitVec.ofFin.inj hi, hinj j j' hj⟩
  obtain ⟨t, ht⟩ := hbyte
  obtain ⟨b, b', hbb, hb, hb'⟩ := two_bits_of_pairs _ (hpairs t) ht
  refine correctFrom_bad (u := 0) ?_ ?_ hb hb' dat
  · rw [pairs_mask, hpairs 0]
    decide
  · intro heq
    exact hbb (Prod.mk.inj heq).2

/-- A data bit and a code bit: a broken pair, or a bit of the code that does not matter. -/
theorem correctFrom_data_code (i : Fin 256) (j : Fin 8) (k : Fin 3) (b : Fin 8) (dat : Block) :
    correctFrom ((delta smc (.inl (i, j))).xor (delta smc (.inr (k, b)))) dat =
        (-EBADMSG, dat) ∨
      correctFrom ((delta smc (.inl (i, j))).xor (delta smc (.inr (k, b)))) dat =
        (1, flipBit dat i j) := by
  set s := (delta smc (.inl (i, j))).xor (delta smc (.inr (k, b))) with hs
  obtain ⟨place, -, hplace⟩ := exists_place smc
  set t0 := place k
  have hother : ∀ t, t ≠ t0 → s.byte t = (delta smc (.inl (i, j))).byte t := by
    intro t ht
    rw [byte_xor, hplace, if_neg ht]
    exact BitVec.xor_zero
  have hhit : s.byte t0 = (delta smc (.inl (i, j))).byte t0 ^^^ 1#8 <<< b.val := by
    rw [byte_xor, hplace, if_pos rfl]
  by_cases hused : t0 = 2 → 2 ≤ b.val
  · -- the pair of the code bit is broken, and the two other bytes are not zero
    have hthree : ∀ t : Fin 3, t + 1 ≠ t ∧ t + 2 ≠ t ∧ t + 1 ≠ t + 2 := by decide
    obtain ⟨h1, h2, h12⟩ := hthree t0
    have hset : ∀ t, t ≠ t0 → ∃ b : Fin 8, (s.byte t).getLsbD b = true := by
      intro t ht
      rw [hother _ ht]
      exact exists_getLsbD_of_ne_zero (byte_delta_data_ne_zero smc i j _)
    obtain ⟨b1, hb1⟩ := hset _ h1
    obtain ⟨b2, hb2⟩ := hset _ h2
    refine .inl (correctFrom_bad (u := t0) ?_ (fun heq => h12 (Prod.mk.inj heq).1) hb1 hb2 dat)
    · rw [hhit, pairs_linear, pairs_mask_delta_data]
      intro heq
      apply pairs_code t0 b hused
      have hcancel := congrArg (mask t0 ^^^ ·) heq
      simpa [← xor_assoc] using hcancel
  · -- the bits 0 and 1 of the last byte belong to no pair
    obtain ⟨h2, hb⟩ : t0 = 2 ∧ b.val < 2 := by
      rw [Classical.not_imp] at hused
      exact ⟨hused.1, by omega⟩
    have hlast : s.s2 = (delta smc (.inl (i, j))).s2 ^^^ 1#8 <<< b.val := by
      have := hhit
      rw [h2] at this
      exact this
    have hfree : ∀ (x : BitVec 8) (b : Fin 8), b.val < 2 →
        pairs 0x54#8 (1#8 <<< b.val) = 0 ∧ bitnum (x ^^^ 1#8 <<< b.val) = bitnum x := by
      decide +kernel
    obtain ⟨hpair, hbit⟩ := hfree (delta smc (.inl (i, j))).s2 b hb
    have hspell := delta_data_spells smc i j
    refine .inr (correctFrom_spells ⟨(singleBit_iff s).mpr fun t => ?_, ?_, ?_⟩ dat)
    · by_cases ht : t = t0
      · subst ht
        rw [hhit, pairs_linear, pairs_mask_delta_data, h2, show mask 2 = 0x54#8 from rfl, hpair]
        rfl
      · rw [hother t ht, pairs_mask_delta_data]
    · have h0 : s.s0 = (delta smc (.inl (i, j))).s0 := hother 0 (by rw [h2]; decide)
      have h1 : s.s1 = (delta smc (.inl (i, j))).s1 := hother 1 (by rw [h2]; decide)
      rw [h0, h1, hspell.byteoffs]
    · rw [hlast, hbit, hspell.bitnum]

/-- One code bit: the block is right as it is. -/
theorem correctFrom_code (k : Fin 3) (b : Fin 8) (dat : Block) :
    correctFrom (delta smc (.inr (k, b))) dat = (1, dat) := by
  have hne : (delta smc (.inr (k, b))).s0 ||| (delta smc (.inr (k, b))).s1 |||
      (delta smc (.inr (k, b))).s2 ≠ 0 := by
    revert smc k b
    decide
  have hsingle : ¬ singleBit (delta smc (.inr (k, b))) = true := by
    revert smc k b
    decide
  have hcount : countbits (syndromeWord (delta smc (.inr (k, b)))) = 1 := by
    revert smc k b
    decide +kernel
  rw [correctFrom, if_neg hne, if_neg hsingle, if_pos hcount]

/-- Two code bits leave a byte of the syndrome zero. -/
theorem correctFrom_code_code {k k' : Fin 3} (hne : (k, b) ≠ (k', b')) (dat : Block) :
    correctFrom ((delta smc (.inr (k, b))).xor (delta smc (.inr (k', b')))) dat =
      (-EBADMSG, dat) := by
  set s := (delta smc (.inr (k, b))).xor (delta smc (.inr (k', b'))) with hs
  obtain ⟨place, hinj, hplace⟩ := exists_place smc
  have hcode : ∀ (k t : Fin 3) (b c : Fin 8),
      ((delta smc (.inr (k, b))).byte t).getLsbD c = decide (t = place k ∧ c = b) := by
    intro k t b c
    rw [hplace]
    split_ifs with h
    · rw [getLsbD_one_shiftLeft]
      simp [h]
    · simp [h]
  have hbit : ∀ (t : Fin 3) (c : Fin 8), (s.byte t).getLsbD c =
      (decide (t = place k ∧ c = b) ^^ decide (t = place k' ∧ c = b')) := by
    intro t c
    rw [byte_xor, getLsbD_xor, hcode, hcode]
  have hfirst : ¬ (place k = place k' ∧ b = b') := by
    rintro ⟨hk, rfl⟩
    exact hne (by rw [hinj hk])
  have hdiff : (place k, b) ≠ (place k', b') := by
    intro heq
    exact hfirst (Prod.mk.inj heq)
  obtain ⟨t, ht, ht'⟩ : ∃ t, t ≠ place k ∧ t ≠ place k' := by
    have hthird : ∀ u v : Fin 3, ∃ t, t ≠ u ∧ t ≠ v := by decide
    exact hthird _ _
  refine correctFrom_bad (u := t) ?_ hdiff ?_ ?_ dat
  · have hzero : ∀ t, pairs (mask t) (0 ^^^ 0) ≠ mask t := by decide
    rw [byte_xor, hplace, hplace, if_neg ht, if_neg ht']
    exact hzero t
  · rw [hbit, decide_eq_true ⟨rfl, rfl⟩, decide_eq_false hfirst]
    rfl
  · have hsecond : ¬ (place k' = place k ∧ b' = b) := fun h => hfirst ⟨h.1.symm, h.2.symm⟩
    rw [hbit, decide_eq_false hsecond, decide_eq_true ⟨rfl, rfl⟩]
    rfl

theorem flipBit_flipBit (i : Fin 256) (j : ℕ) : flipBit (flipBit dat i j) i j = dat := by
  simp [flipBit, xor_assoc]

theorem zero_xor_delta (s : Syndrome) : (⟨0, 0, 0⟩ : Syndrome).xor s = s := by
  simp [Syndrome.xor]

theorem Syndrome.xor_comm (s s' : Syndrome) : s.xor s' = s'.xor s := by
  simp only [Syndrome.xor, BitVec.xor_comm]

/-- Correction of a received word. -/
def correct (smc : Bool) (w : Word) : ℤ × Block :=
  nandCorrectData smc w.dat w.ecc (nandCalculateEcc smc w.dat)

theorem correct_one (dat : Block) (p : Pos) :
    correct smc (words.flip p ⟨dat, nandCalculateEcc smc dat⟩) = (1, dat) := by
  have hs := syndromeOf_flip smc ⟨dat, nandCalculateEcc smc dat⟩ p
  rw [syndromeOf_self, zero_xor_delta] at hs
  rw [correct, nandCorrectData, ← syndromeOf, hs]
  rcases p with ⟨i, j⟩ | ⟨k, b⟩
  · rw [correctFrom_spells (delta_data_spells smc i j)]
    exact congrArg (Prod.mk 1) (flipBit_flipBit dat i j)
  · exact correctFrom_code smc k b dat

/-- Two errors are detected, or corrected when one of them does not matter. -/
theorem correct_two (dat : Block) {p q : Pos} (hne : p ≠ q) :
    let w' := words.flip q (words.flip p ⟨dat, nandCalculateEcc smc dat⟩)
    correct smc w' = (-EBADMSG, w'.dat) ∨ correct smc w' = (1, dat) := by
  intro w'
  have hs : syndromeOf smc w' = (delta smc p).xor (delta smc q) := by
    rw [syndromeOf_flip, syndromeOf_flip, syndromeOf_self, zero_xor_delta]
  rw [correct, nandCorrectData, ← syndromeOf, hs]
  rcases p with ⟨i, j⟩ | ⟨k, b⟩ <;> rcases q with ⟨i', j'⟩ | ⟨k', b'⟩
  · refine .inl (correctFrom_data_data smc ?_ _)
    rintro heq
    exact hne (congrArg Sum.inl heq)
  · refine (correctFrom_data_code smc i j k' b' w'.dat).imp_right fun h => ?_
    rw [h]
    exact congrArg (Prod.mk 1) (flipBit_flipBit dat i j)
  · rw [Syndrome.xor_comm]
    refine (correctFrom_data_code smc i' j' k b w'.dat).imp_right fun h => ?_
    rw [h]
    exact congrArg (Prod.mk 1) (flipBit_flipBit dat i' j')
  · refine .inl (correctFrom_code_code smc ?_ _)
    rintro heq
    exact hne (congrArg Sum.inr heq)

/-- **Main theorem.** Let a block be stored with its code, and let a word be received.  Without an
error nothing is done; one error, wherever it is, is corrected; and two errors are reported or
corrected, and the block is never changed to a third value. -/
theorem nandCorrectData_errors (smc : Bool) (dat : Block) (w : Word) :
    (w = ⟨dat, nandCalculateEcc smc dat⟩ → correct smc w = (0, dat)) ∧
      ((words.errors ⟨dat, nandCalculateEcc smc dat⟩ w).card = 1 → correct smc w = (1, dat)) ∧
      ((words.errors ⟨dat, nandCalculateEcc smc dat⟩ w).card = 2 →
        ((correct smc w).1 < 0 ∧ (correct smc w).2 = w.dat) ∨ correct smc w = (1, dat)) := by
  refine ⟨?_, ?_, ?_⟩
  · rintro rfl
    rw [correct, nandCorrectData, ← syndromeOf, syndromeOf_self]
    exact correctFrom_zero dat
  · intro hcard
    obtain ⟨p, rfl⟩ := BitWords.exists_flip_of_card_one hcard
    exact correct_one smc dat p
  · intro hcard
    obtain ⟨p, q, hne, rfl⟩ := BitWords.exists_flip_of_card_two hcard
    refine (correct_two smc dat hne).imp_left fun h => ?_
    rw [h]
    exact ⟨show -EBADMSG < 0 by decide, rfl⟩

end Gp2xKernel.NandEcc
