import Mathlib.Tactic.IntervalCases
import Gp2xKernel.Crc32.Tables

/-!
# The laws of the CRC-32 routines

Both routines are a register that is divided bit by bit while bytes enter at one end.  The
table-driven code keeps this register in the byte order of the memory and feeds it a word at a
time, which makes no difference as the division is linear.

## Main definitions

* `Register`: the register of a checksum, with the places where the bytes of a word enter
* `Layout`: the table-driven code computes with a stored form of the register

## Main results

* `Layout.crc32Body_eq`: the table-driven loops are the bit-by-bit loop
* `crc32_laws`: the table-driven routines equal the bit-by-bit ones and obey the laws of a CRC
-/

namespace Gp2xKernel.Crc32

open Library
open BitVec hiding shiftLeft ushiftRight setWidth reverse
open XorLinear (shiftLeft ushiftRight setWidth reverse and_right and_xor_and)

/-! ## The register -/

/-- The register of a checksum.  Byte `k` of a word enters at a place of its own and is moved to
the place of byte `0` by the division of the `k` bytes before it. -/
structure Register where
  step : BitVec 32 → BitVec 32
  enter : ℕ → BitVec 8 → BitVec 32
  step_linear : XorLinear step
  enter_linear : ∀ k, XorLinear (enter k)
  iterate_enter : ∀ k < 4, ∀ x, step^[8 * k] (enter k x) = enter 0 x

namespace Register

variable (R : Register)

/-- One byte of the bit-by-bit loop. -/
def byteStep (c : BitVec 32) (x : BitVec 8) : BitVec 32 := R.step^[8] (c ^^^ R.enter 0 x)

/-- The bit-by-bit loop. -/
def bitwise (c : BitVec 32) (p : List (BitVec 8)) : BitVec 32 := p.foldl R.byteStep c

/-- The four bytes of a word, each at its place. -/
def word (x₀ x₁ x₂ x₃ : BitVec 8) : BitVec 32 :=
  R.enter 0 x₀ ^^^ R.enter 1 x₁ ^^^ R.enter 2 x₂ ^^^ R.enter 3 x₃

theorem bitwise_append (c : BitVec 32) (p q : List (BitVec 8)) :
    R.bitwise c (p ++ q) = R.bitwise (R.bitwise c p) q := List.foldl_append

theorem byteStep_xor (c d : BitVec 32) (x y : BitVec 8) :
    R.byteStep (c ^^^ d) (x ^^^ y) = R.byteStep c x ^^^ R.byteStep d y := by
  rw [byteStep, byteStep, byteStep, R.enter_linear, ← R.step_linear.iterate]
  ac_rfl

theorem bitwise_xor (c d : BitVec 32) {p q : List (BitVec 8)} (hlen : p.length = q.length) :
    R.bitwise (c ^^^ d) (List.zipWith (· ^^^ ·) p q) = R.bitwise c p ^^^ R.bitwise d q :=
  foldl_zipWith_xor R.byteStep_xor p q hlen c d

/-- A later byte of a word is divided as if it entered when its turn comes. -/
theorem iterate_enter_add {k : ℕ} (hk : k < 4) (n : ℕ) (x : BitVec 8) :
    R.step^[n + 8 * k] (R.enter k x) = R.step^[n] (R.enter 0 x) := by
  rw [Function.iterate_add_apply, R.iterate_enter k hk]

/-- **Four bytes at a time**: they may all enter before the first of them is divided. -/
theorem bitwise_word (c : BitVec 32) (x₀ x₁ x₂ x₃ : BitVec 8) :
    R.bitwise c [x₀, x₁, x₂, x₃] = R.step^[32] (c ^^^ R.word x₀ x₁ x₂ x₃) := by
  have h1 := R.iterate_enter_add (k := 1) (by decide) 24 x₁
  have h2 := R.iterate_enter_add (k := 2) (by decide) 16 x₂
  have h3 := R.iterate_enter_add (k := 3) (by decide) 8 x₃
  simp only [word, R.step_linear.iterate 32 _ _, h1, h2, h3]
  simp only [bitwise, List.foldl_cons, List.foldl_nil, byteStep, R.step_linear.iterate 8 _ _,
    ← Function.iterate_add_apply]
  ac_rfl

/-- The checksum itself, as a word, brings the register to zero. -/
theorem bitwise_self {c : BitVec 32} {x₀ x₁ x₂ x₃ : BitVec 8} (hc : R.word x₀ x₁ x₂ x₃ = c) :
    R.bitwise c [x₀, x₁, x₂, x₃] = 0 := by
  rw [bitwise_word, hc, BitVec.xor_self]
  exact (R.step_linear.iterate 32).map_zero

end Register

/-- The register of `crc32_le`: the least significant byte is divided first. -/
def registerLe : Register where
  step := stepLe
  enter k x := (x.setWidth 32 : BitVec 32) <<< (8 * k)
  step_linear := stepLe_linear
  enter_linear k := (shiftLeft (8 * k)).comp setWidth
  iterate_enter := by
    intro k hk
    refine XorLinear.ext
      ((stepLe_linear.iterate _).comp ((shiftLeft (8 * k)).comp setWidth))
      ((shiftLeft (8 * 0)).comp setWidth) ?_
    revert k
    decide

/-- The register of `crc32_be`: the most significant byte is divided first. -/
def registerBe : Register where
  step := stepBe
  enter k x := (x.setWidth 32 : BitVec 32) <<< (24 - 8 * k)
  step_linear := stepBe_linear
  enter_linear k := (shiftLeft (24 - 8 * k)).comp setWidth
  iterate_enter := by
    intro k hk
    refine XorLinear.ext
      ((stepBe_linear.iterate _).comp
        ((shiftLeft (24 - 8 * k)).comp setWidth))
      ((shiftLeft (24 - 8 * 0)).comp setWidth) ?_
    revert k
    decide

theorem registerLe_enter_zero (x : BitVec 8) : registerLe.enter 0 x = x.setWidth 32 :=
  shiftLeft_zero _

variable {k bits : ℕ} (c : BitVec 32) (x : BitVec 32) (x₀ x₁ x₂ x₃ : BitVec 8)

variable (p : List (BitVec 8))

theorem crc32LeBitwise_eq : crc32LeBitwise c p = registerLe.bitwise c p := by
  have hstep : (fun crc (x : BitVec 8) => stepLe^[8] (crc ^^^ x.setWidth 32)) =
      registerLe.byteStep := by
    funext crc x
    rw [Register.byteStep, registerLe_enter_zero]
    rfl
  rw [crc32LeBitwise, hstep, Register.bitwise]

theorem crc32BeBitwise_eq :
    crc32BeBitwise c p = registerBe.bitwise c p := rfl

/-! ## Look-ups -/

/-- The bits that are not divided move down. -/
theorem stepLe_iterate_split (hk : k ≤ 8) (c : BitVec 32) :
    stepLe^[k] c = (c >>> k) ^^^ stepLe^[k] (c &&& BitVec.ofNat 32 (2 ^ k - 1)) := by
  refine XorLinear.ext (stepLe_linear.iterate k) ((ushiftRight k).xor
    ((stepLe_linear.iterate k).comp (and_right _))) ?_ c
  revert k
  decide

/-- The bits that are not divided move up. -/
theorem stepBe_iterate_split (hk : k ≤ 8) (c : BitVec 32) :
    stepBe^[k] c = (c <<< k) ^^^ stepBe^[k] ((c >>> (32 - k)) <<< (32 - k)) := by
  refine XorLinear.ext (stepBe_linear.iterate k) ((shiftLeft k).xor ((stepBe_linear.iterate k).comp
      ((shiftLeft (32 - k)).comp (ushiftRight (32 - k))))) ?_ c
  revert k
  decide

/-- A look-up divides as many bits as the table is for. -/
theorem partLe_eq (hbits : bits ≤ 8) : partLe bits = stepLe^[bits] := by
  funext c
  have hpow : 2 ^ bits ≤ 2 ^ 8 := Nat.pow_le_pow_right (by decide) hbits
  have hidx : (c &&& BitVec.ofNat 32 (2 ^ bits - 1)).toNat < 2 ^ bits := by
    have hle : (c &&& BitVec.ofNat 32 (2 ^ bits - 1)).toNat ≤ 2 ^ bits - 1 := by
      rw [toNat_and, toNat_ofNat, Nat.mod_eq_of_lt (by omega)]
      exact Nat.and_le_right
    have := Nat.two_pow_pos bits
    omega
  rw [partLe, getD_crc32initLe (by omega) hidx, ofNat_toNat, setWidth_eq,
    ← stepLe_iterate_split hbits]

theorem partBe_eq (hbits : bits ≤ 8) : partBe bits = stepBe^[bits] := by
  funext c
  have hidx : (c >>> (32 - bits)).toNat < 2 ^ bits := by
    rw [toNat_ushiftRight, Nat.shiftRight_eq_div_pow]
    refine Nat.div_lt_of_lt_mul ?_
    rw [← Nat.pow_add, show 32 - bits + bits = 32 by omega]
    exact c.isLt
  rw [partBe, getD_crc32initBe (by omega) hidx, ofNat_toNat, setWidth_eq,
    ← stepBe_iterate_split hbits]

/-- The routines with tables of 16 or of 4 entries are the bit-by-bit ones. -/
theorem crc32LeParts_eq (hdvd : bits ∣ 8) (c : BitVec 32) (p : List (BitVec 8)) :
    crc32LeParts bits c p = crc32LeBitwise c p := by
  rw [crc32LeParts, partLe_eq (Nat.le_of_dvd (by decide) hdvd), ← Function.iterate_mul,
    Nat.mul_div_cancel' hdvd, crc32LeBitwise]

theorem crc32BeParts_eq (hdvd : bits ∣ 8) (c : BitVec 32) (p : List (BitVec 8)) :
    crc32BeParts bits c p = crc32BeBitwise c p := by
  rw [crc32BeParts, partBe_eq (Nat.le_of_dvd (by decide) hdvd), ← Function.iterate_mul,
    Nat.mul_div_cancel' hdvd, crc32BeBitwise]

/-! ## Byte order -/

/-- Bit `i` of a swapped word. -/
private theorem getLsbD_swab32 :
    ∀ i < 32, (swab32 x).getLsbD i = x.getLsbD (24 - 8 * (i / 8) + i % 8) := by
  intro i hi
  simp only [swab32, getLsbD_or, getLsbD_shiftLeft, getLsbD_ushiftRight, getLsbD_and]
  interval_cases i <;> simp

theorem swab32_linear : XorLinear swab32 := by
  intro x y
  refine eq_of_getLsbD_eq fun i hi => ?_
  rw [getLsbD_swab32 _ i hi, getLsbD_xor, getLsbD_xor, getLsbD_swab32 _ i hi, getLsbD_swab32 _ i hi]

theorem constantSwab32_eq : constantSwab32 x = swab32 x := by
  refine eq_of_getLsbD_eq fun i hi => ?_
  rw [getLsbD_swab32 _ i hi]
  simp only [constantSwab32, getLsbD_or, getLsbD_shiftLeft, getLsbD_ushiftRight, getLsbD_and]
  interval_cases i <;> simp

theorem swab32_swab32 : swab32 (swab32 x) = x :=
  XorLinear.ext (swab32_linear.comp swab32_linear) XorLinear.id (by decide) x

theorem swab32_ushiftRight : swab32 (x >>> 8) = swab32 x <<< 8 :=
  XorLinear.ext (swab32_linear.comp (ushiftRight 8))
    ((shiftLeft 8).comp swab32_linear) (by decide) x

theorem swab32_shiftLeft : swab32 (x <<< 8) = swab32 x >>> 8 :=
  XorLinear.ext (swab32_linear.comp (shiftLeft 8))
    ((ushiftRight 8).comp swab32_linear) (by decide) x

private theorem xor_reverse (a b c d : BitVec 32) : a ^^^ b ^^^ c ^^^ d = d ^^^ c ^^^ b ^^^ a := by
  ac_rfl

theorem registerBe_word : registerBe.word x₀ x₁ x₂ x₃ = registerLe.word x₃ x₂ x₁ x₀ := by
  rw [Register.word, xor_reverse]
  rfl

theorem swab32_enter (hk : k < 4) (x : BitVec 8) :
    swab32 (registerLe.enter k x) = registerLe.enter (3 - k) x := by
  refine XorLinear.ext (swab32_linear.comp (registerLe.enter_linear k))
    (registerLe.enter_linear (3 - k)) ?_ x
  revert k
  decide

theorem swab32_word : swab32 (registerLe.word x₀ x₁ x₂ x₃) = registerLe.word x₃ x₂ x₁ x₀ := by
  rw [Register.word, swab32_linear, swab32_linear, swab32_linear, swab32_enter (by decide),
    swab32_enter (by decide), swab32_enter (by decide), swab32_enter (by decide), xor_reverse]
  rfl

/-- The bytes of a word in the order of `store_le` make up the word. -/
theorem registerLe_word_storeLe :
    registerLe.word (c.setWidth 8) ((c >>> 8).setWidth 8) ((c >>> 16).setWidth 8)
      ((c >>> 24).setWidth 8) = c := by
  have hbyte : ∀ k n : ℕ,
      XorLinear fun c : BitVec 32 => registerLe.enter k ((c >>> n).setWidth 8) := fun k n =>
    (registerLe.enter_linear k).comp (setWidth.comp (ushiftRight n))
  exact XorLinear.ext (((((registerLe.enter_linear 0).comp setWidth).xor (hbyte 1 8)).xor
      (hbyte 2 16)).xor (hbyte 3 24)) XorLinear.id (by decide) c

theorem loadWord_little : loadWord .little x₀ x₁ x₂ x₃ = registerLe.word x₀ x₁ x₂ x₃ := by
  rw [← registerLe_word_storeLe (loadWord .little x₀ x₁ x₂ x₃)]
  -- each byte of the word that is loaded is the one at its address
  congr 1 <;>
  · refine eq_of_getLsbD_eq fun i hi => ?_
    simp only [getLsbD_setWidth, getLsbD_ushiftRight, loadWord, getLsbD_append]
    grind

/-! ## The table-driven loops -/

/-- What the table-driven code relies on: its register is that of `R` in another form, `DO_CRC`
is one byte of the division, and a word that is loaded has each byte at its place. -/
structure Layout (R : Register) (e : Endian) (conv : BitVec 32 → BitVec 32)
    (tab : List (BitVec 32)) : Prop where
  conv_linear : XorLinear conv
  conv_conv : ∀ c, conv (conv c) = c
  doCrc_conv : ∀ c x, doCrc e tab (conv c) x = conv (R.byteStep c x)
  conv_loadWord : ∀ x₀ x₁ x₂ x₃, conv (loadWord e x₀ x₁ x₂ x₃) = R.word x₀ x₁ x₂ x₃

namespace Layout

variable {R : Register} {e : Endian} {conv : BitVec 32 → BitVec 32} {tab : List (BitVec 32)}

section

variable (h : Layout R e conv tab)
include h

theorem foldl_doCrc (c : BitVec 32) (p : List (BitVec 8)) :
    p.foldl (doCrc e tab) (conv c) = conv (R.bitwise c p) := by
  induction p generalizing c with
  | nil => rfl
  | cons x p ih =>
    rw [List.foldl_cons, h.doCrc_conv]
    exact ih (R.byteStep c x)

/-- The loop up to the alignment takes some bytes from the front. -/
theorem alignLoop_eq (b : ℕ) (c : BitVec 32) (p : List (BitVec 8)) :
    ∃ front rest, p = front ++ rest ∧
      alignLoop e tab b (conv c) p = (conv (R.bitwise c front), rest) := by
  induction p generalizing b c with
  | nil => exact ⟨[], [], rfl, rfl⟩
  | cons x p ih =>
    rw [alignLoop]
    by_cases hb : b &&& 3 ≠ 0
    · obtain ⟨front, rest, rfl, heq⟩ := ih (b + 1) (R.byteStep c x)
      exact ⟨x :: front, rest, rfl, by rw [if_pos hb, h.doCrc_conv, heq]; rfl⟩
    · exact ⟨[], x :: p, rfl, by rw [if_neg hb]; rfl⟩

/-- One turn of the word loop is four turns of the byte loop. -/
theorem doCrc_word (c : BitVec 32) (x₀ x₁ x₂ x₃ : BitVec 8) :
    doCrc e tab (doCrc e tab (doCrc e tab (doCrc e tab
      (conv c ^^^ loadWord e x₀ x₁ x₂ x₃) 0) 0) 0) 0 = conv (R.bitwise c [x₀, x₁, x₂, x₃]) := by
  have hload : loadWord e x₀ x₁ x₂ x₃ = conv (R.word x₀ x₁ x₂ x₃) := by
    rw [← h.conv_loadWord, h.conv_conv]
  have hzero : R.word 0 0 0 0 = 0#32 := by
    simp [Register.word, fun k => (R.enter_linear k).map_zero]
  have hfold := h.foldl_doCrc (c ^^^ R.word x₀ x₁ x₂ x₃) [0, 0, 0, 0]
  rw [R.bitwise_word, hzero, xor_zero, h.conv_linear, ← hload] at hfold
  rw [R.bitwise_word]
  exact hfold

theorem wordLoop_eq (n : ℕ) (c : BitVec 32) (p : List (BitVec 8))
    (hn : 4 * n ≤ p.length) :
    wordLoop e tab n (conv c) p = (conv (R.bitwise c (p.take (4 * n))), p.drop (4 * n)) := by
  induction n generalizing c p with
  | zero => rfl
  | succ n ih =>
    match p, hn with
    | x₀ :: x₁ :: x₂ :: x₃ :: p, hn =>
      have hlen : 4 * n ≤ p.length := by
        simp only [List.length_cons] at hn
        omega
      rw [wordLoop]
      simp only [h.doCrc_word]
      rw [ih _ p hlen]
      rfl

/-- **The table-driven loops** divide the buffer bit by bit, at every address. -/
theorem crc32Body_eq (b : ℕ) (c : BitVec 32) (p : List (BitVec 8)) :
    crc32Body e tab b (conv c) p = conv (R.bitwise c p) := by
  obtain ⟨front, rest, rfl, halign⟩ := h.alignLoop_eq b c p
  rw [crc32Body, halign]
  by_cases hlen : rest.length ≥ 4
  · have hshift : rest.length >>> 2 = rest.length / 4 := Nat.shiftRight_eq_div_pow ..
    have hand : rest.length &&& 3 = rest.length % 4 := Nat.and_two_pow_sub_one_eq_mod _ 2
    simp only [if_pos hlen, hshift, hand, h.wordLoop_eq _ _ rest (Nat.mul_div_le _ 4)]
    -- the bytes kept for the end are those that no word took
    have hrest : (rest.drop (4 * (rest.length / 4))).take (rest.length % 4) =
        rest.drop (4 * (rest.length / 4)) :=
      List.take_of_length_le (by rw [List.length_drop]; omega)
    rw [hrest, h.foldl_doCrc, ← R.bitwise_append, ← R.bitwise_append, List.take_append_drop]
  · simp only [if_neg hlen, h.foldl_doCrc, ← R.bitwise_append]

end

end Layout

/-! ## The four layouts -/

theorem byteStep_registerLe (x : BitVec 8) :
    registerLe.byteStep c x =
      (crc32initLe 8).getD ((c ^^^ x.setWidth 32) &&& 255#32).toNat 0 ^^^ (c >>> 8) := by
  have hpart := congrFun (partLe_eq (le_refl 8)) (c ^^^ x.setWidth 32)
  have hshift : (c ^^^ x.setWidth 32) >>> 8 = c >>> 8 := by
    have hx : (x.setWidth 32 : BitVec 32) >>> 8 = 0#32 :=
      XorLinear.ext ((ushiftRight 8).comp setWidth) XorLinear.zero (by decide) x
    rw [ushiftRight_xor_distrib, hx, xor_zero]
  rw [Register.byteStep, registerLe_enter_zero, BitVec.xor_comm (List.getD ..), ← hshift]
  exact hpart.symm

theorem byteStep_registerBe (x : BitVec 8) :
    registerBe.byteStep c x =
      (crc32initBe 8).getD ((c >>> 24 ^^^ x.setWidth 32) &&& 255#32).toNat 0 ^^^ (c <<< 8) := by
  have hpart := congrFun (partBe_eq (le_refl 8)) (c ^^^ registerBe.enter 0 x)
  have hshift : (c ^^^ registerBe.enter 0 x) <<< 8 = c <<< 8 := by
    have hx : registerBe.enter 0 x <<< 8 = 0#32 :=
      XorLinear.ext ((shiftLeft 8).comp (registerBe.enter_linear 0)) XorLinear.zero (by decide) x
    rw [shiftLeft_xor_distrib, hx, xor_zero]
  have hidx : (c ^^^ registerBe.enter 0 x) >>> (32 - 8) =
      (c >>> 24 ^^^ x.setWidth 32) &&& 255#32 := by
    have hc : c >>> 24 = c >>> 24 &&& 255#32 :=
      XorLinear.ext (ushiftRight 24) ((and_right 255#32).comp (ushiftRight 24)) (by decide) c
    have hx : registerBe.enter 0 x >>> 24 = x.setWidth 32 &&& 255#32 :=
      XorLinear.ext ((ushiftRight 24).comp (registerBe.enter_linear 0))
        ((and_right 255#32).comp setWidth) (by decide) x
    calc (c ^^^ registerBe.enter 0 x) >>> 24
        = c >>> 24 ^^^ registerBe.enter 0 x >>> 24 := ushiftRight_xor_distrib ..
      _ = (c >>> 24 &&& 255#32) ^^^ (x.setWidth 32 &&& 255#32) := by rw [← hc, hx]
      _ = (c >>> 24 ^^^ x.setWidth 32) &&& 255#32 := (and_right 255#32 _ _).symm
  rw [partBe, hshift, hidx] at hpart
  rw [BitVec.xor_comm (List.getD ..)]
  exact hpart.symm

theorem swab32_top : swab32 c >>> 24 = c &&& 255#32 :=
  XorLinear.ext ((ushiftRight 24).comp swab32_linear) (and_right 255#32) (by decide) c

theorem swab32_bottom : swab32 c &&& 255#32 = c >>> 24 :=
  XorLinear.ext ((and_right 255#32).comp swab32_linear) (ushiftRight 24) (by decide) c

/-- Entries of a table with its bytes swapped. -/
private theorem getD_map_constantSwab32 (table : List (BitVec 32)) (i : ℕ) :
    (table.map constantSwab32).getD i 0 = swab32 (table.getD i 0) := by
  rw [show constantSwab32 = swab32 from funext constantSwab32_eq, List.getD_eq_getElem?_getD,
    List.getD_eq_getElem?_getD, List.getElem?_map]
  cases table[i]? with
  | none => exact swab32_linear.map_zero.symm
  | some c => rfl

theorem layoutLe : ∀ e, Layout registerLe e (cpuToLe32 e) (crc32tableLe e)
  | .little =>
    { conv_linear := XorLinear.id
      conv_conv := fun _ => rfl
      doCrc_conv := fun c x => by
        rw [cpuToLe32, cpuToLe32, byteStep_registerLe, doCrc, crc32tableLe,
          show tole .little = id from rfl, List.map_id]
      conv_loadWord := loadWord_little }
  | .big =>
    { conv_linear := swab32_linear
      conv_conv := swab32_swab32
      doCrc_conv := fun c x => by
        have hidx : (swab32 c >>> 24 ^^^ x.setWidth 32) &&& 255#32 =
            (c ^^^ x.setWidth 32) &&& 255#32 := by
          rw [swab32_top, and_xor_and]
        rw [cpuToLe32, cpuToLe32, byteStep_registerLe, swab32_linear, swab32_ushiftRight, ← hidx,
          ← getD_map_constantSwab32]
        rfl
      conv_loadWord := fun x₀ x₁ x₂ x₃ =>
        (congrArg swab32 (loadWord_little x₃ x₂ x₁ x₀)).trans (swab32_word x₃ x₂ x₁ x₀) }

theorem layoutBe : ∀ e, Layout registerBe e (cpuToBe32 e) (crc32tableBe e)
  | .little =>
    { conv_linear := swab32_linear
      conv_conv := swab32_swab32
      doCrc_conv := fun c x => by
        have hidx : (swab32 c ^^^ x.setWidth 32) &&& 255#32 =
            (c >>> 24 ^^^ x.setWidth 32) &&& 255#32 := by
          rw [← swab32_bottom, and_xor_and]
        rw [cpuToBe32, cpuToBe32, byteStep_registerBe, swab32_linear, swab32_shiftLeft, ← hidx,
          ← getD_map_constantSwab32]
        rfl
      conv_loadWord := fun x₀ x₁ x₂ x₃ =>
        ((congrArg swab32 (loadWord_little x₀ x₁ x₂ x₃)).trans (swab32_word x₀ x₁ x₂ x₃)).trans
          (registerBe_word x₀ x₁ x₂ x₃).symm }
  | .big =>
    { conv_linear := XorLinear.id
      conv_conv := fun _ => rfl
      doCrc_conv := fun c x => by
        rw [cpuToBe32, cpuToBe32, byteStep_registerBe, doCrc, crc32tableBe,
          show tobe .big = id from rfl, List.map_id]
      conv_loadWord := fun x₀ x₁ x₂ x₃ =>
        (loadWord_little x₃ x₂ x₁ x₀).trans (registerBe_word x₀ x₁ x₂ x₃).symm }

/-! ## The laws -/

theorem crc32Le_eq (e : Endian) (b : ℕ) (c : BitVec 32) (p : List (BitVec 8)) :
    crc32Le e b c p = registerLe.bitwise c p := by
  rw [crc32Le, (layoutLe e).crc32Body_eq, (layoutLe e).conv_conv]

theorem crc32Be_eq (e : Endian) (b : ℕ) (c : BitVec 32) (p : List (BitVec 8)) :
    crc32Be e b c p = registerBe.bitwise c p := by
  rw [crc32Be, (layoutBe e).crc32Body_eq, (layoutBe e).conv_conv]

/-- **The smaller tables** give the checksums of those of 256 entries. -/
theorem crc32Parts_eq (hdvd : bits ∣ 8) (e : Endian) (b : ℕ) (c : BitVec 32) (p : List (BitVec 8)) :
    crc32LeParts bits c p = crc32Le e b c p ∧ crc32BeParts bits c p = crc32Be e b c p := by
  rw [crc32LeParts_eq hdvd, crc32BeParts_eq hdvd, crc32Le_eq, crc32Be_eq]
  exact ⟨crc32LeBitwise_eq c p, crc32BeBitwise_eq c p⟩

theorem crc32Parts_eq_four : crc32LeParts 4 7#32 [1#8] = crc32Le .little 0 7#32 [1#8] :=
  (crc32Parts_eq (by decide) .little 0 7#32 [1#8]).1

/-- One bit of the division from the other end. -/
theorem stepLe_reverse : stepLe c.reverse = (stepBe c).reverse :=
  XorLinear.ext (stepLe_linear.comp reverse) (reverse.comp stepBe_linear) (by decide +kernel) c

theorem byteStep_reverse (x : BitVec 8) :
    registerLe.byteStep c.reverse x.reverse = (registerBe.byteStep c x).reverse := by
  have henter : registerLe.enter 0 x.reverse = (registerBe.enter 0 x).reverse :=
    XorLinear.ext ((registerLe.enter_linear 0).comp reverse)
      (reverse.comp (registerBe.enter_linear 0)) (by decide +kernel) x
  have hiter : Function.Semiconj BitVec.reverse stepBe^[8] stepLe^[8] :=
    Function.Semiconj.iterate_right (fun c => (stepLe_reverse c).symm) 8
  rw [Register.byteStep, henter, ← reverse]
  exact (hiter _).symm

theorem bitwise_reverse :
    registerLe.bitwise c.reverse (p.map BitVec.reverse) = (registerBe.bitwise c p).reverse := by
  induction p generalizing c with
  | nil => rfl
  | cons x p ih =>
    show registerLe.bitwise (registerLe.byteStep c.reverse x.reverse) _ = _
    rw [byteStep_reverse, ih]
    rfl

/-- **The laws of the CRC-32 routines**, on either machine and at all addresses.  The routines
with tables of 256 entries equal the bit-by-bit loops; a buffer may be given in two parts; the
checksum is linear in the seed and the buffer; the checksum of a buffer followed by its checksum
is zero; and the two routines are mirror images of each other. -/
theorem crc32_laws (e : Endian) :
    (∀ b c p, crc32Le e b c p = crc32LeBitwise c p ∧ crc32Be e b c p = crc32BeBitwise c p) ∧
    (∀ b b₁ b₂ c p q,
      crc32Le e b c (p ++ q) = crc32Le e b₂ (crc32Le e b₁ c p) q ∧
      crc32Be e b c (p ++ q) = crc32Be e b₂ (crc32Be e b₁ c p) q) ∧
    (∀ b b₁ b₂ c₁ c₂ p q, p.length = q.length →
      crc32Le e b (c₁ ^^^ c₂) (List.zipWith (· ^^^ ·) p q) =
        crc32Le e b₁ c₁ p ^^^ crc32Le e b₂ c₂ q ∧
      crc32Be e b (c₁ ^^^ c₂) (List.zipWith (· ^^^ ·) p q) =
        crc32Be e b₁ c₁ p ^^^ crc32Be e b₂ c₂ q) ∧
    (∀ b b₁ c p,
      crc32Le e b c (p ++ storeLe (crc32Le e b₁ c p)) = 0 ∧
      crc32Be e b c (p ++ storeBe (crc32Be e b₁ c p)) = 0) ∧
    (∀ b b₁ c p,
      crc32Le e b c.reverse (p.map BitVec.reverse) = (crc32Be e b₁ c p).reverse) := by
  simp only [crc32Le_eq, crc32Be_eq, crc32LeBitwise_eq, crc32BeBitwise_eq]
  refine ⟨fun _ _ _ => ⟨trivial, trivial⟩, fun _ _ _ c p q => ?_, fun _ _ _ c₁ c₂ p q hlen => ?_,
    fun _ _ c p => ?_, fun _ _ c p => bitwise_reverse c p⟩
  · exact ⟨registerLe.bitwise_append c p q, registerBe.bitwise_append c p q⟩
  · exact ⟨registerLe.bitwise_xor c₁ c₂ hlen, registerBe.bitwise_xor c₁ c₂ hlen⟩
  · rw [registerLe.bitwise_append, registerBe.bitwise_append]
    refine ⟨registerLe.bitwise_self (registerLe_word_storeLe _), registerBe.bitwise_self ?_⟩
    rw [registerBe_word, registerLe_word_storeLe]

/-- The linear law for two buffers of five bytes at addresses that differ in their alignment. -/
theorem crc32_laws_xor :
    [1#8, 2#8, 3#8, 4#8, 5#8].length = [9#8, 8#8, 7#8, 6#8, 5#8].length ∧
    crc32Le .big 0 (7#32 ^^^ 5#32)
        (List.zipWith (· ^^^ ·) [1#8, 2#8, 3#8, 4#8, 5#8] [9#8, 8#8, 7#8, 6#8, 5#8]) =
      crc32Le .big 1 7#32 [1#8, 2#8, 3#8, 4#8, 5#8] ^^^
        crc32Le .big 2 5#32 [9#8, 8#8, 7#8, 6#8, 5#8] :=
  ⟨rfl, ((crc32_laws .big).2.2.1 0 1 2 7#32 5#32 [1#8, 2#8, 3#8, 4#8, 5#8]
    [9#8, 8#8, 7#8, 6#8, 5#8] rfl).1⟩

end Gp2xKernel.Crc32
