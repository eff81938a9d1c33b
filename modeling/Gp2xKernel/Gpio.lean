import Mathlib.Data.BitVec
import Mathlib.Logic.Function.Basic

/-!
# The GPIO pins

`mmsp2_gpio_mode` and `mmsp2_gpio_write` change one field of a register.  The mode of pin 8 goes to
the register of the pins 0 to 7, with a shift of 16 bits, and is lost.  The data of a write is
shifted as a whole, so that its higher bits reach the pins behind.

## Main definitions

* `mmsp2GpioMode`, `mmsp2GpioWrite`: the functions, on the registers
* `View.step`: what a call is for

## Main results

* `gpio_perPin_iff`: when each call changes its pin, and no other
-/

namespace Gp2xKernel.Gpio

open BitVec Function

/-- The registers, by their address. -/
abbrev Regs := ℕ → BitVec 16

/-- `GPIOxALTFNHI` -/
def altfnHi (x : BitVec 16) : ℕ := 0xc0001020 + 0x20 + x.toNat

/-- `GPIOxALTFNLOW` -/
def altfnLow (x : BitVec 16) : ℕ := 0xc0001020 + x.toNat

/-- `GPIOxOUT` -/
def out (x : BitVec 16) : ℕ := 0xc0001060 + x.toNat

/-- `value = old & ~(mask << offset)`, then `value |= bits << offset`; the shifts are those of an
`int`. -/
def readModify (old : BitVec 16) (mask bits : BitVec 32) (offset : ℕ) : BitVec 16 :=
  let value := (old.setWidth 32 &&& ~~~(mask <<< offset)).setWidth 16
  (value.setWidth 32 ||| bits <<< offset).setWidth 16

/-- The mode of a pin; `GPIOO` is the last group. -/
def mmsp2GpioMode (r : Regs) (group pin mode : BitVec 16) : Regs :=
  if group > 0x1c then r
  else if pin > 16 then r
  else if pin > 8 then
    update r (altfnHi group)
      (readModify (r (altfnHi group)) 3 ((mode &&& 3).setWidth 32) (2 * (pin - 8)).toNat)
  else
    update r (altfnLow group)
      (readModify (r (altfnLow group)) 3 ((mode &&& 3).setWidth 32) (2 * pin).toNat)

def mmsp2GpioWrite (r : Regs) (group pin data : BitVec 16) : Regs :=
  update r (out group) (readModify (r (out group)) 1 (data.setWidth 32) pin.toNat)

/-- The groups `GPIOA` to `GPIOO` are numbered by twos. -/
def group (g : Fin 15) : BitVec 16 := .ofNat 16 (2 * g)

def pin (i : Fin 16) : BitVec 16 := .ofNat 16 i

/-- A group, and one of its pins. -/
abbrev Pin := Fin 15 × Fin 16

inductive Call
  | mode (p : Pin) (mode : BitVec 16)
  | write (p : Pin) (data : BitVec 16)

def step (r : Regs) : Call → Regs
  | .mode p mode => mmsp2GpioMode r (group p.1) (pin p.2) mode
  | .write p data => mmsp2GpioWrite r (group p.1) (pin p.2) data

/-! ## What the calls are for -/

/-- The function and the output bit of each pin. -/
abbrev View := (Pin → BitVec 2) × (Pin → Bool)

/-- A call changes its pin. -/
def View.step (v : View) : Call → View
  | .mode p mode => (update v.1 p (mode.setWidth 2), v.2)
  | .write p data => (v.1, update v.2 p (data != 0))

/-- The register with the function of a pin. -/
def altfn (p : Pin) : ℕ := if p.2.val < 8 then altfnLow (group p.1) else altfnHi (group p.1)

/-- The function of a pin: two bits of its register. -/
def field (r : Regs) (p : Pin) : BitVec 2 := (r (altfn p)).extractLsb' (2 * (p.2 % 8)) 2

def outBit (r : Regs) (p : Pin) : Bool := (r (out (group p.1))).getLsbD p.2

def view (r : Regs) : View := (field r, outBit r)

/-- The condition on a call: pin 8 has the mode already, the data is zero or odd, and the bits
behind that it would set are set. -/
def Clean (r : Regs) : Call → Prop
  | .mode p mode => p.2.val = 8 → field r p = mode.setWidth 2
  | .write p data => data.getLsbD 0 = (data != 0) ∧
      ∀ q : Pin, q.1 = p.1 → p.2 < q.2 → data.getLsbD (q.2 - p.2) = true → outBit r q = true

/-- All calls meet the condition. -/
def CleanRun (r : Regs) : List Call → Prop
  | [] => True
  | c :: calls => Clean r c ∧ CleanRun (step r c) calls

/-! ## One call -/

theorem group_spec : ∀ g : Fin 15, ¬ group g > 0x1c ∧ (group g).toNat = 2 * g := by
  decide

theorem pin_spec : ∀ i : Fin 16, ¬ pin i > 16 ∧ (pin i).toNat = i ∧
    (i.val < 8 → ¬ pin i > 8 ∧ (2 * pin i).toNat = 2 * (i % 8)) ∧
    (8 < i.val → pin i > 8 ∧ (2 * (pin i - 8)).toNat = 2 * (i % 8)) := by
  decide

/-- A bit of a register below the offset stays; the others are masked, and take new bits. -/
theorem getLsbD_readModify (old : BitVec 16) (mask bits : BitVec 32) (offset : ℕ) {i : ℕ}
    (hi : i < 16) : (readModify old mask bits offset).getLsbD i = if i < offset then old.getLsbD i
      else (old.getLsbD i && !mask.getLsbD (i - offset) || bits.getLsbD (i - offset)) := by
  split_ifs with h <;> simp [readModify, hi, h]

variable (r : Regs) (p q : Pin) (mode data : BitVec 16)

theorem altfn_eq_iff : altfn q = altfn p ↔ q.1 = p.1 ∧ (q.2.val < 8 ↔ p.2.val < 8) := by
  grind [altfn, altfnLow, altfnHi, group_spec]

theorem out_ne_altfn : out (group p.1) ≠ altfn q := by
  grind [altfn, altfnLow, altfnHi, out, group_spec]

/-- A mode is written to the two bits of its pin, unless this is pin 8. -/
theorem step_mode (hp : p.2.val ≠ 8) : step r (.mode p mode) = update r (altfn p)
    (readModify (r (altfn p)) 3 ((mode &&& 3).setWidth 32) (2 * (p.2 % 8))) := by
  obtain ⟨hpin, -, hlow, hhigh⟩ := pin_spec p.2
  rw [step, mmsp2GpioMode, if_neg (group_spec p.1).1, if_neg hpin, altfn]
  rcases lt_or_gt_of_ne hp with hlt | hgt
  · rw [if_neg (hlow hlt).1, if_pos hlt, (hlow hlt).2]
  · rw [if_pos (hhigh hgt).1, if_neg (not_lt.mpr hgt.le), (hhigh hgt).2]

/-- The mode of pin 8 is shifted out of the register. -/
theorem step_mode_eight (hp : p.2.val = 8) : step r (.mode p mode) = r := by
  rw [step, mmsp2GpioMode, if_neg (group_spec p.1).1, pin, hp]
  refine (congrArg _ (eq_of_getLsbD_eq fun i hi => ?_)).trans (update_eq_self _ r)
  exact (getLsbD_readModify _ _ _ _ hi).trans (if_pos hi)

theorem field_step (hp : p.2.val ≠ 8) :
    field (step r (.mode p mode)) = update (field r) p (mode.setWidth 2) := by
  funext q
  rw [step_mode r p mode hp]
  refine eq_of_getLsbD_eq fun j hj => ?_
  rw [field, getLsbD_extractLsb', update_apply]
  by_cases ha : altfn q = altfn p
  · have hthree (w k : ℕ) : (3#w).getLsbD k = decide (k < w ∧ k < 2) := by
      rcases k with _ | _ | k <;> simp [getLsbD_ofNat, Nat.testBit_succ]
    rw [if_pos ha, getLsbD_readModify _ _ _ _ (by omega)]
    -- the fields of two pins in one register do not meet
    grind [field, altfn_eq_iff]
  · grind [field]

theorem outBit_step : outBit (step r (.write p data)) q =
    if q.1 = p.1 ∧ p.2 ≤ q.2 then (outBit r q && decide (q ≠ p) || data.getLsbD (q.2 - p.2))
    else outBit r q := by
  rw [step, mmsp2GpioWrite, (pin_spec p.2).2.1, outBit, update_apply]
  by_cases hgroup : q.1 = p.1
  · rw [hgroup, if_pos rfl, getLsbD_readModify _ _ _ _ q.2.isLt]
    grind [outBit, Prod.ext_iff]
  · grind [outBit, out, group_spec]

/-- **One call** changes its pin and no other, if and only if it meets the condition. -/
theorem step_view_iff (c : Call) : view (step r c) = (view r).step c ↔ Clean r c := by
  cases c with
  | mode p mode =>
    have hout : outBit (step r (.mode p mode)) = outBit r := by
      funext q
      by_cases hp : p.2.val = 8
      · rw [step_mode_eight r p mode hp]
      · rw [outBit, step_mode r p mode hp, update_of_ne (out_ne_altfn q p), outBit]
    rw [view, hout, View.step, view, Prod.mk.injEq, and_iff_left rfl, Clean]
    by_cases hp : p.2.val = 8
    · rw [step_mode_eight r p mode hp, eq_update_self_iff, imp_iff_right hp]
    · exact iff_of_true (field_step r p mode hp) fun h => absurd h hp
  | write p data =>
    have hfield : field (step r (.write p data)) = field r := by
      funext q
      rw [field, step, mmsp2GpioWrite, update_of_ne (out_ne_altfn p q).symm, field]
    rw [view, hfield, View.step, view, Prod.mk.injEq, and_iff_right rfl, funext_iff]
    simp only [outBit_step, update_apply]
    constructor
    · intro h
      refine ⟨?_, fun q hgroup hlt hbit => ?_⟩
      · -- the bit of the pin itself
        grind [h p]
      · grind [h q]
    · rintro ⟨hown, hothers⟩ q
      by_cases hq : q = p
      · subst hq
        simpa using hown
      · cases hbit : data.getLsbD (q.2 - p.2) <;> grind [Prod.ext_iff]

/-! ## All calls -/

/-- **The pins.**  After each call of a sequence all pins are as they should be, if and only if all
calls meet the condition. -/
theorem gpio_perPin_iff (r : Regs) (calls : List Call) :
    (∀ n, view ((calls.take n).foldl step r) = (calls.take n).foldl View.step (view r)) ↔
      CleanRun r calls := by
  induction calls generalizing r with
  | nil => simp [CleanRun]
  | cons c calls ih =>
    rw [CleanRun, ← ih, ← step_view_iff]
    constructor
    · intro h
      have hc : view (step r c) = (view r).step c := h 1
      refine ⟨hc, fun n => ?_⟩
      rw [hc]
      exact h (n + 1)
    · rintro ⟨hc, h⟩ n
      cases n with
      | zero => rfl
      | succ n =>
        rw [List.take_succ_cons, List.foldl_cons, List.foldl_cons, ← hc]
        exact h n

/-- A mode for pin 8. -/
def modeOfPin8 : List Call := [.mode (0, ⟨8, by decide⟩) 1]

/-- Data other than zero and one, for pin 0. -/
def writeOfTwo : List Call := [.write (0, ⟨0, by decide⟩) 2]

/-- The mode of pin 8 is lost, and the data 2 sets the bit of the next pin and not that of its
own. -/
theorem gpio_spills :
    (¬∀ n, view ((modeOfPin8.take n).foldl step fun _ => 0) =
      (modeOfPin8.take n).foldl View.step (view fun _ => 0)) ∧
    ¬∀ n, view ((writeOfTwo.take n).foldl step fun _ => 0) =
      (writeOfTwo.take n).foldl View.step (view fun _ => 0) := by
  -- the field of the pin itself, and the output bit of the pin behind
  refine ⟨fun h => ?_, fun h => ?_⟩
  · exact absurd (congrFun (congrArg Prod.fst (h 1)) (0, ⟨8, by decide⟩)) (by decide)
  · exact absurd (congrFun (congrArg Prod.snd (h 1)) (0, ⟨1, by decide⟩)) (by decide)

end Gp2xKernel.Gpio
