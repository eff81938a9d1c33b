import Mathlib.Algebra.Order.Field.Rat
import Mathlib.Data.BitVec
import Mathlib.Tactic.NormNum

/-!
# The clock of the SD bus

`mmsp2_mmc_set_ios` divides the peripheral clock by a prescaler.  It rounds the quotient down, so
that the bus is too fast unless the clock that is asked for divides the peripheral clock.

## Main definitions

* `calcClk`, `mmsp2GetPclk`: the clock, from the registers of the PLL
* `setClock`: what `mmsp2_mmc_set_ios` writes to `SDIPRE`

## Main results

* `busClock_le_iff`: when the bus is not faster than asked for
-/

namespace Gp2xKernel.Mmc

open BitVec

/-- `/` on unsigned numbers of 32 bits -/
def udiv32 (a b : BitVec 32) : Option (BitVec 32) := if b = 0 then none else some (a / b)

/-- `CLOCK_TICK_RATE` -/
def clockTickRate : BitVec 32 := 7372800

def getMdiv (x : BitVec 16) : BitVec 32 := ((x &&& 0xff00) >>> 8).setWidth 32

def getPdiv (x : BitVec 16) : BitVec 32 := ((x &&& 0x00fc) >>> 2).setWidth 32

def getSdiv (x : BitVec 16) : BitVec 32 := (x &&& 0x0003).setWidth 32

/-- `GET_DDIV`, of `SYSCSETREG` -/
def getDdiv (syscset : BitVec 16) : BitVec 32 := (syscset.setWidth 32 &&& 0x01f000) >>> 6

def calcClk (v : BitVec 16) : Option (BitVec 32) :=
  udiv32 ((getMdiv v + 8) * clockTickRate) ((getPdiv v + 2) * (1#32 <<< getSdiv v))

/-- `mmsp2_get_pclk`, of `FPLLVSETREG` and `SYSCSETREG`; the quotient `d` is not used. -/
def mmsp2GetPclk (fpll syscset : BitVec 16) : Option (BitVec 32) := do
  let c ← calcClk fpll
  let _d ← udiv32 c (getDdiv syscset - 1)
  let b ← udiv32 c 2
  udiv32 b 2

/-- `mmc->f_max`, in `mmsp2_mmc_probe` -/
def fMax (pclk : BitVec 32) : BitVec 32 := pclk

/-- `mmc->f_min` -/
def fMin (pclk : BitVec 32) : BitVec 32 := fMax pclk / (256 + 1)

/-- The clock part of `mmsp2_mmc_set_ios`: the value written to the 16 bits of `SDIPRE`, if the
clock is not zero and changes. -/
def setClock (fpll syscset : BitVec 16) (hostClock clock : BitVec 32) :
    Option (Option (BitVec 16)) :=
  if clock ≠ 0 ∧ clock ≠ hostClock then do
    let pclk ← mmsp2GetPclk fpll syscset
    let q ← udiv32 pclk clock
    some (some ((q - 1).setWidth 16))
  else some none

/-- What is written fits in 8 bits, and the bus is not faster than asked for. -/
def NotFaster (fpll syscset : BitVec 16) (pclk hostClock clock : BitVec 32) : Prop :=
  ∃ written, setClock fpll syscset hostClock clock = some written ∧
    ∀ pre ∈ written, pre.toNat < 2 ^ 8 ∧ (pclk.toNat : ℚ) / (pre.toNat + 1) ≤ clock.toNat

theorem toNat_div_le (v mask : BitVec 16) (k : ℕ) :
    (((v &&& mask) >>> k).setWidth 32).toNat ≤ mask.toNat >>> k := by
  rw [toNat_setWidth_of_le (by decide), toNat_ushiftRight, Nat.shiftRight_eq_div_pow,
    Nat.shiftRight_eq_div_pow]
  exact Nat.div_le_div_right Nat.and_le_right

/-- Neither the numerator nor the denominator of a clock overflows. -/
theorem calcClk_spec (v : BitVec 16) : ∃ c, calcClk v = some c ∧ 113427 ≤ c.toNat := by
  have hm : (getMdiv v).toNat ≤ 255 := toNat_div_le v 0xff00 8
  have hp : (getPdiv v).toNat ≤ 63 := toNat_div_le v 0x00fc 2
  have hs : (getSdiv v).toNat ≤ 3 := toNat_div_le v 0x0003 0
  have hnum : ((getMdiv v + 8) * clockTickRate).toNat = ((getMdiv v).toNat + 8) * 7372800 := by
    rw [toNat_mul]
    change ((getMdiv v).toNat + 8) % 2 ^ 32 * 7372800 % 2 ^ 32 = _
    omega
  have hpow : 2 ^ (getSdiv v).toNat ≤ 2 ^ 3 := Nat.pow_le_pow_right two_pos hs
  have hshift : (1#32 <<< getSdiv v).toNat = 2 ^ (getSdiv v).toNat := by
    rw [shiftLeft_eq', toNat_shiftLeft, Nat.shiftLeft_eq, toNat_ofNat]
    omega
  have hprod : ((getPdiv v).toNat + 2) * 2 ^ (getSdiv v).toNat ≤ 65 * 2 ^ 3 :=
    Nat.mul_le_mul (by omega) hpow
  have hden : ((getPdiv v + 2) * (1#32 <<< getSdiv v)).toNat =
      ((getPdiv v).toNat + 2) * 2 ^ (getSdiv v).toNat := by
    rw [toNat_mul, hshift]
    change ((getPdiv v).toNat + 2) % 2 ^ 32 * _ % 2 ^ 32 = _
    rw [Nat.mod_eq_of_lt (by omega : (getPdiv v).toNat + 2 < 2 ^ 32), Nat.mod_eq_of_lt (by omega)]
  have hpos : 0 < ((getPdiv v).toNat + 2) * 2 ^ (getSdiv v).toNat :=
    Nat.mul_pos (by omega) (Nat.two_pow_pos _)
  refine ⟨_, if_neg fun h => ?_, ?_⟩
  · rw [h] at hden
    exact hpos.ne hden
  · rw [toNat_udiv, hden, Nat.le_div_iff_mul_le hpos]
    omega

/-- The peripheral clock can be computed. -/
theorem mmsp2GetPclk_spec (fpll syscset : BitVec 16) :
    ∃ pclk, mmsp2GetPclk fpll syscset = some pclk ∧ 28356 ≤ pclk.toNat := by
  obtain ⟨c, hc, hle⟩ := calcClk_spec fpll
  have hd : getDdiv syscset - 1 ≠ 0 := by
    intro h
    have heq : getDdiv syscset = 1 := sub_eq_zero.mp h
    have hbit := congrArg (getLsbD · 0) heq
    simp [getDdiv] at hbit
  refine ⟨c / 2 / 2, ?_, ?_⟩
  · rw [mmsp2GetPclk, hc, Option.bind_eq_bind, Option.bind_some, udiv32, if_neg hd]
    rfl
  · change 28356 ≤ c.toNat / 2 / 2
    omega

/-- **The clock of the bus.**  The peripheral clock is computed without a division by zero, and for
a clock within the limits the bus is not faster than asked for if and only if nothing is written
or the clock divides the peripheral clock, at most 256 times. -/
theorem busClock_le_iff (fpll syscset : BitVec 16) :
    ∃ pclk, mmsp2GetPclk fpll syscset = some pclk ∧ ∀ hostClock clock,
      fMin pclk ≤ clock → clock ≤ fMax pclk → (NotFaster fpll syscset pclk hostClock clock ↔
        clock = hostClock ∨ clock.toNat ∣ pclk.toNat ∧ pclk.toNat / clock.toNat ≤ 256) := by
  obtain ⟨pclk, hpclk, hbig⟩ := mmsp2GetPclk_spec fpll syscset
  refine ⟨pclk, hpclk, fun hostClock clock hmin hmax => ?_⟩
  change pclk.toNat / 257 ≤ clock.toNat at hmin
  have hne : clock ≠ 0 := by
    rintro rfl
    change pclk.toNat / 257 ≤ 0 at hmin
    omega
  by_cases hsame : clock = hostClock
  · refine iff_of_true ⟨none, if_neg fun h => h.2 hsame, ?_⟩ (.inl hsame)
    simp
  · have hset : setClock fpll syscset hostClock clock =
        some (some ((pclk / clock - 1).setWidth 16)) := by
      rw [setClock, if_pos ⟨hne, hsame⟩, hpclk, Option.bind_eq_bind, Option.bind_some, udiv32,
        if_neg hne]
      rfl
    have hpos : 0 < clock.toNat := by omega
    have hq : 1 ≤ pclk.toNat / clock.toNat := Nat.div_pos hmax hpos
    have hq' : pclk.toNat / clock.toNat < 2 ^ 9 := by
      refine Nat.div_lt_of_lt_mul ?_
      omega
    have hpre : ((pclk / clock - 1).setWidth 16).toNat = pclk.toNat / clock.toNat - 1 := by
      change (2 ^ 32 - 1 + pclk.toNat / clock.toNat) % 2 ^ 32 % 2 ^ 16 = _
      omega
    rw [NotFaster, hset, or_iff_right hsame]
    simp only [Option.some.injEq, exists_eq_left', Option.mem_some_iff, forall_eq', hpre]
    have hrat : (pclk.toNat : ℚ) / ((pclk.toNat / clock.toNat - 1 : ℕ) + 1) ≤ clock.toNat ↔
        clock.toNat ∣ pclk.toNat := by
      rw [div_le_iff₀ (Nat.cast_add_one_pos _)]
      norm_cast
      rw [Nat.sub_add_cancel hq]
      have := Nat.div_add_mod pclk.toNat clock.toNat
      constructor <;> intro h <;> omega
    rw [hrat, @And.comm (_ < _)]
    exact and_congr_right fun _ => by omega

/-- The bus can run at the peripheral clock itself. -/
theorem busClock_le_iff_pclk : fMin 7372800 ≤ 7372800 ∧ NotFaster 0 0 7372800 0 7372800 := by
  have hpclk : mmsp2GetPclk 0 0 = some 7372800 := by decide
  obtain ⟨pclk, heq, h⟩ := busClock_le_iff 0 0
  obtain rfl := Option.some.inj (hpclk.symm.trans heq)
  exact ⟨by decide, (h 0 7372800 (by decide) (by decide)).mpr (.inr (by decide))⟩

/-- With the PLL register 0 the clock is 7372800 Hz; a card is asked to run at 400000 Hz and gets
409600 Hz. -/
theorem busClock_too_fast :
    mmsp2GetPclk 0 0 = some 7372800 ∧ fMin 7372800 ≤ 400000 ∧ 400000 ≤ fMax 7372800 ∧
      setClock 0 0 0 400000 = some (some 17) ∧ ¬ NotFaster 0 0 7372800 0 400000 := by
  have hset : setClock 0 0 0 400000 = some (some 17) := by decide
  refine ⟨by decide, by decide, by decide, hset, ?_⟩
  rintro ⟨written, hwritten, h⟩
  obtain rfl := Option.some.inj (hset.symm.trans hwritten)
  have hle : ((7372800 : ℕ) : ℚ) / ((17 : ℕ) + 1) ≤ (400000 : ℕ) := (h 17 rfl).2
  norm_num at hle

end Gp2xKernel.Mmc
