import Gp2xKernel.Mmc.Clock

/-!
# Timeouts in jiffies

`msecs_to_jiffies` multiplies before it divides where `HZ` is 300, and wraps.  `timespec_to_jiffies`
adds two scaled products: the factors are rounded up, and what is cut off the second product is
less than one, so that the sum never falls below the number of ticks.

## Main definitions

* `msecsToJiffies`, `jiffiesToMsecs`, `timespecToJiffies`: the conversions, for each `HZ`

## Main results

* `msecsToJiffies_jiffiesToMsecs`: ticks in milliseconds and back
* `le_scaled`: the scaled products
* `toJiffies_iff`: when a timeout is not shortened
-/

namespace Gp2xKernel.Jiffies

open BitVec

/-- The values of `HZ` that the configuration offers. -/
inductive Hz
  | hz100
  | hz250
  | hz300
  | hz1000
  deriving DecidableEq

def Hz.val : Hz → BitVec 32
  | hz100 => 100
  | hz250 => 250
  | hz300 => 300
  | hz1000 => 1000

/-- `MAX_JIFFY_OFFSET`, where a `long` has 32 bits -/
def maxJiffyOffset : BitVec 32 := 0x7fffffff >>> 1 - 1

variable (hz : Hz)

/-- The branches for an `HZ` above 1000 are not compiled. -/
def msecsToJiffies (m : BitVec 32) : BitVec 32 :=
  if m.toInt < 0 then maxJiffyOffset
  else if 1000 % hz.val = 0 then (m + 1000 / hz.val - 1) / (1000 / hz.val)
  else (m * hz.val + 1000 - 1) / 1000

@[inherit_doc msecsToJiffies] def jiffiesToMsecs (j : BitVec 32) : BitVec 32 :=
  if 1000 % hz.val = 0 then 1000 / hz.val * j else j * 1000 / hz.val

/-- `SH_DIV` -/
def shDiv (nom den : BitVec 32) (lsh : ℕ) : BitVec 32 :=
  (nom / den) <<< lsh + ((nom % den) <<< lsh + den / 2) / den

/-- `ACTHZ`, with `LATCH` -/
def actHz : BitVec 32 := shDiv Mmc.clockTickRate ((Mmc.clockTickRate + hz.val / 2) / hz.val) 8

def tickNsec : BitVec 32 := shDiv 1000000000 (actHz hz) 8

/-- `SHIFT_HZ`, from 96 on -/
def shiftHz : ℕ :=
  if hz.val < 192 then 7 else if hz.val < 384 then 8 else if hz.val < 768 then 9 else 10

/-- `SEC_JIFFIE_SC` -/
def secJiffieSc : ℕ :=
  if ((4000000000 / (tickNsec hz).toNat) <<< (31 - shiftHz hz - 2)).testBit 31 then 31 - shiftHz hz
  else 32 - shiftHz hz

/-- `nom << sc`, rounded up to a multiple of the tick -/
def conversion (nom : BitVec 64) (sc : ℕ) : BitVec 32 :=
  ((nom <<< sc + (tickNsec hz).setWidth 64 - 1) / (tickNsec hz).setWidth 64).setWidth 32

def secConversion : BitVec 32 := conversion hz 1000000000 (secJiffieSc hz)

def nsecConversion : BitVec 32 := conversion hz 1 (secJiffieSc hz + 29)

def maxSecInJiffies : BitVec 32 :=
  (maxJiffyOffset.setWidth 64 * (tickNsec hz).setWidth 64 / 1000000000#64).setWidth 32

def timespecToJiffies (tvSec tvNsec : BitVec 32) : BitVec 32 :=
  let (sec, nsec) := if tvSec ≥ maxSecInJiffies hz then (maxSecInJiffies hz, 0)
    else (tvSec, tvNsec + tickNsec hz - 1)
  ((sec.setWidth 64 * (secConversion hz).setWidth 64 +
    (nsec.signExtend 64 * (nsecConversion hz).setWidth 64) >>> 29) >>> secJiffieSc hz).setWidth 32

/-- The timeout is not shortened, and no shorter timeout is longer in jiffies. -/
def MsecsKept (m : BitVec 32) : Prop :=
  (msecsToJiffies hz m = maxJiffyOffset ∨
      m.toNat * hz.val.toNat ≤ 1000 * (msecsToJiffies hz m).toNat) ∧
    ∀ m' ≤ m, msecsToJiffies hz m' ≤ msecsToJiffies hz m

/-! ## Milliseconds -/

variable {m : BitVec 32} (hm : m.toNat < 2 ^ 31)
include hm

theorem msecsToJiffies_toNat :
    (msecsToJiffies hz m).toNat = if hz = .hz300 then (m.toNat * 300 + 999) % 2 ^ 32 / 1000
      else (m.toNat * hz.val.toNat + 999) / 1000 := by
  have hneg : ¬ m.toInt < 0 := by
    rw [toInt_eq_toNat_of_lt (by omega)]
    omega
  rw [msecsToJiffies, if_neg hneg]
  cases hz with
  | hz300 =>
    rw [if_neg (by decide), if_pos rfl, add_sub_assoc]
    change (m.toNat * 300 % 2 ^ 32 + 999) % 2 ^ 32 / 1000 = _
    omega
  | _ =>
    rw [Hz.val]
    simp
    omega

theorem msecsKept_iff :
    MsecsKept hz m ↔ (hz = .hz300 → m.toNat * 300 + 999 < 2 ^ 32) := by
  constructor
  · -- a number that has wrapped is too small, and is not the largest offset
    rintro ⟨hkept, -⟩ rfl
    have hval := msecsToJiffies_toNat .hz300 hm
    rw [if_pos rfl] at hval
    rcases hkept with heq | hle
    · rw [heq] at hval
      change 1073741822 = _ at hval
      omega
    · change m.toNat * 300 ≤ _ at hle
      by_contra hwrap
      have hquot : 1 ≤ (m.toNat * 300 + 999) / 2 ^ 32 := Nat.div_pos (not_lt.mp hwrap) (by decide)
      omega
  · intro hfits
    have hval : ∀ m' : BitVec 32, m'.toNat ≤ m.toNat →
        (msecsToJiffies hz m').toNat = (m'.toNat * hz.val.toNat + 999) / 1000 := by
      intro m' hle
      rw [msecsToJiffies_toNat hz (by omega)]
      split_ifs with h300
      · have hlt : m'.toNat * 300 + 999 < 2 ^ 32 :=
          (Nat.add_le_add_right (Nat.mul_le_mul_right 300 hle) 999).trans_lt (hfits h300)
        rw [Nat.mod_eq_of_lt hlt, h300]
        rfl
      · rfl
    refine ⟨.inr ?_, fun m' hle => ?_⟩
    · rw [hval m le_rfl]
      omega
    · rw [le_def, hval m' hle, hval m le_rfl]
      exact Nat.div_le_div_right (Nat.add_le_add_right (Nat.mul_le_mul_right _ hle) _)

omit hm

/-- **Ticks in milliseconds** and back are the same number, as long as the products fit. -/
theorem msecsToJiffies_jiffiesToMsecs {j : BitVec 32} (hj : (j.toNat + 1) * 1000 ≤ 2 ^ 32) :
    msecsToJiffies hz (jiffiesToMsecs hz j) = j := by
  have hval : (jiffiesToMsecs hz j).toNat = j.toNat * 1000 / hz.val.toNat := by
    cases hz with
    | hz300 =>
      have hlt : j.toNat * 1000 < 2 ^ 32 := by omega
      exact congrArg (· / 300) (Nat.mod_eq_of_lt hlt)
    | _ =>
      change _ * j.toNat % 2 ^ 32 = _ / _
      simp [Hz.val]
      omega
  have hint : (jiffiesToMsecs hz j).toNat < 2 ^ 31 := by
    rw [hval]
    cases hz <;> simp [Hz.val] <;> omega
  apply eq_of_toNat_eq
  rw [msecsToJiffies_toNat hz hint, hval]
  cases hz with
  | hz300 =>
    -- the division cuts off less than a tick, which the other one rounds up
    have hlt : j.toNat * 1000 / 300 * 300 + 999 < 2 ^ 32 := by omega
    change (j.toNat * 1000 / 300 * 300 + 999) % 2 ^ 32 / 1000 = _
    rw [Nat.mod_eq_of_lt hlt]
    omega
  | _ =>
    simp [Hz.val]
    omega

theorem msecsToJiffies_jiffiesToMsecs_hour :
    msecsToJiffies .hz300 (jiffiesToMsecs .hz300 1080000) = 1080000 :=
  msecsToJiffies_jiffiesToMsecs .hz300 (by decide)

/-! ## Seconds and nanoseconds -/

/-- **Scaled products.**  With factors that are rounded up, the sum of the products is not below
the number of ticks. -/
theorem le_scaled {sec nsec t a b s p : ℕ} (ht : 0 < t) (ha : 1000000000 * s ≤ a * t)
    (hb : s * p ≤ b * t) (hs : 0 < s) (hp : 0 < p) :
    sec * 1000000000 + nsec ≤ (sec * a + (nsec + t - 1) * b / p) / s * t := by
  generalize hx : nsec + t - 1 = x
  generalize hn : x * b / p = n
  -- the number of ticks, rounded up
  have hkt := Nat.div_mul_le_self (sec * 1000000000 + x) t
  have hlt : _ < (sec * 1000000000 + x) / t * t + t := Nat.lt_div_mul_add ht
  generalize (sec * 1000000000 + x) / t = k at hkt hlt
  have htime : sec * 1000000000 + nsec ≤ k * t := by omega
  refine htime.trans (Nat.mul_le_mul_right t ((Nat.le_div_iff_mul_le hs).mpr ?_))
  -- what is cut off the second product is less than one
  have hcut : x * b < (n + 1) * p := Nat.lt_mul_of_div_lt (hn ▸ Nat.lt_succ_self n) hp
  have hsecond : x * s < (n + 1) * t := by
    refine Nat.lt_of_mul_lt_mul_right (a := p) ?_
    calc x * s * p = x * (s * p) := Nat.mul_assoc ..
      _ ≤ x * (b * t) := Nat.mul_le_mul_left x hb
      _ = x * b * t := (Nat.mul_assoc ..).symm
      _ < (n + 1) * p * t := Nat.mul_lt_mul_of_pos_right hcut ht
      _ = (n + 1) * t * p := Nat.mul_right_comm ..
  refine Nat.le_of_lt_succ (Nat.lt_of_mul_lt_mul_right (a := t) ?_)
  calc k * s * t = k * t * s := Nat.mul_right_comm ..
    _ ≤ (sec * 1000000000 + x) * s := Nat.mul_le_mul_right s hkt
    _ = sec * (1000000000 * s) + x * s := by rw [Nat.add_mul, Nat.mul_assoc]
    _ < sec * (a * t) + (n + 1) * t := Nat.add_lt_add_of_le_of_lt (Nat.mul_le_mul_left sec ha)
      hsecond
    _ = (sec * a + n).succ * t := by rw [← Nat.mul_assoc, ← Nat.add_mul]; rfl

theorem conversion_spec : 0 < (tickNsec hz).toNat ∧ (tickNsec hz).toNat ≤ 10000000 ∧
    1000000000 * 2 ^ secJiffieSc hz ≤ (secConversion hz).toNat * (tickNsec hz).toNat ∧
    2 ^ secJiffieSc hz * 2 ^ 29 ≤ (nsecConversion hz).toNat * (tickNsec hz).toNat ∧
    (maxSecInJiffies hz).toNat * (secConversion hz).toNat + 2 ^ 33 < 2 ^ (secJiffieSc hz + 32) ∧
    secJiffieSc hz ≤ 25 := by
  cases hz <;> decide

/-- Neither the products nor their sum overflow. -/
theorem toNat_scaled {sec x a b : BitVec 32} {s : ℕ} (hs : s ≤ 31) (hx : x.toNat < 2 ^ 31)
    (hsum : sec.toNat * a.toNat + x.toNat * b.toNat / 2 ^ 29 < 2 ^ (s + 32)) :
    (((sec.setWidth 64 * a.setWidth 64 + (x.signExtend 64 * b.setWidth 64) >>> 29) >>> s).setWidth
      32).toNat = (sec.toNat * a.toNat + x.toNat * b.toNat / 2 ^ 29) / 2 ^ s := by
  have hmsb : x.msb = false := by
    rw [msb_eq_false_iff_two_mul_lt]
    omega
  have hprod : x.toNat * b.toNat < 2 ^ 31 * 2 ^ 32 := Nat.mul_lt_mul'' hx b.isLt
  have hprod' : x.toNat * b.toNat < 2 ^ 64 := by omega
  have hpow : 2 ^ (s + 32) < 2 ^ 64 := Nat.pow_lt_pow_right one_lt_two (by omega)
  rw [signExtend_eq_setWidth_of_msb_false hmsb, toNat_setWidth, toNat_ushiftRight, toNat_add,
    toNat_ushiftRight, toNat_mul, toNat_mul]
  simp only [toNat_setWidth_of_le (by decide : 32 ≤ 64), Nat.shiftRight_eq_div_pow]
  have hlt := hsum.trans hpow
  rw [Nat.mod_eq_of_lt ((Nat.le_add_right _ _).trans_lt hlt), Nat.mod_eq_of_lt hprod',
    Nat.mod_eq_of_lt hlt]
  exact Nat.mod_eq_of_lt (Nat.div_lt_of_lt_mul (hsum.trans_eq (Nat.pow_add 2 s 32)))

/-- **Timeouts.**  For each `HZ`, a timeout in milliseconds is not shortened, and the conversion
does not decrease up to it, if and only if `HZ` is not 300 or the product fits in 32 bits; and a
time in seconds and nanoseconds is never shortened. -/
theorem toJiffies_iff :
    (∀ m : BitVec 32, m.toNat < 2 ^ 31 →
        (MsecsKept hz m ↔ (hz = .hz300 → m.toNat * 300 + 999 < 2 ^ 32))) ∧
      ∀ sec nsec : BitVec 32, sec < maxSecInJiffies hz → nsec.toNat < 1000000000 →
        sec.toNat * 1000000000 + nsec.toNat ≤
          (timespecToJiffies hz sec nsec).toNat * (tickNsec hz).toNat := by
  refine ⟨fun m => msecsKept_iff hz, fun sec nsec hsec hnsec => ?_⟩
  obtain ⟨hpos, htick, ha, hb, hmax, hsc⟩ := conversion_spec hz
  have hx : (nsec + tickNsec hz - 1).toNat = nsec.toNat + (tickNsec hz).toNat - 1 := by
    change (2 ^ 32 - 1 + _ % 2 ^ 32) % 2 ^ 32 = _
    omega
  have hfirst : sec.toNat * (secConversion hz).toNat ≤ _ := Nat.mul_le_mul_right _ (le_of_lt hsec)
  have hsecond : (nsec.toNat + (tickNsec hz).toNat - 1) * (nsecConversion hz).toNat <
      2 ^ 30 * 2 ^ 32 := Nat.mul_lt_mul'' (by omega) (nsecConversion hz).isLt
  rw [timespecToJiffies, if_neg (BitVec.not_le.mpr hsec)]
  rw [toNat_scaled (by omega) (by omega) (by rw [hx]; omega), hx]
  exact le_scaled hpos ha hb (Nat.two_pow_pos _) (Nat.two_pow_pos _)

/-- One second, and one nanosecond more. -/
theorem toJiffies_iff_second :
    MsecsKept .hz300 1000 ∧ 1 * 1000000000 + 1 ≤
      (timespecToJiffies .hz300 1 1).toNat * (tickNsec .hz300).toNat :=
  ⟨((toJiffies_iff .hz300).1 1000 (by decide)).mpr fun _ => by decide,
    (toJiffies_iff .hz300).2 1 1 (by decide) (by decide)⟩

/-- With `HZ` 300, four hours become 84 seconds. -/
theorem msecs_wrap :
    (msecsToJiffies .hz300 14400000).toNat = 25033 ∧ ¬ MsecsKept .hz300 14400000 := by
  refine ⟨by decide, ?_⟩
  rintro ⟨hkept, -⟩
  revert hkept
  decide

end Gp2xKernel.Jiffies
