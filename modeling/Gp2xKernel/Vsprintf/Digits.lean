import Mathlib.Data.Nat.Digits.Defs
import Gp2xKernel.Vsprintf.Basic

/-!
# The digits of a number

The routines for decimal digits divide by ten with a multiplication and a shift, and take the digits
of a value below `100000` from its hexadecimal digits.  Together with the loop for the other bases
they produce the digits of a number in its base; the turns that the loops are given are enough.

## Main results

* `putDec_eq`: `put_dec` produces the decimal digits
* `maskDigits_eq`: the loop for bases that are powers of two
* `numberDigits_eq`: the digits that `number` prints
-/

namespace Gp2xKernel.Vsprintf

open Nat

/-! ## Decimal digits -/

variable {x q d n num : ℕ} {digits : List Char}

/-- Division by ten with a multiplication and a shift. -/
theorem mul_shift_eleven (h : x < 1000) : (x * 0xcd) >>> 11 = x / 10 := by
  omega

theorem mul_shift_seven (h : x < 69) : (x * 0xd) >>> 7 = x / 10 := by
  omega

theorem digit_split {m : ℕ} (h : q = 10 * m + x) :
    x - 10 * (x / 10) = q % 10 ∧ m + x / 10 = q / 10 := by
  constructor <;> omega

/-- The digits of `q = 4096 * d + 256 * c + 16 * b + a`: each sum of hexadecimal digits is congruent
to what is left of `q` modulo ten. -/
theorem decimal_of_hex {a b c : ℕ} (hq : q = 4096 * d + 256 * c + 16 * b + a) (hlt : q < 100000)
    (ha : a < 16) (hb : b < 16) (hc : c < 16) :
    let x := 6 * (d + c + b) + a
    let y := x / 10 + 9 * d + 5 * c + b
    let z := y / 10 + 2 * c
    let w := z / 10 + 4 * d
    (x < 1000 ∧ y < 1000 ∧ z < 69 ∧ w < 1000) ∧
      (x - 10 * (x / 10) = q % 10 ∧ y - 10 * (y / 10) = q / 10 % 10 ∧
        z - 10 * (z / 10) = q / 100 % 10 ∧ w - 10 * (w / 10) = q / 1000 % 10 ∧
        w / 10 = q / 10000) ∧
      (y = 0 ↔ q / 10 = 0) ∧ (z = 0 ∧ d = 0 ↔ q / 100 = 0) ∧ (w = 0 ↔ q / 1000 = 0) := by
  intro x y z w
  have hten : q = 10 * (409 * d + 25 * c + b) + x := by omega
  obtain ⟨hx, hx'⟩ := digit_split hten
  have hhundred : q / 10 = 10 * (40 * d + 2 * c) + y := by omega
  obtain ⟨hy, hy'⟩ := digit_split hhundred
  have hthousand : q / 100 = 10 * (4 * d) + z := by omega
  obtain ⟨hz, hz'⟩ := digit_split hthousand
  have hlast : q / 1000 = 10 * 0 + w := by omega
  obtain ⟨hw, hw'⟩ := digit_split hlast
  rw [Nat.div_div_eq_div_mul, Nat.zero_add] at hw'
  have hzlt : z < 69 := by omega
  have hwlt : w < 1000 := by omega
  refine ⟨⟨by omega, by omega, hzlt, hwlt⟩, ⟨hx, hy, hz, hw, hw'⟩, ?_, ?_, ?_⟩
  · omega
  · omega
  · rw [hlast, mul_zero, zero_add]

theorem and_fifteen (x : ℕ) : x &&& 0xf = x % 16 := Nat.and_two_pow_sub_one_eq_mod x 4

/-- A value by its hexadecimal digits. -/
theorem hex_eq (q : ℕ) :
    q = 4096 * (q >>> 12) + 256 * ((q >>> 8) % 16) + 16 * ((q >>> 4) % 16) + q % 16 := by
  omega

/-- Five digits of a value below `100000`. -/
theorem putDecFull_eq (hq : q < 100000) :
    putDecFull q = [decDigit (q % 10), decDigit (q / 10 % 10), decDigit (q / 100 % 10),
      decDigit (q / 1000 % 10), decDigit (q / 10000)] := by
  obtain ⟨⟨hx, hy, hz, hw⟩, ⟨h0, h1, h2, h3, h4⟩, -⟩ := decimal_of_hex (hex_eq q) hq
    (mod_lt _ (by decide)) (mod_lt _ (by decide)) (mod_lt _ (by decide))
  rw [h4] at h3
  simp only [putDecFull, and_fifteen, mul_shift_eleven hx, mul_shift_eleven hy, mul_shift_seven hz,
    mul_shift_eleven hw, h0, h1, h2, h3, h4]

/-- The digits of a value below `100000` without leading zeros. -/
theorem putDecTrunc_eq (hq : q < 100000) :
    putDecTrunc q = decDigit (q % 10) :: if q / 10 = 0 then [] else
      decDigit (q / 10 % 10) :: if q / 100 = 0 then [] else
      decDigit (q / 100 % 10) :: if q / 1000 = 0 then [] else
      decDigit (q / 1000 % 10) :: if q / 10000 = 0 then [] else [decDigit (q / 10000)] := by
  obtain ⟨⟨hx, hy, hz, hw⟩, ⟨h0, h1, h2, h3, h4⟩, e1, e2, e3⟩ := decimal_of_hex (hex_eq q) hq
    (mod_lt _ (by decide)) (mod_lt _ (by decide)) (mod_lt _ (by decide))
  rw [h4] at h3
  simp only [putDecTrunc, and_fifteen, mul_shift_eleven hx, mul_shift_eleven hy, mul_shift_seven hz,
    mul_shift_eleven hw, h0, h1, h2, h3, h4, ne_eq, e1, e3, ← not_and_or, e2, ite_not]

theorem digits_ten (n : ℕ) :
    Nat.digits 10 n = if n = 0 then [] else n % 10 :: Nat.digits 10 (n / 10) := by
  split
  · next hn => rw [hn, digits_zero]
  · next hn => exact digits_def' (by decide) (pos_of_ne_zero hn)

theorem digits_five (n : ℕ) :
    Nat.digits 10 n = if n = 0 then [] else n % 10 :: if n / 10 = 0 then [] else
      n / 10 % 10 :: if n / 100 = 0 then [] else n / 100 % 10 :: if n / 1000 = 0 then [] else
      n / 1000 % 10 :: if n / 10000 = 0 then [] else
      n / 10000 % 10 :: Nat.digits 10 (n / 100000) := by
  rw [digits_ten n, digits_ten (n / 10), digits_ten (n / 10 / 10), digits_ten (n / 10 / 10 / 10),
    digits_ten (n / 10 / 10 / 10 / 10)]
  simp only [Nat.div_div_eq_div_mul, Nat.reduceMul]

/-- **`put_dec` produces the decimal digits.** -/
theorem putDec_eq (turns : ℕ) (hpos : num ≠ 0) (hlt : num < 100000 ^ turns) :
    putDec turns num = (Nat.digits 10 num).map decDigit := by
  induction turns generalizing num with
  | zero => omega
  | succ turns ih =>
    rw [putDec]
    split
    · next hsmall =>
      have hlast : num / 10000 % 10 = num / 10000 := by omega
      have hzero : num / 100000 = 0 := by omega
      rw [putDecTrunc_eq hsmall, digits_five, if_neg hpos, hlast, hzero, digits_zero]
      simp only [List.map_cons, apply_ite (List.map decDigit), List.map_nil]
    · next hlarge =>
      have hrest : num / 100000 < 100000 ^ turns := by
        rw [div_lt_iff_lt_mul (by decide)]
        exact hlt
      have h0 : num % 100000 % 10 = num % 10 := by omega
      have h1 : num % 100000 / 10 % 10 = num / 10 % 10 := by omega
      have h2 : num % 100000 / 100 % 10 = num / 100 % 10 := by omega
      have h3 : num % 100000 / 1000 % 10 = num / 1000 % 10 := by omega
      have h4 : num % 100000 / 10000 = num / 10000 % 10 := by omega
      rw [putDecFull_eq (mod_lt _ (by decide)), ih (by omega) hrest, digits_five num, if_neg hpos,
        if_neg (by omega), if_neg (by omega), if_neg (by omega), if_neg (by omega), h0, h1, h2,
        h3, h4]
      rfl

/-! ## Digits in a base that is a power of two -/

/-- **The loop for bases that are powers of two** produces the digits in this base. -/
theorem maskDigits_eq (digits : List Char) (shift : ℕ) (hshift : 0 < shift) (hle : shift ≤ 8)
    (turns : ℕ) (hpos : num ≠ 0) (hlt : num < 2 ^ (shift * turns)) :
    maskDigits digits (2 ^ shift - 1) shift turns num =
      (Nat.digits (2 ^ shift) num).map fun d => digits.getD d '0' := by
  have hbase : 1 < 2 ^ shift := Nat.one_lt_two_pow (by omega)
  induction turns generalizing num with
  | zero => exact absurd hlt (by rw [mul_zero, pow_zero]; omega)
  | succ turns ih =>
    have hmod : num % 2 ^ 8 &&& (2 ^ shift - 1) = num % 2 ^ shift := by
      rw [and_two_pow_sub_one_eq_mod, mod_mod_of_dvd _ (pow_dvd_pow 2 hle)]
    rw [maskDigits, hmod, digits_def' hbase (pos_of_ne_zero hpos), shiftRight_eq_div_pow]
    congr 1
    split
    · next hrest =>
      refine ih hrest ?_
      rw [Nat.div_lt_iff_lt_mul (Nat.two_pow_pos _), ← Nat.pow_add]
      exact hlt
    · next hrest => rw [not_not.mp hrest, digits_zero, List.map_nil]

/-- The number of a base. -/
def Base.value : Base → ℕ
  | .oct => 8
  | .dec => 10
  | .hex => 16

theorem decDigit_eq (hdigits : digits = smallDigits ∨ digits = largeDigits)
    (hd : d < 10) : decDigit d = digits.getD d '0' := by
  have hall :
      ∀ d < 10, decDigit d = smallDigits.getD d '0' ∧ decDigit d = largeDigits.getD d '0' := by
    decide
  rcases hdigits with rfl | rfl
  · exact (hall d hd).1
  · exact (hall d hd).2

/-- **The digits that `number` prints** are those of the number, the least significant one first. -/
theorem numberDigits_eq {num : BitVec 64} (hpos : num ≠ 0) (base : Base)
    (hdigits : digits = smallDigits ∨ digits = largeDigits) :
    numberDigits num base digits =
      (Nat.digits base.value num.toNat).map fun d => digits.getD d '0' := by
  have hne : num.toNat ≠ 0 := fun heq => hpos (BitVec.eq_of_toNat_eq heq)
  unfold numberDigits
  rw [if_neg hpos]
  cases base with
  | oct => exact maskDigits_eq digits 3 (by decide) (by decide) 64 hne (by omega)
  | hex => exact maskDigits_eq digits 4 (by decide) (by decide) 64 hne (by omega)
  | dec =>
    rw [putDec_eq 4 hne (by omega)]
    refine List.map_congr_left fun d hd => ?_
    exact decDigit_eq hdigits (digits_lt_base (by decide) hd)

theorem numberDigits_eq_hex : numberDigits 255 .hex smallDigits = ['f', 'f'] := by
  rw [numberDigits_eq (by decide) .hex (.inl rfl)]
  simp [Base.value, smallDigits]

end Gp2xKernel.Vsprintf
