import Gp2xKernel.Bootmem.Basic

/-!
# The search for free pages

The loops over the bits of a node, and the scan of the allocator, which comes to an end and finds
pages that are free.

## Main results

* `setBits_apply`, `claimBits_eq`, `clearBits_eq`: what the loops do
* `scan_spec`: the scan finds free pages below its end
* `search_spec`: so does the search, which scans at most twice
-/

namespace Gp2xKernel.Bootmem

open Function Nat

variable {c : Config} {map : ℕ → Bool} {n i j eidx incr : ℕ}

/-! ## Words -/

namespace Config

theorem word_eq {x : ℕ} (h : x < 2 ^ c.bits) : c.word x = x := Nat.mod_eq_of_lt h

theorem sub_eq {x y : ℕ} (hy : y ≤ x) (hx : x < 2 ^ c.bits) : c.sub x y = x - y := by
  have heq : x + 2 ^ c.bits - y = x - y + 2 ^ c.bits := by omega
  rw [sub, word, heq, add_mod_right, mod_eq_of_lt (by omega)]

theorem pageSize_pos : 0 < c.pageSize := Nat.two_pow_pos _

/-- Words are made up of pages. -/
theorem pageSize_mul : 2 ^ (c.bits - c.pageShift) * c.pageSize = 2 ^ c.bits := by
  rw [pageSize, ← pow_add, Nat.sub_add_cancel c.lt.le]

theorem two_mul_le : 2 * 2 ^ (c.bits - c.pageShift) ≤ 2 ^ c.bits := by
  have hpos := c.pos
  have htwo : 2 ^ 1 ≤ c.pageSize := Nat.pow_le_pow_right (by decide) hpos
  calc 2 * 2 ^ (c.bits - c.pageShift) = 2 ^ (c.bits - c.pageShift) * 2 ^ 1 := mul_comm ..
    _ ≤ 2 ^ (c.bits - c.pageShift) * c.pageSize := mul_le_mul_left _ htwo
    _ = 2 ^ c.bits := c.pageSize_mul

theorem two_mul_pageSize_le : 2 * c.pageSize ≤ 2 ^ c.bits := by
  have hone : 2 ^ 1 ≤ 2 ^ (c.bits - c.pageShift) :=
    Nat.pow_le_pow_right (by decide) (Nat.sub_pos_of_lt c.lt)
  calc 2 * c.pageSize ≤ 2 ^ (c.bits - c.pageShift) * c.pageSize := mul_le_mul_right _ hone
    _ = 2 ^ c.bits := c.pageSize_mul

/-- A number is rounded up to a multiple. -/
theorem align_spec {x a : ℕ} (ha : 0 < a) (hx : x + a ≤ 2 ^ c.bits) :
    x ≤ c.align x a ∧ c.align x a < x + a ∧ a ∣ c.align x a := by
  have hdiv := div_add_mod (x + a - 1) a
  have hmod := mod_lt (x + a - 1) ha
  rw [mul_comm] at hdiv
  rw [align, c.word_eq (by omega)]
  exact ⟨by omega, by omega, dvd_mul_left _ _⟩

end Config

/-! ## Loops over bits -/

/-- A bit that is written, and the bits behind it. -/
theorem ite_update_eq (map : ℕ → Bool) (v : Bool) (n i j : ℕ) :
    (if i + 1 ≤ j ∧ j < i + 1 + n then v else update map i v j) =
      if i ≤ j ∧ j < i + (n + 1) then v else map j := by
  by_cases hj : j = i
  · rw [hj, if_neg (by omega), update_self, if_pos (by omega)]
  · rw [update_of_ne hj]
    exact if_congr (by omega) rfl rfl

theorem setBits_apply (map : ℕ → Bool) (n i j : ℕ) :
    setBits map n i j = if i ≤ j ∧ j < i + n then true else map j := by
  induction n generalizing map i with
  | zero => rw [setBits, if_neg (by omega)]
  | succ n ih =>
    rw [setBits, ih, ite_update_eq]

theorem claimBits_eq (hfree : ∀ j, i ≤ j → j < i + n → map j = false) :
    claimBits map n i = some (setBits map n i) := by
  induction n generalizing map i with
  | zero => rfl
  | succ n ih =>
    rw [claimBits, hfree i le_rfl (by omega)]
    refine ih fun j hlo hhi => ?_
    rw [update_of_ne (by omega)]
    exact hfree j (by omega) (by omega)

theorem clearBits_eq (hset : ∀ j, i ≤ j → j < i + n → map j = true) :
    ∃ map', clearBits map n i = some map' ∧
      ∀ j, map' j = if i ≤ j ∧ j < i + n then false else map j := by
  induction n generalizing map i with
  | zero => exact ⟨map, rfl, fun j => by rw [if_neg (by omega)]⟩
  | succ n ih =>
    obtain ⟨map', hclear, hmap'⟩ := @ih (update map i false) (i + 1) fun j hlo hhi => by
      rw [update_of_ne (by omega)]
      exact hset j (by omega) (by omega)
    refine ⟨map', ?_, fun j => ?_⟩
    · rw [clearBits, hset i le_rfl (by omega)]
      exact hclear
    · rw [hmap', ite_update_eq]

theorem nextZeroBit_bounds (map : ℕ → Bool) (n i : ℕ) :
    i ≤ nextZeroBit map n i ∧ nextZeroBit map n i ≤ i + n := by
  induction n generalizing i with
  | zero => exact ⟨le_rfl, le_rfl⟩
  | succ n ih =>
    have hnext := ih (i + 1)
    rw [nextZeroBit]
    split_ifs <;> omega

theorem findNextZeroBit_bounds (map : ℕ → Bool) (h : i < eidx) :
    i ≤ findNextZeroBit map eidx i ∧ findNextZeroBit map eidx i ≤ eidx := by
  have hbounds := nextZeroBit_bounds map (eidx - i) i
  rw [findNextZeroBit, if_neg (by omega)]
  omega

/-! ## The scan -/

/-- The `n` pages from page `j` on are free and below `eidx`. -/
def FreePages (map : ℕ → Bool) (eidx n j : ℕ) : Prop :=
  ∀ k, j ≤ k → k < j + n → k < eidx ∧ map k = false

theorem failBlock_none (h : failBlock map eidx n j = none) : FreePages map eidx n j := by
  induction n generalizing j with
  | zero => exact fun k hlo hhi => absurd hhi (by omega)
  | succ n ih =>
    rw [failBlock] at h
    split_ifs at h with hfail
    intro k hlo hhi
    rcases eq_or_lt_of_le hlo with rfl | hlt
    · simp only [not_or, not_le, Bool.not_eq_true] at hfail
      exact hfail
    · exact ih h k hlt (by omega)

theorem failBlock_some (h : failBlock map eidx n j = some i) (hj : j ≤ eidx) :
    j ≤ i ∧ i ≤ eidx := by
  induction n generalizing j with
  | zero => cases h
  | succ n ih =>
    rw [failBlock] at h
    split_ifs at h with hfail
    · obtain rfl := Option.some.inj h
      exact ⟨le_rfl, hj⟩
    · have hnext := ih h (by omega)
      omega

/-- What the scan may find: pages from `start` on that are free. -/
def Finds (map : ℕ → Bool) (eidx incr areasize : ℕ) (out : Option ℕ) : Prop :=
  ∀ start, out = some start → incr ∣ start ∧ start < eidx ∧ map start = false ∧
    FreePages map eidx areasize start

/-- **The scan comes to an end**, and finds free pages. -/
theorem scan_spec (map : ℕ → Bool) (areasize : ℕ) (hincr : 0 < incr)
    (hwrap : eidx + 2 * incr ≤ 2 ^ c.bits) (i : ℕ) :
    ∃ out, (∀ turns, eidx - i ≤ turns → scan c map eidx incr areasize turns i = some out) ∧
      Finds map eidx incr areasize out := by
  -- every turn goes on from a page further up
  induction hd : eidx - i using Nat.strong_induction_on generalizing i with
  | _ d ih =>
    subst hd
    have hnone : Finds map eidx incr areasize none := fun start h => by cases h
    by_cases hlt : i < eidx
    · obtain ⟨hflo, hfhi⟩ := findNextZeroBit_bounds map hlt
      obtain ⟨halo, hahi, hadvd⟩ := c.align_spec hincr
        (show findNextZeroBit map eidx i + incr ≤ 2 ^ c.bits by omega)
      generalize hpage : c.align (findNextZeroBit map eidx i) incr = page at halo hahi hadvd
      -- there is a turn to take
      suffices hturn : ∃ out, (∀ turns, eidx - i ≤ turns + 1 →
          scan c map eidx incr areasize (turns + 1) i = some out) ∧
            Finds map eidx incr areasize out by
        obtain ⟨out, hout, hfinds⟩ := hturn
        refine ⟨out, fun turns hturns => ?_, hfinds⟩
        obtain ⟨t, rfl⟩ : ∃ t, turns = t + 1 := ⟨turns - 1, by omega⟩
        exact hout t hturns
      simp only [scan, if_pos hlt, hpage]
      by_cases hpast : page ≥ eidx
      · exact ⟨none, fun turns _ => if_pos hpast, hnone⟩
      by_cases hset : map page = true
      · obtain ⟨out, hout, hfinds⟩ := ih (eidx - (page + incr)) (by omega) (page + incr) rfl
        refine ⟨out, fun turns hturns => ?_, hfinds⟩
        rw [if_neg hpast, if_pos hset, c.word_eq (by omega)]
        exact hout turns (by omega)
      simp only [if_neg hpast, if_neg hset]
      cases hblock : failBlock map eidx (areasize - 1) (page + 1) with
      | none =>
        refine ⟨some page, fun turns _ => rfl, fun start hstart => ?_⟩
        obtain rfl := Option.some.inj hstart
        have hclear : map page = false := by simpa using hset
        refine ⟨hadvd, not_le.mp hpast, hclear, fun k hlo hhi => ?_⟩
        rcases eq_or_lt_of_le hlo with rfl | hk
        · exact ⟨not_le.mp hpast, hclear⟩
        · exact failBlock_none hblock k hk (by omega)
      | some j =>
        obtain ⟨hjlo, hjhi⟩ := failBlock_some hblock (by omega)
        obtain ⟨hblo, hbhi, -⟩ := c.align_spec hincr (show j + incr ≤ 2 ^ c.bits by omega)
        obtain ⟨out, hout, hfinds⟩ := ih (eidx - (c.align j incr + incr)) (by omega) _ rfl
        refine ⟨out, fun turns hturns => ?_, hfinds⟩
        dsimp only
        rw [c.word_eq (by omega)]
        exact hout turns (by omega)
    · refine ⟨none, fun turns _ => ?_, hnone⟩
      unfold scan
      rw [if_neg hlt]

/-- **The search comes to an end**, and finds free pages. -/
theorem search_spec (map : ℕ → Bool) (areasize : ℕ) (hincr : 0 < incr)
    (hwrap : eidx + 2 * incr ≤ 2 ^ c.bits) (preferred offset : ℕ) :
    ∃ out, (∀ turns, eidx ≤ turns →
        search c map eidx incr areasize turns preferred offset = some out) ∧
      Finds map eidx incr areasize out := by
  obtain ⟨first, hfirst, hfinds⟩ := scan_spec map areasize hincr hwrap preferred
  obtain ⟨second, hsecond, hfinds'⟩ := scan_spec map areasize hincr hwrap offset
  by_cases hagain : first.isNone = true ∧ preferred > offset
  · refine ⟨second, fun turns hturns => ?_, hfinds'⟩
    rw [search, hfirst turns (by omega), Option.bind_some, if_pos hagain, hsecond turns (by omega)]
  · refine ⟨first, fun turns hturns => ?_, hfinds⟩
    rw [search, hfirst turns (by omega), Option.bind_some, if_neg hagain]

end Gp2xKernel.Bootmem
