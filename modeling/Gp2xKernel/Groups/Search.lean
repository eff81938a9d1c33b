import Gp2xKernel.Groups.Basic

/-!
# The search for a group

The search takes the sign of a difference of 32 bits for the order of two ids.  The two agree for
ids that are less than half of the range apart, and only the first comparison, the one with the
middle of the sorted ids, can go wrong alone: the ids on either side of it are closer to each other
than to it.

## Main definitions

* `Decides`: the ids are sorted, and the search finds exactly them
* `Near`, `middle`: the ids are within half of the range of the middle one

## Main results

* `decides_iff`: the search is right exactly for ids within half of the range of the middle one
-/

namespace Gp2xKernel.Groups

open BitVec Nat

variable {perBlock : ℕ} {blocks : Blocks} {x : BitVec 32}

/-! ## The sign of a difference -/

/-- The sign of the difference of `x` and `y` is that of their order. -/
def Near (x y : BitVec 32) : Prop :=
  x.toNat < y.toNat + 2 ^ 31 ∧ y.toNat ≤ x.toNat + 2 ^ 31

instance (x y : BitVec 32) : Decidable (Near x y) :=
  inferInstanceAs (Decidable (_ ∧ _))

theorem toInt_sub_pos_iff (x y : BitVec 32) : 0 < (x - y).toInt ↔
    y.toNat < x.toNat ∧ x.toNat < y.toNat + 2 ^ 31 ∨ x.toNat + 2 ^ 31 < y.toNat := by
  rw [toInt_eq_toNat_cond, toNat_sub]
  split_ifs <;> omega

theorem toInt_sub_neg_iff (x y : BitVec 32) : (x - y).toInt < 0 ↔
    x.toNat < y.toNat ∧ y.toNat ≤ x.toNat + 2 ^ 31 ∨ y.toNat + 2 ^ 31 ≤ x.toNat := by
  rw [toInt_eq_toNat_cond, toNat_sub]
  split_ifs <;> omega

/-! ## The loop -/

variable {turns left right : ℕ}

/-- An id that is not in the window is not found. -/
theorem searchLoop_ne_one (hne : ∀ k, left ≤ k → k < right → groupAt perBlock blocks k ≠ x) :
    searchLoop perBlock blocks x turns left right ≠ 1 := by
  induction turns generalizing left right with
  | zero => exact zero_ne_one
  | succ turns ih =>
    rw [searchLoop]
    split_ifs with hlt hpos hneg
    · exact ih fun k hk => hne k (by omega)
    · exact ih fun k hk hk' => hne k hk (by omega)
    · -- a difference that is zero is one of equal ids
      intro _
      have hmid := hne ((left + right) / 2) (by omega) (by omega)
      apply hmid
      rw [toInt_sub_pos_iff] at hpos
      rw [toInt_sub_neg_iff] at hneg
      apply eq_of_toNat_eq
      omega
    · exact zero_ne_one

/-- An id in the window is found, if every comparison with the window goes the right way. -/
theorem searchLoop_eq_one {i : ℕ} (hturns : right - left < turns)
    (hsorted : SortedTo (groupAt perBlock blocks) right)
    (hnear : ∀ k, left ≤ k → k < right → Near x (groupAt perBlock blocks k)) (hleft : left ≤ i)
    (hright : i < right) (hi : groupAt perBlock blocks i = x) :
    searchLoop perBlock blocks x turns left right = 1 := by
  induction turns generalizing left right with
  | zero => omega
  | succ turns ih =>
    obtain ⟨hlow, hhigh⟩ := hnear ((left + right) / 2) (by omega) (by omega)
    rw [searchLoop, if_pos (by omega)]
    split_ifs with hpos hneg
    · rw [toInt_sub_pos_iff] at hpos
      refine ih (by omega) hsorted (fun k hk => hnear k (by omega)) ?_ hright
      by_contra hle
      rcases lt_or_eq_of_le (show i ≤ (left + right) / 2 by omega) with hlt | heq
      · have hord := hsorted i _ hlt (by omega)
        rw [hi, le_def] at hord
        omega
      · rw [← heq, hi] at hpos
        omega
    · rw [toInt_sub_neg_iff] at hneg
      refine ih (by omega) (fun i k hik hk => hsorted i k hik (by omega))
        (fun k hk hk' => hnear k hk (by omega)) hleft ?_
      by_contra hle
      rcases lt_or_eq_of_le (show (left + right) / 2 ≤ i by omega) with hlt | heq
      · have hord := hsorted _ i hlt hright
        rw [hi, le_def] at hord
        omega
      · rw [heq, hi] at hneg
        omega
    · rfl

section Whole

variable {n : ℕ} (hsorted : SortedTo (groupAt perBlock blocks) n)

include hsorted

variable {i turns : ℕ}

theorem groupAt_le {k : ℕ} (hik : i ≤ k) (hk : k < n) :
    (groupAt perBlock blocks i).toNat ≤ (groupAt perBlock blocks k).toNat := by
  rcases lt_or_eq_of_le hik with hlt | rfl
  · exact le_def.mp (hsorted i k hlt hk)
  · exact le_refl _

/-- The first comparison goes the wrong way: the rest of the search is on the wrong side. -/
theorem searchLoop_ne_one_of_not_near (hn : 0 < n)
    (hfar : ¬ Near x (groupAt perBlock blocks (n / 2))) :
    searchLoop perBlock blocks x (turns + 1) 0 n ≠ 1 := by
  rw [Near] at hfar
  rw [searchLoop, zero_add]
  split_ifs with hpos hneg
  · rw [toInt_sub_pos_iff] at hpos
    apply searchLoop_ne_one
    intro k hk hk' heq
    have hle := groupAt_le hsorted (show n / 2 ≤ k by omega) hk'
    rw [heq] at hle
    omega
  · rw [toInt_sub_neg_iff] at hneg
    apply searchLoop_ne_one
    intro k _ hk heq
    have hle := groupAt_le hsorted (le_of_lt hk) (by omega)
    rw [heq] at hle
    omega
  · rw [toInt_sub_pos_iff] at hpos
    rw [toInt_sub_neg_iff] at hneg
    omega

/-- With all ids near the middle one, every later comparison goes the right way, too. -/
theorem searchLoop_eq_one_of_near (hturns : n < turns) (hlt : i < n)
    (hi : groupAt perBlock blocks i = x)
    (hnear : ∀ k < n, Near (groupAt perBlock blocks k) (groupAt perBlock blocks (n / 2))) :
    searchLoop perBlock blocks x turns 0 n = 1 := by
  obtain ⟨turns, rfl⟩ := Nat.exists_eq_add_of_le' (Nat.zero_lt_of_lt hturns)
  obtain ⟨hlow, hhigh⟩ := hnear i hlt
  rw [hi] at hlow hhigh
  rw [searchLoop, if_pos (by omega), zero_add]
  split_ifs with hpos hneg
  · rw [toInt_sub_pos_iff] at hpos
    refine searchLoop_eq_one (by omega) hsorted ?_ ?_ hlt hi
    · intro k hk hk'
      have hle := groupAt_le hsorted (show n / 2 ≤ k by omega) hk'
      obtain ⟨hlow', -⟩ := hnear k hk'
      constructor <;> omega
    · by_contra hle
      have hord := groupAt_le hsorted (show i ≤ n / 2 by omega) (by omega)
      rw [hi] at hord
      omega
  · rw [toInt_sub_neg_iff] at hneg
    refine searchLoop_eq_one (by omega) (fun i k hik hk => hsorted i k hik (by omega)) ?_
      (zero_le _) ?_ hi
    · intro k _ hk
      have hle := groupAt_le hsorted (le_of_lt hk) (by omega)
      obtain ⟨-, hhigh'⟩ := hnear k (by omega)
      constructor <;> omega
    · by_contra hle
      have hord := groupAt_le hsorted (show n / 2 ≤ i by omega) hlt
      rw [hi] at hord
      omega
  · rfl

end Whole

/-! ## Membership -/

/-- The middle of a list of ids, in their order. -/
def middle (ids : List (BitVec 32)) : BitVec 32 :=
  (ids.mergeSort (· ≤ ·)).getD (ids.length / 2) 0

/-- Membership is decided exactly: `groups_sort` leaves a sorted permutation of the ids, and
`groups_search` then returns 1 exactly for the ids of the list. -/
def Decides (perBlock : ℕ) (info : GroupInfo) : Prop :=
  ((groupsSort perBlock info).ids perBlock).Perm (info.ids perBlock) ∧
    ((groupsSort perBlock info).ids perBlock).Pairwise (· ≤ ·) ∧
    ∀ grp, groupsSearch perBlock (some (groupsSort perBlock info)) grp = 1 ↔
      grp ∈ info.ids perBlock

theorem mem_ids_iff {info : GroupInfo} :
    x ∈ info.ids perBlock ↔ ∃ i < info.ngroups, groupAt perBlock info.blocks i = x := by
  rw [GroupInfo.ids, List.mem_ofFn]
  constructor
  · rintro ⟨i, hi⟩
    exact ⟨i, i.isLt, hi⟩
  · rintro ⟨i, hlt, hi⟩
    exact ⟨⟨i, hlt⟩, hi⟩

/-- The sorted ids hold the middle one at the place of the first comparison. -/
theorem middle_ids (perBlock : ℕ) (info : GroupInfo) (hn : 0 < info.ngroups) :
    middle (info.ids perBlock) =
      groupAt perBlock (groupsSort perBlock info).blocks (info.ngroups / 2) := by
  obtain ⟨hperm, hsorted⟩ := groupsSort_spec perBlock info
  have hmerge : (info.ids perBlock).mergeSort (· ≤ ·) =
      (groupsSort perBlock info).ids perBlock := by
    have htrans : ∀ a b c : BitVec 32, decide (a ≤ b) → decide (b ≤ c) → decide (a ≤ c) := by
      simp only [decide_eq_true_eq]
      exact fun a b c => BitVec.le_trans
    have htotal : ∀ a b : BitVec 32, decide (a ≤ b) || decide (b ≤ a) := by
      simp only [Bool.or_eq_true, decide_eq_true_eq]
      exact BitVec.le_total
    have hmerged := List.pairwise_mergeSort htrans htotal (info.ids perBlock)
    simp only [decide_eq_true_eq] at hmerged
    refine ((List.mergeSort_perm _ _).trans hperm.symm).eq_of_pairwise ?_ hmerged hsorted
    exact fun a b _ _ hab hba => BitVec.le_antisymm hab hba
  have hlen : (info.ids perBlock).length = info.ngroups := List.length_ofFn
  rw [middle, hmerge, hlen, List.getD_eq_getElem?_getD, GroupInfo.ids, List.getElem?_ofFn,
    dif_pos (show info.ngroups / 2 < (groupsSort perBlock info).ngroups from
      div_lt_self hn (by omega))]
  rfl

/-- **Membership is decided exactly for ids within half of the range of the middle one**, and
for no others. -/
theorem decides_iff (perBlock : ℕ) (info : GroupInfo) :
    Decides perBlock info ↔
      ∀ id ∈ info.ids perBlock, Near id (middle (info.ids perBlock)) := by
  obtain ⟨hperm, hsorted⟩ := groupsSort_spec perBlock info
  have hplaces : SortedTo (groupAt perBlock (groupsSort perBlock info).blocks) info.ngroups := by
    rw [GroupInfo.ids, List.pairwise_ofFn] at hsorted
    exact fun i k hik hk => hsorted (i := ⟨i, hik.trans hk⟩) (j := ⟨k, hk⟩) hik
  constructor
  · rintro ⟨-, -, hdecides⟩ id hid
    by_contra hfar
    have hn : 0 < info.ngroups := by
      obtain ⟨i, hi, -⟩ := mem_ids_iff.mp hid
      omega
    rw [middle_ids perBlock info hn] at hfar
    exact searchLoop_ne_one_of_not_near hplaces hn hfar ((hdecides id).mpr hid)
  · intro hnear
    refine ⟨hperm, hsorted, fun grp => ⟨?_, ?_⟩⟩
    · intro hone
      by_contra hmem
      refine searchLoop_ne_one ?_ hone
      intro k _ hk heq
      exact hmem (hperm.mem_iff.mp (mem_ids_iff.mpr ⟨k, hk, heq⟩))
    · intro hmem
      obtain ⟨i, hlt, hi⟩ := mem_ids_iff.mp (hperm.mem_iff.mpr hmem)
      refine searchLoop_eq_one_of_near hplaces (lt_succ_self _) hlt hi ?_
      intro k hk
      rw [← middle_ids perBlock info (zero_lt_of_lt hk)]
      exact hnear _ (hperm.mem_iff.mp (mem_ids_iff.mpr ⟨k, hk, rfl⟩))

/-- The ids 0 and 2^31 + 1: the search does not find the first. -/
theorem not_decides_far : ¬ Decides 1024 ⟨2, fun _ i => if i = 0 then 0 else 0x80000001⟩ := by
  rintro ⟨-, -, hdecides⟩
  exact absurd ((hdecides 0).mpr (by decide)) (by decide)

end Gp2xKernel.Groups
