import Mathlib.Data.BitVec
import Mathlib.Data.List.FinRange

/-!
# Supplementary groups

The group ids of a task are in blocks of `perBlock` ids.  `groups_sort` sorts them by a Shell sort,
and `groups_search` looks for an id by a binary search that goes by the sign of a difference of 32
bits.

## Main definitions

* `GroupInfo`, `groupAt`, `setGroup`: the ids in their blocks
* `groupsSort`, `groupsSearch`: the two routines

## Main results

* `groupsSort_spec`: the ids are sorted
-/

namespace Gp2xKernel.Groups

open Function List Nat

/-- The blocks of ids, as numbers of a block and places in it. -/
abbrev Blocks := ℕ → ℕ → BitVec 32

/-- `struct group_info`. -/
structure GroupInfo where
  ngroups : ℕ
  blocks : Blocks

variable {perBlock : ℕ} {blocks : Blocks}

/-- `GROUP_AT`. -/
def groupAt (perBlock : ℕ) (blocks : Blocks) (i : ℕ) : BitVec 32 :=
  blocks (i / perBlock) (i % perBlock)

/-- An assignment to `GROUP_AT`. -/
def setGroup (perBlock : ℕ) (blocks : Blocks) (i : ℕ) (v : BitVec 32) : Blocks :=
  Function.update blocks (i / perBlock) (Function.update (blocks (i / perBlock)) (i % perBlock) v)

/-- The inner loop of `groups_sort`, for at most a number of turns. -/
def shift (perBlock stride : ℕ) (tmp : BitVec 32) : ℕ → ℤ → ℕ → Blocks → Blocks
  | 0, _, _, blocks => blocks
  | turns + 1, left, right, blocks =>
    if 0 ≤ left ∧ groupAt perBlock blocks left.toNat > tmp then
      shift perBlock stride tmp turns (left - stride) left.toNat
        (setGroup perBlock blocks right (groupAt perBlock blocks left.toNat))
    else setGroup perBlock blocks right tmp

/-- One turn of the loop over `base`. -/
def insertAt (perBlock stride : ℕ) (blocks : Blocks) (base : ℕ) : Blocks :=
  shift perBlock stride (groupAt perBlock blocks (base + stride)) (base + stride + 1) base
    (base + stride) blocks

/-- The loop over `base`. -/
def sortPass (perBlock gidsetsize stride : ℕ) (blocks : Blocks) : Blocks :=
  (List.range (gidsetsize - stride)).foldl (insertAt perBlock stride) blocks

/-- The loop over `stride`, which gets smaller with every turn. -/
def sortLoop (perBlock gidsetsize : ℕ) : ℕ → ℕ → Blocks → Blocks
  | 0, _, blocks => blocks
  | turns + 1, stride, blocks =>
    if stride ≠ 0 then
      sortLoop perBlock gidsetsize turns (stride / 3) (sortPass perBlock gidsetsize stride blocks)
    else blocks

/-- The loop that looks for the first stride. -/
def firstStride (gidsetsize : ℕ) : ℕ → ℕ → ℕ
  | 0, stride => stride
  | turns + 1, stride =>
    if stride < gidsetsize then firstStride gidsetsize turns (3 * stride + 1) else stride

def groupsSort (perBlock : ℕ) (info : GroupInfo) : GroupInfo :=
  { info with
    blocks := sortLoop perBlock info.ngroups (info.ngroups + 1)
      (firstStride info.ngroups info.ngroups 1 / 3) info.blocks }

/-- The loop of `groups_search`; the window gets smaller with every turn. -/
def searchLoop (perBlock : ℕ) (blocks : Blocks) (grp : BitVec 32) : ℕ → ℕ → ℕ → ℤ
  | 0, _, _ => 0
  | turns + 1, left, right =>
    if left < right then
      if 0 < (grp - groupAt perBlock blocks ((left + right) / 2)).toInt then
        searchLoop perBlock blocks grp turns ((left + right) / 2 + 1) right
      else if (grp - groupAt perBlock blocks ((left + right) / 2)).toInt < 0 then
        searchLoop perBlock blocks grp turns left ((left + right) / 2)
      else 1
    else 0

def groupsSearch (perBlock : ℕ) : Option GroupInfo → BitVec 32 → ℤ
  | none, _ => 0
  | some info, grp => searchLoop perBlock info.blocks grp (info.ngroups + 1) 0 info.ngroups

/-- The ids, in order. -/
def GroupInfo.ids (perBlock : ℕ) (info : GroupInfo) : List (BitVec 32) :=
  List.ofFn fun i : Fin info.ngroups => groupAt perBlock info.blocks i

/-! ## The blocks as one array -/

theorem groupAt_setGroup (perBlock : ℕ) (blocks : Blocks) (i : ℕ) (v : BitVec 32) :
    groupAt perBlock (setGroup perBlock blocks i v) = update (groupAt perBlock blocks) i v := by
  funext k
  rw [groupAt, setGroup, update_apply, update_apply]
  split_ifs with hb hk hk
  · rw [hk, update_self]
  · rw [update_apply, if_neg]
    · rw [← hb]
      rfl
    · -- another place of the same block
      intro hmod
      apply hk
      rw [← div_add_mod k perBlock, ← div_add_mod i perBlock, hb, hmod]
  · exact absurd (congrArg (· / perBlock) hk) hb
  · rfl

/-- Exchanging two elements gives a permutation. -/
theorem ofFn_swap_perm (g : ℕ → BitVec 32) {n i k : ℕ} (hi : i < n) (hk : k < n) :
    (ofFn fun x : Fin n => g (Equiv.swap i k x)).Perm (ofFn fun x : Fin n => g x) := by
  have hswap : (fun x : Fin n => g (Equiv.swap i k x)) =
      (fun x : Fin n => g x) ∘ Equiv.swap ⟨i, hi⟩ ⟨k, hk⟩ := by
    funext x
    simp only [comp_apply, Equiv.swap_apply_def, Fin.ext_iff]
    split_ifs <;> rfl
  rw [hswap]
  exact Equiv.Perm.ofFn_comp_perm _ _

/-- An element moves to a smaller place, and the one there takes its place. -/
theorem update_update_eq_swap (g : ℕ → BitVec 32) {left right : ℕ} (hne : left ≠ right)
    (tmp : BitVec 32) (x : ℕ) :
    update (update g right (g left)) left tmp x = update g right tmp (Equiv.swap left right x) := by
  rcases eq_or_ne x left with rfl | hleft
  · rw [Equiv.swap_apply_left, update_self, update_self]
  · rw [update_of_ne hleft]
    rcases eq_or_ne x right with rfl | hright
    · rw [Equiv.swap_apply_right, update_self, update_of_ne hne]
    · rw [Equiv.swap_apply_of_ne_of_ne hleft hright, update_of_ne hright, update_of_ne hright]

/-! ## The inner loop -/

section Shift

variable {stride turns right n : ℕ} {tmp : BitVec 32}

/-- The inner loop moves the element `tmp` from the place `right` to another one. -/
theorem shift_perm (hstride : 0 < stride) (hturns : right < turns) (hright : right < n) :
    (ofFn fun x : Fin n => groupAt perBlock
      (shift perBlock stride tmp turns (right - stride) right blocks) x).Perm
      (ofFn fun x : Fin n => update (groupAt perBlock blocks) right tmp x) := by
  induction turns generalizing right blocks with
  | zero => omega
  | succ turns ih =>
    rw [shift]
    split_ifs with hmove
    · obtain ⟨left, hleft⟩ := Int.eq_ofNat_of_zero_le hmove.1
      rw [hleft, Int.toNat_natCast]
      refine (ih (by omega) (by omega)).trans ?_
      simp only [groupAt_setGroup, update_update_eq_swap _ (show left ≠ right by omega)]
      exact ofFn_swap_perm _ (by omega) hright
    · rw [groupAt_setGroup]

/-- The elements below `n` are sorted, but for the one at `hole`. -/
def SortedBut (g : ℕ → BitVec 32) (hole n : ℕ) : Prop :=
  ∀ i k, i < k → k < n → i ≠ hole → k ≠ hole → g i ≤ g k

/-- The elements below `n` are sorted. -/
def SortedTo (g : ℕ → BitVec 32) (n : ℕ) : Prop := ∀ i k, i < k → k < n → g i ≤ g k

/-- Without gaps, the inner loop puts the element where it belongs. -/
theorem shift_sorted (hturns : right < turns)
    (hsorted : SortedBut (groupAt perBlock blocks) right n)
    (habove : ∀ k, right < k → k < n → tmp ≤ groupAt perBlock blocks k) :
    SortedTo (groupAt perBlock (shift perBlock 1 tmp turns (right - (1 : ℕ)) right blocks)) n := by
  induction turns generalizing right blocks with
  | zero => omega
  | succ turns ih =>
    rw [shift]
    split_ifs with hmove
    · obtain ⟨left, hleft⟩ := Int.eq_ofNat_of_zero_le hmove.1
      have hright : right = left + 1 := by omega
      have hgt : tmp < groupAt perBlock blocks left := by
        rw [hleft] at hmove
        exact hmove.2
      rw [hleft, Int.toNat_natCast]
      subst hright
      -- the elements behind the hole are those from `left` on, one place further
      have hget : ∀ k, k ≠ left → groupAt perBlock (setGroup perBlock blocks (left + 1)
          (groupAt perBlock blocks left)) k =
            groupAt perBlock blocks (if k = left + 1 then left else k) := by
        intro k hk
        rw [groupAt_setGroup, update_apply]
        split_ifs <;> rfl
      apply ih (by omega)
      · intro i k hik hk hi hk'
        rw [hget i hi, hget k hk']
        split_ifs with h1 h2
        · omega
        · exact hsorted left k (by omega) hk (by omega) h2
        · exact hsorted i left (by omega) (by omega) (by omega) (by omega)
        · exact hsorted i k hik hk (by assumption) (by assumption)
      · intro k hlt hk
        rw [hget k (by omega)]
        split_ifs with h1
        · exact BitVec.le_of_lt hgt
        · exact habove k (by omega) hk
    · intro i k hik hk
      rw [groupAt_setGroup]
      rcases eq_or_ne i right with rfl | hi
      · rw [update_self, update_of_ne (ne_of_gt hik)]
        exact habove k hik hk
      · rw [update_of_ne hi]
        rcases eq_or_ne k right with rfl | hk'
        · -- the loop has stopped, as the element in front is not greater
          have hstop : groupAt perBlock blocks (k - 1) ≤ tmp := by
            have hleft : ((k : ℤ) - (1 : ℕ)).toNat = k - 1 := by omega
            rw [hleft] at hmove
            exact BitVec.not_lt.mp fun hgt => hmove ⟨by omega, hgt⟩
          rw [update_self]
          rcases lt_or_ge i (k - 1) with hlt | hge
          · exact BitVec.le_trans (hsorted i (k - 1) hlt (by omega) hi (by omega)) hstop
          · rw [show i = k - 1 by omega]
            exact hstop
        · rw [update_of_ne hk']
          exact hsorted i k hik hk hi hk'

end Shift

/-! ## The passes -/

variable {stride n : ℕ}

theorem sortPass_perm (hstride : 0 < stride) :
    (ofFn fun x : Fin n => groupAt perBlock (sortPass perBlock n stride blocks) x).Perm
      (ofFn fun x : Fin n => groupAt perBlock blocks x) := by
  have hfold : ∀ m, m ≤ n - stride → (ofFn fun x : Fin n => groupAt perBlock
      ((range m).foldl (insertAt perBlock stride) blocks) x).Perm
        (ofFn fun x : Fin n => groupAt perBlock blocks x) := by
    intro m hm
    induction m with
    | zero => exact .refl _
    | succ m ih =>
      rw [range_succ, foldl_append]
      refine List.Perm.trans ?_ (ih (by omega))
      generalize (range m).foldl (insertAt perBlock stride) blocks = b
      have hperm := @shift_perm perBlock b stride (m + stride + 1) (m + stride) n
        (groupAt perBlock b (m + stride)) hstride (by omega) (by omega)
      rw [update_eq_self, cast_add, Int.add_sub_cancel] at hperm
      exact hperm
  exact hfold _ (le_refl _)

/-- The pass without gaps is an insertion sort. -/
theorem sortPass_one_sorted (perBlock : ℕ) (blocks : Blocks) (n : ℕ) :
    SortedTo (groupAt perBlock (sortPass perBlock n 1 blocks)) n := by
  have hfold : ∀ m,
      SortedTo (groupAt perBlock ((range m).foldl (insertAt perBlock 1) blocks)) (m + 1) := by
    intro m
    induction m with
    | zero => exact fun i k hik hk => by omega
    | succ m ih =>
      rw [range_succ, foldl_append]
      generalize (range m).foldl (insertAt perBlock 1) blocks = b at ih
      have hsorted := @shift_sorted perBlock b (m + 1 + 1) (m + 1) (m + 1 + 1)
        (groupAt perBlock b (m + 1)) (by omega) (fun i k hik hk _ hne => ih i k hik (by omega))
        (by omega)
      rw [cast_add, Int.add_sub_cancel] at hsorted
      exact hsorted
  intro i k hik hk
  exact hfold (n - 1) i k hik (by omega)

/-- The strides of the sort: 1, 4, 13, ... -/
inductive IsStride : ℕ → Prop
  | one : IsStride 1
  | next {s : ℕ} : IsStride s → IsStride (3 * s + 1)

theorem firstStride_spec {turns s : ℕ} (hs : IsStride s) (hturns : n ≤ s + turns) :
    IsStride (firstStride n turns s) ∧ n ≤ firstStride n turns s ∧
      (firstStride n turns s = s ∨ firstStride n turns s ≤ 3 * n) := by
  induction turns generalizing s with
  | zero => exact ⟨hs, hturns, .inl rfl⟩
  | succ turns ih =>
    rw [firstStride]
    split_ifs with hlt
    · obtain ⟨hstride, hle, hsmall⟩ := ih (.next hs) (by omega)
      exact ⟨hstride, hle, by omega⟩
    · exact ⟨hs, by omega, .inl rfl⟩

/-- The last pass is the one without gaps. -/
theorem sortLoop_spec {turns s : ℕ} (hs : IsStride s) (hturns : s < turns) :
    (ofFn fun x : Fin n => groupAt perBlock (sortLoop perBlock n turns s blocks) x).Perm
        (ofFn fun x : Fin n => groupAt perBlock blocks x) ∧
      SortedTo (groupAt perBlock (sortLoop perBlock n turns s blocks)) n := by
  induction hs generalizing turns blocks with
  | one =>
    obtain ⟨turns, rfl⟩ := Nat.exists_eq_add_of_le' hturns
    exact ⟨sortPass_perm one_pos, sortPass_one_sorted perBlock blocks n⟩
  | @next s hs ih =>
    obtain ⟨turns, rfl⟩ := Nat.exists_eq_succ_of_ne_zero (Nat.ne_zero_of_lt hturns)
    have hdiv : (3 * s + 1) / 3 = s := by omega
    rw [sortLoop, hdiv]
    obtain ⟨hperm, hsorted⟩ := @ih (sortPass perBlock n (3 * s + 1) blocks) turns (by omega)
    exact ⟨hperm.trans (sortPass_perm (succ_pos _)), hsorted⟩

/-- **`groups_sort` sorts the ids.** -/
theorem groupsSort_spec (perBlock : ℕ) (info : GroupInfo) :
    ((groupsSort perBlock info).ids perBlock).Perm (info.ids perBlock) ∧
      ((groupsSort perBlock info).ids perBlock).Pairwise (· ≤ ·) := by
  obtain ⟨hstride, hle, hsmall⟩ := @firstStride_spec info.ngroups info.ngroups 1 .one (by omega)
  rw [GroupInfo.ids, pairwise_ofFn]
  suffices h : _ ∧ SortedTo (groupAt perBlock (groupsSort perBlock info).blocks) info.ngroups from
    ⟨h.1, fun i k hik => h.2 i k hik k.isLt⟩
  rw [groupsSort]
  generalize firstStride info.ngroups info.ngroups 1 = stride at hstride hle hsmall
  cases hstride with
  | one =>
    -- at most one id: no pass
    refine ⟨?_, fun i k hik hk => ?_⟩
    · exact .refl _
    · omega
  | @next s hs =>
    have hdiv : (3 * s + 1) / 3 = s := by omega
    rw [hdiv]
    exact sortLoop_spec hs (by omega)

end Gp2xKernel.Groups
