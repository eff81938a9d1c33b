import Mathlib.Algebra.Order.BigOperators.Group.List
import Mathlib.Algebra.Order.Ring.Nat

/-!
# Tilings by blocks

Blocks of units that together make up a larger block without overlap.  How often a unit is covered
is counted, so that a tiling is an equation between counts, and each way to cut or join blocks is
one equation more.

## Main definitions

* `covers`, `cover`: how often a block, and a list of blocks, covers a unit
* `Tiles`: the blocks of a list make up a block

## Main results

* `covers_split`: a block is cut in two
* `Tiles.apart`: two blocks of a tiling do not overlap
* `Tiles.within`: the blocks of a tiling lie in the whole
-/

namespace Gp2xKernel.Library

open List

/-- A block: its first unit and how many units it has. -/
abbrev Block := ℕ × ℕ

/-- How often a block covers a unit. -/
def covers (b : Block) (u : ℕ) : ℕ := if b.1 ≤ u ∧ u < b.1 + b.2 then 1 else 0

/-- How often a list of blocks covers a unit. -/
def cover (bs : List Block) (u : ℕ) : ℕ := (bs.map (covers · u)).sum

/-- How many units blocks have. -/
def size (bs : List Block) : ℕ := (bs.map Prod.snd).sum

/-- The blocks make up the block `whole`. -/
def Tiles (bs : List Block) (whole : Block) : Prop := ∀ u, cover bs u = covers whole u

variable {bs cs : List Block} {a b whole : Block}

theorem covers_le_one (b : Block) (u : ℕ) : covers b u ≤ 1 := by
  rw [covers]
  split_ifs
  · exact le_rfl
  · exact Nat.zero_le 1

theorem covers_eq_one {u : ℕ} (hlo : b.1 ≤ u) (hhi : u < b.1 + b.2) : covers b u = 1 :=
  if_pos ⟨hlo, hhi⟩

theorem covers_eq_zero {u : ℕ} (h : u < b.1 ∨ b.1 + b.2 ≤ u) : covers b u = 0 :=
  if_neg (by omega)

theorem of_covers_pos {u : ℕ} (h : 0 < covers b u) : b.1 ≤ u ∧ u < b.1 + b.2 := by
  by_contra hnot
  rw [covers, if_neg hnot] at h
  exact lt_irrefl 0 h

/-- A block is cut in two. -/
theorem covers_split (s m n u : ℕ) :
    covers (s, m + n) u = covers (s, m) u + covers (s + m, n) u := by
  rw [covers, covers, covers]
  split_ifs <;> omega

@[simp] theorem cover_nil (u : ℕ) : cover [] u = 0 := rfl

@[simp] theorem cover_cons (b : Block) (bs : List Block) (u : ℕ) :
    cover (b :: bs) u = covers b u + cover bs u := by
  rw [cover, map_cons, sum_cons, cover]

@[simp] theorem cover_append (bs cs : List Block) (u : ℕ) :
    cover (bs ++ cs) u = cover bs u + cover cs u := by
  rw [cover, map_append, sum_append, cover, cover]

@[simp] theorem size_nil : size [] = 0 := rfl

@[simp] theorem size_cons (b : Block) (bs : List Block) : size (b :: bs) = b.2 + size bs := by
  rw [size, map_cons, sum_cons, size]

@[simp] theorem size_append (bs cs : List Block) : size (bs ++ cs) = size bs + size cs := by
  rw [size, map_append, sum_append, size, size]

theorem cover_perm (h : bs.Perm cs) (u : ℕ) : cover bs u = cover cs u :=
  (h.map _).sum_eq

theorem size_perm (h : bs.Perm cs) : size bs = size cs :=
  (h.map _).sum_eq

theorem covers_le_cover (h : b ∈ bs) (u : ℕ) : covers b u ≤ cover bs u :=
  single_le_sum (fun _ _ => Nat.zero_le _) _ (mem_map_of_mem h)

theorem le_size (h : b ∈ bs) : b.2 ≤ size bs :=
  single_le_sum (fun _ _ => Nat.zero_le _) _ (mem_map_of_mem h)

namespace Tiles

/-- Two blocks of a tiling do not overlap. -/
theorem apart (h : Tiles (bs ++ cs) whole) (ha : a ∈ bs) (hb : b ∈ cs) (ha0 : 0 < a.2)
    (hb0 : 0 < b.2) : a.1 + a.2 ≤ b.1 ∨ b.1 + b.2 ≤ a.1 := by
  by_contra hnot
  -- the later of the two starts would be covered twice
  have hu := h (max a.1 b.1)
  have hca := covers_le_cover ha (max a.1 b.1)
  have hcb := covers_le_cover hb (max a.1 b.1)
  rw [covers_eq_one (by omega) (by omega)] at hca hcb
  rw [cover_append] at hu
  have hle := covers_le_one whole (max a.1 b.1)
  omega

/-- The blocks of a tiling lie in the whole. -/
theorem within (h : Tiles bs whole) (ha : a ∈ bs) (ha0 : 0 < a.2) :
    whole.1 ≤ a.1 ∧ a.1 + a.2 ≤ whole.1 + whole.2 := by
  have hmem : ∀ u, a.1 ≤ u → u < a.1 + a.2 → whole.1 ≤ u ∧ u < whole.1 + whole.2 := by
    intro u hlo hhi
    have hle := covers_le_cover ha u
    rw [h u, covers_eq_one hlo hhi] at hle
    exact of_covers_pos hle
  have hfirst := hmem a.1 le_rfl (by omega)
  have hlast := hmem (a.1 + a.2 - 1) (by omega) (by omega)
  omega

theorem congr (h : Tiles bs whole) (hcover : ∀ u, cover cs u = cover bs u) : Tiles cs whole :=
  fun u => (hcover u).trans (h u)

end Tiles

end Gp2xKernel.Library
