import Mathlib.Algebra.BigOperators.Group.List.Basic
import Mathlib.Algebra.Order.Ring.Nat
import Mathlib.Data.List.Pairwise

/-!
# Pieces of a sequence

A sequence that is put together from pieces, each of which knows the position of its first element.
Pieces that are in order and do not overlap cover a range of positions exactly if they have as many
elements as the range has positions.

## Main definitions

* `Segment`: a piece of a sequence, `Segment.get?`: its element at a position
* `Segment.cut`: a piece without its first elements
* `Ordered`, `Covers`, `total`: pieces in order, what they cover, and how many elements they have

## Main results

* `Ordered.total_le`: pieces in order fit in their range
* `Ordered.covers_iff`: they cover it exactly if they fill it
* `Ordered.join_spec`: pieces that fill a range make up the sequence
-/

namespace Gp2xKernel.Library

open List

/-- A piece of a sequence: its elements, from the position `start` on. -/
structure Segment (α : Type*) where
  start : ℕ
  data : List α
  deriving DecidableEq

variable {α : Type*}

namespace Segment

/-- The position behind the last element. -/
def stop (s : Segment α) : ℕ := s.start + s.data.length

/-- The element at a position of the sequence. -/
def get? (s : Segment α) (p : ℕ) : Option α := if s.start ≤ p then s.data[p - s.start]? else none

/-- The piece without its first `n` elements. -/
def cut (s : Segment α) (n : ℕ) : Segment α := ⟨s.start + n, s.data.drop n⟩

variable {s : Segment α} {n p : ℕ} {a : α}

theorem start_lt_stop (h : s.data ≠ []) : s.start < s.stop :=
  Nat.lt_add_of_pos_right (length_pos_iff.mpr h)

theorem stop_cut (h : n ≤ s.data.length) : (s.cut n).stop = s.stop := by
  simp only [stop, cut, length_drop]
  omega

theorem get?_eq_some_iff : s.get? p = some a ↔ s.start ≤ p ∧ s.data[p - s.start]? = some a := by
  rw [get?]
  split_ifs with h
  · exact (and_iff_right h).symm
  · simp [h]

/-- What is left of a piece has the same elements. -/
theorem get?_of_cut (h : (s.cut n).get? p = some a) : s.get? p = some a := by
  obtain ⟨hle, hget⟩ := get?_eq_some_iff.mp h
  have hle' : s.start + n ≤ p := hle
  have hget' : (s.data.drop n)[p - (s.start + n)]? = some a := hget
  have hindex : n + (p - (s.start + n)) = p - s.start := by omega
  rw [List.getElem?_drop, hindex] at hget'
  exact get?_eq_some_iff.mpr ⟨by omega, hget'⟩

end Segment

/-- The pieces are in order and do not overlap. -/
def Ordered (l : List (Segment α)) : Prop := l.Pairwise fun a b => a.stop ≤ b.start

/-- Every position from `lo` on and before `hi` is in one of the pieces. -/
def Covers (l : List (Segment α)) (lo hi : ℕ) : Prop :=
  ∀ p, lo ≤ p → p < hi → ∃ s ∈ l, s.start ≤ p ∧ p < s.stop

/-- How many elements the pieces have. -/
def total (l : List (Segment α)) : ℕ := (l.map fun s => s.data.length).sum

@[simp] theorem total_nil : total ([] : List (Segment α)) = 0 := rfl

@[simp] theorem total_cons (s : Segment α) (l : List (Segment α)) :
    total (s :: l) = s.data.length + total l := by
  rw [total, map_cons, sum_cons, total]

@[simp] theorem total_append (l m : List (Segment α)) : total (l ++ m) = total l + total m := by
  rw [total, map_append, sum_append, total, total]

namespace Ordered

variable {l : List (Segment α)} {lo hi : ℕ}

/-- Pieces in order fit in their range. -/
theorem total_le (h : Ordered l) (hlo : ∀ s ∈ l, lo ≤ s.start) (hhi : ∀ s ∈ l, s.stop ≤ hi)
    (hle : lo ≤ hi) : lo + total l ≤ hi := by
  induction l generalizing lo with
  | nil => exact hle
  | cons s l ih =>
    obtain ⟨hfirst, hrest⟩ := pairwise_cons.mp h
    have hs := hlo s mem_cons_self
    have htail := ih hrest hfirst (fun t ht => hhi t (mem_cons_of_mem _ ht)) (hhi s mem_cons_self)
    rw [Segment.stop] at htail
    rw [total_cons]
    omega

/-- **Pieces in order cover a range exactly if they fill it.** -/
theorem covers_iff (h : Ordered l) (hne : ∀ s ∈ l, s.data ≠ []) (hlo : ∀ s ∈ l, lo ≤ s.start)
    (hhi : ∀ s ∈ l, s.stop ≤ hi) (hle : lo ≤ hi) : Covers l lo hi ↔ lo + total l = hi := by
  induction l generalizing lo with
  | nil =>
    constructor
    · intro hcovers
      by_contra hne'
      rw [total_nil] at hne'
      obtain ⟨s, hs, -⟩ := hcovers lo (Nat.le_refl lo) (by omega)
      exact absurd hs not_mem_nil
    · intro heq p hp hp'
      rw [total_nil] at heq
      omega
  | cons s l ih =>
    obtain ⟨hfirst, hrest⟩ := pairwise_cons.mp h
    have hs := hlo s mem_cons_self
    have hstop := hhi s mem_cons_self
    have hpos := Segment.start_lt_stop (hne s mem_cons_self)
    have hhi' : ∀ t ∈ l, t.stop ≤ hi := fun t ht => hhi t (mem_cons_of_mem _ ht)
    have htail := ih hrest (fun t ht => hne t (mem_cons_of_mem _ ht)) hfirst hhi' hstop
    have hfit := total_le hrest hfirst hhi' hstop
    rw [total_cons]
    constructor
    · intro hcovers
      -- the first position can only be in the first piece
      have hstart : s.start = lo := by
        obtain ⟨t, ht, hle', -⟩ := hcovers lo (Nat.le_refl lo) (by omega)
        rcases mem_cons.mp ht with rfl | ht
        · omega
        · have := hfirst t ht
          omega
      have hcovers' : Covers l s.stop hi := by
        intro p hp hp'
        obtain ⟨t, ht, hle', hlt'⟩ := hcovers p (by omega) hp'
        rcases mem_cons.mp ht with rfl | ht
        · omega
        · exact ⟨t, ht, hle', hlt'⟩
      have := htail.mp hcovers'
      rw [Segment.stop] at this
      omega
    · intro heq p hp hp'
      have hlen : s.stop = s.start + s.data.length := rfl
      by_cases hin : p < s.stop
      · exact ⟨s, mem_cons_self, by omega, hin⟩
      · obtain ⟨t, ht, hbounds⟩ := htail.mpr (by omega) p (by omega) hp'
        exact ⟨t, mem_cons_of_mem _ ht, hbounds⟩

/-- **Pieces that fill a range make up the sequence**: joined, they have one element for each
position, and it is that of a piece at this position. -/
theorem join_spec (h : Ordered l) (hlo : ∀ s ∈ l, lo ≤ s.start) (hhi : ∀ s ∈ l, s.stop ≤ hi)
    (hfill : lo + total l = hi) {p : ℕ} {a : α} (hp : (l.flatMap Segment.data)[p]? = some a) :
    ∃ s ∈ l, s.get? (lo + p) = some a := by
  induction l generalizing lo p with
  | nil => cases hp
  | cons s l ih =>
    obtain ⟨hfirst, hrest⟩ := pairwise_cons.mp h
    have hs := hlo s mem_cons_self
    have hhi' : ∀ t ∈ l, t.stop ≤ hi := fun t ht => hhi t (mem_cons_of_mem _ ht)
    have hfit := total_le hrest hfirst hhi' (hhi s mem_cons_self)
    rw [total_cons] at hfill
    have hlen : s.stop = s.start + s.data.length := rfl
    -- there is no room in front of the first piece
    have hstart : s.start = lo := by omega
    rw [flatMap_cons] at hp
    by_cases hin : p < s.data.length
    · rw [List.getElem?_append_left hin] at hp
      refine ⟨s, mem_cons_self, Segment.get?_eq_some_iff.mpr ⟨by omega, ?_⟩⟩
      rw [hstart, Nat.add_sub_cancel_left, hp]
    · rw [List.getElem?_append_right (Nat.le_of_not_lt hin)] at hp
      obtain ⟨t, ht, hget⟩ := ih hrest hfirst hhi' (by omega) hp
      have hpos : s.stop + (p - s.data.length) = lo + p := by omega
      exact ⟨t, mem_cons_of_mem _ ht, hpos ▸ hget⟩

theorem length_join (l : List (Segment α)) : (l.flatMap Segment.data).length = total l := by
  rw [length_flatMap, total]

end Ordered

end Gp2xKernel.Library
