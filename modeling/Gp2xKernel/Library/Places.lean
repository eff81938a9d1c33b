import Mathlib.Data.List.Nodup
import Mathlib.Data.List.Perm.Basic

/-!
# Elements in many lists

A family of lists such that each element is in at most one of them, and at most once.  An intrusive
list has no choice: an element has one pair of links.

## Main definitions

* `Placed`: each element is in at most one place

## Main results

* `Placed.push`, `Placed.move`, `Placed.mono`: a new element is inserted into a list, a list is
  moved, and elements are taken out of lists
-/

namespace Gp2xKernel.Library

open Function

variable {ι α : Type*} {lists : ι → List α}

/-- No element is in two of the lists, or twice in one. -/
structure Placed (lists : ι → List α) : Prop where
  nodup : ∀ p, (lists p).Nodup
  unique : ∀ p q x, x ∈ lists p → x ∈ lists q → p = q

namespace Placed

/-- Elements are taken out of the lists. -/
theorem mono (h : Placed lists) {lists' : ι → List α} (hsub : ∀ p, (lists' p).Sublist (lists p)) :
    Placed lists' where
  nodup p := (h.nodup p).sublist (hsub p)
  unique p q x hp hq := h.unique p q x ((hsub p).subset hp) ((hsub q).subset hq)

variable {p r : ι} {x y : α} {l : List α}

theorem mem_erase [DecidableEq α] (h : Placed lists) :
    x ∈ (lists p).erase y ↔ x ≠ y ∧ x ∈ lists p := (h.nodup p).mem_erase_iff

variable [DecidableEq ι]

/-- The lists after an element is inserted into one of them. -/
theorem mem_push (hl : l.Perm (y :: lists p)) :
    x ∈ update lists p l r ↔ x ∈ lists r ∨ x = y ∧ r = p := by
  by_cases hr : r = p
  · subst hr
    rw [update_self, hl.mem_iff, List.mem_cons, or_comm, and_iff_left rfl]
  · rw [update_of_ne hr, or_iff_left (fun hx => hr hx.2)]

/-- A new element is inserted into a list. -/
theorem push (h : Placed lists) (hy : ∀ q, y ∉ lists q)
    (hl : l.Perm (y :: lists p)) : Placed (update lists p l) := by
  constructor
  · intro r
    by_cases hr : r = p
    · subst hr
      rw [update_self, hl.nodup_iff]
      exact List.nodup_cons.mpr ⟨hy r, h.nodup r⟩
    · rw [update_of_ne hr]
      exact h.nodup r
  · intro r s x hr hs
    rw [mem_push hl] at hr hs
    rcases hr with hr | ⟨rfl, rfl⟩
    · rcases hs with hs | ⟨rfl, -⟩
      · exact h.unique r s x hr hs
      · exact absurd hr (hy r)
    · rcases hs with hs | ⟨-, rfl⟩
      · exact absurd hs (hy s)
      · rfl

/-- The lists after one of them is moved. -/
theorem mem_move {q : ι} :
    x ∈ update (update lists p []) q (lists p) r ↔
      if r = q then x ∈ lists p else r ≠ p ∧ x ∈ lists r := by
  by_cases hr : r = q
  · subst hr
    rw [update_self, if_pos rfl]
  · rw [update_of_ne hr, if_neg hr]
    by_cases hp : r = p
    · subst hp
      rw [update_self]
      exact iff_of_false List.not_mem_nil (fun hx => hx.1 rfl)
    · rw [update_of_ne hp, and_iff_right hp]

/-- A list is moved to another place, where it replaces the one that is there. -/
theorem move (h : Placed lists) (p q : ι) : Placed (update (update lists p []) q (lists p)) := by
  constructor
  · intro r
    by_cases hr : r = q
    · subst hr
      rw [update_self]
      exact h.nodup p
    · rw [update_of_ne hr]
      by_cases hp : r = p
      · subst hp
        rw [update_self]
        exact List.nodup_nil
      · rw [update_of_ne hp]
        exact h.nodup r
  · intro r s x hr hs
    rw [mem_move] at hr hs
    split_ifs at hr hs with hrq hsq hsq
    · rw [hrq, hsq]
    · exact absurd (h.unique s p x hs.2 hr) hs.1
    · exact absurd (h.unique r p x hr.2 hs) hr.1
    · exact h.unique r s x hr.2 hs.2

end Placed

end Gp2xKernel.Library
