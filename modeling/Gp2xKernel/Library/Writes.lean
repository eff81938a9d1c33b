import Mathlib.Data.List.Basic
import Mathlib.Logic.Function.Basic

/-!
# Loops that write one cell a turn

Every turn of a loop writes one cell of a memory, with a value it computes from the memory as it is
then.  As long as no turn writes a cell that a later turn reads or writes, all values are those
computed from the memory before the loop.

## Main definitions

* `writeCells`: the memory after the loop

## Main results

* `writeCells_of_mem`, `writeCells_of_forall_ne`: what the loop has written, and what it has not
-/

namespace Gp2xKernel.Library

open Function

variable {ι α β : Type*} [DecidableEq α] {g : ι → α} {f : (α → β) → ι → β} {ks : List ι}

/-- Turn `k` writes what `f` computes into the cell `g k`. -/
def writeCells (g : ι → α) (f : (α → β) → ι → β) (m : α → β) (ks : List ι) : α → β :=
  ks.foldl (fun m k => update m (g k) (f m k)) m

theorem writeCells_of_forall_ne (m : α → β) {a : α} (ha : ∀ k ∈ ks, a ≠ g k) :
    writeCells g f m ks a = m a := by
  induction ks generalizing m with
  | nil => rfl
  | cons j ks ih =>
    refine (ih _ fun k hk => ha k (List.mem_cons_of_mem _ hk)).trans ?_
    exact update_of_ne (ha j List.mem_cons_self) _ _

theorem writeCells_of_mem (h : ks.Pairwise fun j k => g k ≠ g j ∧
    ∀ m v, f (update m (g j) v) k = f m k) (m : α → β) {k : ι} (hk : k ∈ ks) :
    writeCells g f m ks (g k) = f m k := by
  induction ks generalizing m with
  | nil => exact absurd hk List.not_mem_nil
  | cons j ks ih =>
    obtain ⟨hj, hks⟩ := List.pairwise_cons.mp h
    rcases List.mem_cons.mp hk with rfl | hk
    · refine (writeCells_of_forall_ne _ fun i hi => (hj i hi).1.symm).trans ?_
      exact update_self _ _ _
    · exact (ih hks _ hk).trans ((hj k hk).2 m _)

end Gp2xKernel.Library
