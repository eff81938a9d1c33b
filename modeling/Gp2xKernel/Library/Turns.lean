import Mathlib.Order.Basic

/-!
# Loops with a bounded number of turns

A loop is modelled by a recursive function of the number of turns it may still take, which
fails when it runs out of turns.  A call that ends has one result, the same for every number of
turns from some number on.

## Main definitions

* `Returns`: the result of a call that is given enough turns
* `After`: what a call gives with more than a number of turns

## Main results

* `Returns.unique`: a call has at most one result
* `forall_turns_iff`, `after_iff`, `After.mono`: the steps of a proof about one turn
* `After.returns`: a call that ends within a number of turns returns
-/

namespace Gp2xKernel.Library

variable {β γ : Type*}

/-- With enough turns for its loops, the call returns `out`. -/
def Returns (call : ℕ → Option β) (out : β) : Prop :=
  ∃ enough, ∀ turns, enough ≤ turns → call turns = some out

variable {call : ℕ → Option β}

theorem Returns.unique {x y : β} (hx : Returns call x) (hy : Returns call y) : x = y := by
  obtain ⟨n, hn⟩ := hx
  obtain ⟨k, hk⟩ := hy
  exact Option.some.inj ((hn (max n k) (Nat.le_max_left _ _)).symm.trans
    (hk _ (Nat.le_max_right _ _)))

/-- With more than `n` turns, the call gives `out`. -/
def After {γ : Type*} (n : ℕ) (call : ℕ → γ) (out : γ) : Prop :=
  ∀ turns, n < turns → call turns = out

/-- The first turn is taken in any case. -/
theorem forall_turns_iff {P : ℕ → Prop} {n : ℕ} :
    (∀ turns, n < turns → P turns) ↔ ∀ turns, n ≤ turns → P (turns + 1) := by
  refine ⟨fun h turns hn => h _ (Nat.lt_succ_of_le hn), fun h turns hn => ?_⟩
  obtain ⟨k, rfl⟩ := Nat.exists_eq_add_one.mpr (Nat.zero_lt_of_lt hn)
  exact h k (Nat.le_of_lt_succ hn)

theorem after_iff {γ : Type*} {n : ℕ} {call : ℕ → γ} {out : γ} :
    After n call out ↔ ∀ turns, n ≤ turns → call (turns + 1) = out := forall_turns_iff

variable {n : ℕ}

theorem After.mono {γ : Type*} {call : ℕ → γ} {out : γ} {k : ℕ} (h : After n call out)
    (hnk : n ≤ k) :
    After k call out := fun turns hk => h turns (Nat.lt_of_le_of_lt hnk hk)

theorem After.exists_of_eq {call : ℕ → Option (β × γ)} {x : Option (β × γ)} {P : β → γ → Prop}
    (h : After n call x) (hx : ∃ a b, x = some (a, b) ∧ P a b) :
    ∃ a b, After n call (some (a, b)) ∧ P a b := by
  obtain ⟨a, b, rfl, hp⟩ := hx
  exact ⟨a, b, h, hp⟩

theorem After.returns {x : β} (h : After n call (some x)) : Returns call x :=
  ⟨n + 1, fun turns hn => h turns hn⟩

theorem After.returns_map {x : β} (h : After n call (some x)) (f : β → γ) :
    Returns (fun turns => (call turns).map f) (f x) :=
  ⟨n + 1, fun turns hn => congrArg (Option.map f) (h turns hn)⟩

end Gp2xKernel.Library
