import Mathlib.Logic.Basic

/-!
# Runs of a system, with the history of its events

A system takes labelled steps.  What its environment may ask next can depend on
the history of events so far, so a step sees that history; the history is kept
latest event first.

## Main definitions

* `System`: initial states and steps
* `System.Reach`: the histories and states of the runs of a system

## Main results

* `System.Reach.invariant`: a property of history and state that holds at the
  start and is kept by every step holds along every run
* `System.Reach.exists_of_suffix`, `System.Reach.unique`: the states of the earlier histories of
  a run, and that a history determines them when the steps are a function
-/

namespace Gp2xKernel.Library

/-- A system with states `σ` and events `ε`. -/
structure System (σ ε : Type*) where
  init : σ → Prop
  step : List ε → σ → ε → σ → Prop

namespace System

variable {σ ε : Type*}

/-- The histories and states of the runs of a system. -/
inductive Reach (S : System σ ε) : List ε → σ → Prop
  | init {s : σ} : S.init s → Reach S [] s
  | step {tr : List ε} {s s' : σ} {e : ε} :
      Reach S tr s → S.step tr s e s' → Reach S (e :: tr) s'

variable {S : System σ ε} {tr : List ε} {s : σ}

/-- Induction along a run. -/
theorem Reach.invariant {P : List ε → σ → Prop} (hinit : ∀ s, S.init s → P [] s)
    (hstep : ∀ tr s e s', P tr s → S.step tr s e s' → P (e :: tr) s')
    (h : S.Reach tr s) : P tr s := by
  induction h with
  | init hs => exact hinit _ hs
  | step _ he ih => exact hstep _ _ _ _ ih he

/-- A run passes through the states of its earlier histories. -/
theorem Reach.exists_of_suffix {tr' : List ε} (h : S.Reach tr s)
    (hs : tr' <:+ tr) : ∃ s', S.Reach tr' s' := by
  induction h with
  | init hi =>
    obtain rfl := List.suffix_nil.mp hs
    exact ⟨_, .init hi⟩
  | @step tr s s' e hr he ih =>
    rcases List.suffix_cons_iff.mp hs with rfl | hs
    · exact ⟨_, .step hr he⟩
    · exact ih hs

/-- When the steps are those of a function, a history determines the state. -/
theorem Reach.unique (hinit : ∀ s s', S.init s → S.init s' → s = s')
    (hstep : ∀ tr s e s1 s2, S.step tr s e s1 → S.step tr s e s2 → s1 = s2) {s' : σ}
    (h : S.Reach tr s) (h' : S.Reach tr s') : s = s' := by
  induction h generalizing s' with
  | init hi =>
    cases h' with
    | init hi' => exact hinit _ _ hi hi'
  | step _ he ih =>
    cases h' with
    | step hr' he' =>
      obtain rfl := ih hr'
      exact hstep _ _ _ _ _ he he'

end System

end Gp2xKernel.Library
