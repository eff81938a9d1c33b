import Mathlib.Logic.Basic

/-!
# Output one element at a time

A routine that outputs elements one after the other may run with any way of putting an element
out.  It writes a fixed list if its effect is always that of putting out the elements of the list,
whatever becomes of each of them.

## Main definitions

* `Sink`: a way of putting out an element
* `Sink.putAll`: the elements of a list, one after the other
* `Sink.collect`: the sink that keeps everything
* `Sink.Writes`: a step writes a list

## Main results

* `Sink.Writes.comp`: steps one after the other
* `Sink.Writes.collect`: a sink that keeps everything has the list in the end
-/

namespace Gp2xKernel.Library

/-- A way of putting out elements of type `α`, on states of type `σ`. -/
structure Sink (α σ : Type) where
  put : α → σ → σ

namespace Sink

variable {α σ : Type} (sink : Sink α σ)

/-- The elements of a list, one after the other. -/
def putAll (text : List α) (s : σ) : σ := text.foldl (fun s c => sink.put c s) s

@[simp] theorem putAll_nil (s : σ) : sink.putAll [] s = s := rfl

@[simp] theorem putAll_cons (c : α) (text : List α) (s : σ) :
    sink.putAll (c :: text) s = sink.putAll text (sink.put c s) := rfl

theorem putAll_append (text text' : List α) (s : σ) :
    sink.putAll (text ++ text') s = sink.putAll text' (sink.putAll text s) :=
  List.foldl_append

/-- Putting out a list from its end to its beginning. -/
theorem foldr_put (text : List α) (s : σ) : text.foldr sink.put s = sink.putAll text.reverse s := by
  rw [putAll, List.foldl_reverse]

/-- The sink that keeps everything. -/
def collect (α : Type) : Sink α (List α) := ⟨fun c text => text ++ [c]⟩

theorem putAll_collect (text s : List α) : (collect α).putAll text s = s ++ text := by
  induction text generalizing s with
  | nil => rw [putAll_nil, List.append_nil]
  | cons c text ih => rw [putAll_cons, ih, collect, List.append_assoc, List.singleton_append]

/-- The step writes the list. -/
def Writes (f : σ → σ) (text : List α) : Prop := ∀ s, f s = sink.putAll text s

theorem writes_put (c : α) : sink.Writes (sink.put c) [c] := fun _ => rfl

variable {sink}

/-- Steps one after the other write their lists one after the other. -/
theorem Writes.comp {f g : σ → σ} {text text' : List α} (hg : sink.Writes g text')
    (hf : sink.Writes f text) : sink.Writes (fun s => g (f s)) (text ++ text') := fun s => by
  show g (f s) = _
  rw [hg, hf, putAll_append]

end Sink

end Gp2xKernel.Library
