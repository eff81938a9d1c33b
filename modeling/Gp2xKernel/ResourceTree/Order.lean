import Gp2xKernel.ResourceTree.Links

/-!
# The order of a resource tree

A list of resources is in order between two bounds if each of its ranges starts behind the
one before, none ends behind the upper bound, and the children of each resource are in order
between its own start and end.  One predicate thus says that siblings are sorted and
disjoint and that children lie inside their parents.

## Main definitions

* `Ordered`: a list is in order between two bounds.
* `lowAt`, `highAt`: the bounds at a position.

## Main results

* `ordered_plug`: order splits at every position.
* `ordered_insertAt`, `ordered_removeAt`, `ordered_adopt`: the changes of a tree.
-/

namespace Gp2xKernel.ResourceTree

open Library

variable {α : Type} {w : ℕ}

/-- The list is in order between `lo` and `hi`. -/
def Ordered : ℕ → ℕ → Resources α w → Prop
  | _, _, .nil => True
  | lo, hi, .node c _ v s =>
    lo ≤ v.start.toNat ∧ v.start.toNat ≤ v.stop.toNat ∧ v.stop.toNat ≤ hi ∧
      Ordered v.start.toNat v.stop.toNat c ∧ Ordered (v.stop.toNat + 1) hi s

variable {lo hi : ℕ} {s t c : Resources α w} {a : α} {v : Attr w} {f : Frame α (Attr w)}
  {k : List (Frame α (Attr w))}

variable {lo' hi' : ℕ} {passed : List (Frame α (Attr w))}

/-- Only the first resource of a list meets the lower bound. -/
theorem Ordered.low (h : Ordered lo hi s)
    (hfirst : ∀ c a v r, s = .node c a v r → lo' ≤ v.start.toNat) : Ordered lo' hi s := by
  cases s with
  | nil => trivial
  | node c a v r => exact ⟨hfirst c a v r rfl, h.2⟩

/-- The lower bound at a position. -/
def lowAt (lo : ℕ) : List (Frame α (Attr w)) → ℕ
  | [] => lo
  | ⟨.left, _, v, _⟩ :: _ => v.start.toNat
  | ⟨.right, _, v, _⟩ :: _ => v.stop.toNat + 1

/-- The upper bound at a position. -/
def highAt (hi : ℕ) : List (Frame α (Attr w)) → ℕ
  | [] => hi
  | ⟨.left, _, v, _⟩ :: _ => v.stop.toNat
  | ⟨.right, _, _, _⟩ :: k => highAt hi k

/-- Everything around a position is in order. -/
def ContextOrdered (lo hi : ℕ) : List (Frame α (Attr w)) → Prop
  | [] => True
  | ⟨.left, _, v, s⟩ :: k =>
    (lowAt lo k ≤ v.start.toNat ∧ v.start.toNat ≤ v.stop.toNat ∧ v.stop.toNat ≤ highAt hi k) ∧
      Ordered (v.stop.toNat + 1) (highAt hi k) s ∧ ContextOrdered lo hi k
  | ⟨.right, _, v, c⟩ :: k =>
    (lowAt lo k ≤ v.start.toNat ∧ v.start.toNat ≤ v.stop.toNat ∧ v.stop.toNat ≤ highAt hi k) ∧
      Ordered v.start.toNat v.stop.toNat c ∧ ContextOrdered lo hi k

theorem ordered_plug (k : List (Frame α (Attr w))) (s : Resources α w) :
    Ordered lo hi (plug k s) ↔ ContextOrdered lo hi k ∧ Ordered (lowAt lo k) (highAt hi k) s := by
  induction k generalizing s with
  | nil => simp [ContextOrdered, lowAt, highAt]
  | cons f k ih =>
    rw [plug_cons, ih]
    rcases f with ⟨_ | _, a, v, u⟩
    all_goals
      simp only [LinkedTree.join, Ordered, ContextOrdered]
      tauto

/-- Positions further down the same list have the same upper bound. -/
theorem highAt_append (h : ∀ g ∈ passed, g.side = .right) :
    highAt hi (passed ++ k) = highAt hi k := by
  induction passed with
  | nil => rfl
  | cons g passed ih =>
    rcases g with ⟨_ | _, a, v, u⟩
    · simpa using h _ (List.mem_cons_self ..)
    · exact ih fun g hg => h g (List.mem_cons_of_mem _ hg)

/-- The lower bound behind resources that end before `start`. -/
theorem lowAt_append_le {start : BitVec w}
    (hpassed : ∀ g ∈ passed, g.side = .right ∧ g.data.stop < start)
    (hlow : lowAt lo k ≤ start.toNat) : lowAt lo (passed ++ k) ≤ start.toNat := by
  cases passed with
  | nil => exact hlow
  | cons g passed =>
    obtain ⟨hside, hlt⟩ := hpassed g (by simp)
    rcases g with ⟨_ | _, a, v, u⟩
    · simp at hside
    · exact BitVec.lt_def.mp hlt

/-- Positions further down a list have no smaller lower bound. -/
theorem ContextOrdered.low_le (h : ContextOrdered lo hi passed)
    (hright : ∀ g ∈ passed, g.side = .right) :
    lo ≤ lowAt lo passed := by
  induction passed with
  | nil => exact le_rfl
  | cons g passed ih =>
    rcases g with ⟨_ | _, a, v, u⟩
    · simpa using hright _ (List.mem_cons_self ..)
    · obtain ⟨⟨hlow, hv, -⟩, -, hrest⟩ := h
      have := ih hrest fun g hg => hright g (List.mem_cons_of_mem _ hg)
      show lo ≤ v.stop.toNat + 1
      omega

/-! ## Changes -/

/-- A resource goes between its neighbours. -/
theorem ordered_insertAt (h : Ordered lo hi (plug k s)) (hlow : lowAt lo k ≤ v.start.toNat)
    (hv : v.start.toNat ≤ v.stop.toNat) (hhigh : v.stop.toNat ≤ highAt hi k)
    (hc : Ordered v.start.toNat v.stop.toNat c)
    (hnext : ∀ c a u r, s = .node c a u r → v.stop.toNat < u.start.toNat) :
    Ordered lo hi (plug k (.node c a v s)) := by
  obtain ⟨hctx, hs⟩ := (ordered_plug k s).mp h
  exact (ordered_plug k _).mpr ⟨hctx, hlow, hv, hhigh, hc, hs.low hnext⟩

/-- A resource is taken out. -/
theorem ordered_removeAt (h : Ordered lo hi (plug k (.node c a v s))) :
    Ordered lo hi (plug k s) := by
  obtain ⟨hctx, hlow, hv, -, -, hs⟩ := (ordered_plug k _).mp h
  refine (ordered_plug k s).mpr ⟨hctx, hs.low fun c' a' u r hr => ?_⟩
  subst hr
  have := hs.1
  omega

/-- The siblings of a list, without their children. -/
def tops : Resources α w → List (α × Attr w)
  | .nil => []
  | .node _ a v s => (a, v) :: tops s

/-- A list with another list behind it. -/
def append : Resources α w → Resources α w → Resources α w
  | .nil, t => t
  | .node c a v s, t => .node c a v (append s t)

theorem addrs_append (s t : Resources α w) : (append s t).addrs = s.addrs ++ t.addrs := by
  induction s with
  | nil => rfl
  | node c a v s _ ih => simp [append, ih]

theorem tops_append (s t : Resources α w) : tops (append s t) = tops s ++ tops t := by
  induction s with
  | nil => rfl
  | node c a v s _ ih => simp [append, tops, ih]

theorem append_append (s t u : Resources α w) : append (append s t) u = append s (append t u) := by
  induction s with
  | nil => rfl
  | node c a v s _ ih => simp [append, ih]

/-- A list in order whose ranges all end by `hi'` is in order up to `hi'`. -/
theorem Ordered.high (h : Ordered lo hi s)
    (hstop : ∀ p ∈ tops s, p.2.stop.toNat ≤ hi') : Ordered lo hi' s := by
  induction s generalizing lo with
  | nil => trivial
  | node c a v s _ ih =>
    obtain ⟨hlow, hv, -, hc, hs⟩ := h
    exact ⟨hlow, hv, hstop (a, v) (by simp [tops]), hc,
      ih hs fun p hp => hstop p (by simp [tops, hp])⟩

/-- A list in order whose ranges all lie between two bounds is in order between them. -/
theorem Ordered.between (h : Ordered lo hi s)
    (hin : ∀ p ∈ tops s, lo' ≤ p.2.start.toNat ∧ p.2.stop.toNat ≤ hi') : Ordered lo' hi' s := by
  refine (h.high fun p hp => (hin p hp).2).low fun c a u r hr => ?_
  subst hr
  exact (hin (a, u) (by simp [tops])).1

theorem ordered_append (h : Ordered lo hi (append s t)) :
    Ordered lo hi s ∧ ∃ lo', Ordered lo' hi t := by
  induction s generalizing lo with
  | nil => exact ⟨trivial, lo, h⟩
  | node c a v s _ ih =>
    obtain ⟨hlow, hv, hhigh, hc, hs⟩ := h
    obtain ⟨hs', ht⟩ := ih hs
    exact ⟨⟨hlow, hv, hhigh, hc, hs'⟩, ht⟩

/-- A resource takes a run of the list over as its children. -/
theorem ordered_adopt (h : Ordered lo hi (plug k (append s t))) (hlow : lowAt lo k ≤ v.start.toNat)
    (hv : v.start.toNat ≤ v.stop.toNat) (hhigh : v.stop.toNat ≤ highAt hi k)
    (hin : ∀ p ∈ tops s, v.start.toNat ≤ p.2.start.toNat ∧ p.2.stop.toNat ≤ v.stop.toNat)
    (hnext : ∀ c a u r, t = .node c a u r → v.stop.toNat < u.start.toNat) :
    Ordered lo hi (plug k (.node s a v t)) := by
  obtain ⟨hctx, hst⟩ := (ordered_plug k _).mp h
  obtain ⟨hs, lo', ht⟩ := ordered_append hst
  exact (ordered_plug k _).mpr ⟨hctx, hlow, hv, hhigh, hs.between hin, ht.low hnext⟩

end Gp2xKernel.ResourceTree
