import Gp2xKernel.PrioTree.Expand

/-!
# Enumeration of the overlapping intervals

The iterator visits the tree in pre-order and skips subtrees without overlapping intervals:
those whose root ends before the query, by the heap order, and right subtrees whose common
leading bits already exceed the end of the query.  Its mask, value and level are functions
of the path to the current node, which is how it can rebuild them on the way up.

## Main definitions

* `hits`: the overlapping nodes of a tree in pre-order.
* `rest`: the overlapping nodes of the subtrees still to visit above a position.
* `Cursor`: the iterator stands at a node, with a list of nodes still to report.

## Main results

* `prioTreeFirst_spec`, `prioTreeNext_spec`: a call reports the next node of the list.
* `collect_spec`: repeated calls report exactly the overlapping nodes and then end.
-/

namespace Gp2xKernel.PrioTree

open Library List Option
open BitVec hiding not_or append_assoc
open LinkedTree (items_node addrs_eq_map mem_items_join join nodup_join addr?_node addrs_node)
open Mem.Holds (cell index)

/-! ## What the iterator remembers about the path -/

section Path

variable {w : ℕ}

/-- The mask of the iterator in the given depth; the deepest level has a mask of its own. -/
def iterMask (b n : ℕ) : BitVec w := if n < b + w then maskAt b n else allOnes w

/-- The level of the iterator in the given depth: 0 while the path spells the start. -/
def levelAt (b n : ℕ) : ℕ := if n < b then 0 else n - b + 1

/-- The leading bits of the start spelled by a path. -/
def valueAt (b : ℕ) : List Side → BitVec w
  | [] => 0
  | d :: ds => if d = .right ∧ ds.length < b then valueAt b ds ||| maskAt b ds.length
      else valueAt b ds

variable {b n : ℕ}

theorem getLsbD_maskAt (hn : n < b) (hbw : b ≤ w) (j : ℕ) :
    (maskAt b n : BitVec w).getLsbD j = decide (j = b - 1 - n) := by
  simp only [maskAt, hn, if_true, getLsbD_shiftLeft, getLsbD_one]
  grind

/-- The bits that deeper levels spell are clear. -/
theorem valueAt_clear (hbw : b ≤ w) (ds : List Side) {j : ℕ} (hj : j + ds.length < b) :
    (valueAt b ds : BitVec w).getLsbD j = false := by
  induction ds with
  | nil => simp [valueAt]
  | cons d ds ih =>
    rw [length_cons] at hj
    rw [valueAt]
    split
    · rename_i h
      rw [getLsbD_or, ih (by omega), getLsbD_maskAt h.2 hbw]
      simp
      omega
    · exact ih (by omega)

/-- Every interval on a path starts at the value of the path or behind it. -/
theorem Follows.valueAt_le (hbw : b ≤ w) {ds : List Side} {i : Index w} (h : Follows b ds i) :
    valueAt b ds ≤ i.radix := by
  have hbits : valueAt b ds &&& i.radix = valueAt b ds := by
    induction ds with
    | nil => simp [valueAt]
    | cons d ds ih =>
      rw [valueAt]
      split
      · rename_i hd
        refine eq_of_getLsbD_eq fun j hj => ?_
        have hrec := congrArg (·.getLsbD j) (ih h.2)
        simp only [getLsbD_and, getLsbD_or, getLsbD_maskAt hd.2 hbw]
        have hside := h.1
        simp only [pathSide, hd.2, hd.1] at hside
        by_cases hjb : j = b - 1 - ds.length
        · subst hjb
          cases hr : i.radix.getLsbD (b - 1 - ds.length) <;> simp [hr] at hside ⊢
        · simpa [hjb] using hrec
      · exact ih h.2
  rw [← hbits]
  exact Nat.and_le_right

theorem levelAt_ne_zero : levelAt b n ≠ 0 ↔ b ≤ n := by
  rw [levelAt]
  split <;> omega

end Path

variable {α : Type} {w : ℕ} {b : ℕ} {ds : List Side} {a e : α} {m : Mem α w}
  {iter : PrioTreeIter α w}

/-- The iterator stands at the node `a`, which has the path `ds`. -/
structure IterAt (b : ℕ) (iter : PrioTreeIter α w) (ds : List Side) (a : α) : Prop where
  cur_eq : iter.cur = some a
  mask_eq : iter.mask = iterMask b ds.length
  level_eq : iter.sizeLevel = levelAt b ds.length
  value_eq : iter.value = valueAt b ds

/-- The iterator looks for intervals that overlap `[q.radix, q.heap]`. -/
def Asks (iter : PrioTreeIter α w) (q : Index w) : Prop :=
  iter.rIndex = q.radix ∧ iter.hIndex = q.heap

theorem one_shift_ne_allOnes {j : ℕ} (hw : w ≠ 1) (hj : j < w) : 1#w <<< j ≠ allOnes w := by
  intro h
  -- some other bit is clear on the left
  obtain ⟨i, hi, hij⟩ : ∃ i < w, i ≠ j := by
    rcases j with _ | j
    · exact ⟨1, by omega, by omega⟩
    · exact ⟨0, by omega, by omega⟩
  have := congrArg (·.getLsbD i) h
  simp [hi] at this
  omega

/-- Stepping up restores what the iterator knew at the parent. -/
theorem prioTreeParent_spec {d : Side} {c : Cell α (Entry w)} (hbw : b ≤ w)
    (hn : ds.length < b + w) (hat : IterAt b iter (d :: ds) a) (hq : Asks iter q)
    (hc : m.heap a = some c) :
    ∃ iter', prioTreeParent m iter = some iter' ∧ IterAt b iter' ds c.parent ∧ Asks iter' q := by
  obtain ⟨hcur, hmask, hlevel, hvalue⟩ := hat
  rw [length_cons] at hmask hlevel
  -- the three components, one by one
  have hmask' : (if iter.mask = allOnes w then 1#w
      else if iter.sizeLevel = 1 then 1#w else iter.mask <<< 1) = maskAt b ds.length := by
    by_cases hlast : ds.length + 1 = b ∨ ds.length + 1 = b + w
    · rw [maskAt_last hlast]
      rcases hlast with hb' | hend
      · have h1 : iter.sizeLevel = 1 := by rw [hlevel, levelAt, if_neg (by omega)]; omega
        simp [h1]
      · rw [iterMask, if_neg (by omega)] at hmask
        simp [hmask]
    · obtain ⟨j, hj, hmj, hnext⟩ := maskAt_next hbw (by omega) (fun h => hlast (.inl h))
      rw [iterMask, if_pos (by omega), hnext] at hmask
      have h1 : iter.sizeLevel ≠ 1 := by
        rw [hlevel, levelAt]
        split <;> omega
      rw [hmask, if_neg (one_shift_ne_allOnes (by omega) (by omega)), if_neg h1, hmj,
        shiftLeft_add]
  have hlevel' : (if iter.sizeLevel ≠ 0 then iter.sizeLevel - 1 else iter.sizeLevel) =
      levelAt b ds.length := by
    rw [hlevel]
    unfold levelAt
    split_ifs <;> omega
  have hvalue' : (if levelAt b ds.length = 0 ∧ iter.value &&& maskAt b ds.length ≠ 0 then
      iter.value ^^^ maskAt b ds.length else iter.value) = valueAt b ds := by
    by_cases hnb : ds.length < b
    · have hl0 : levelAt b ds.length = 0 := by simp [levelAt, hnb]
      have hclear := valueAt_clear hbw ds (j := b - 1 - ds.length) (by omega)
      have hand : ∀ y : BitVec w, y &&& maskAt b ds.length ≠ 0 ↔
          y.getLsbD (b - 1 - ds.length) = true := by
        intro y
        rw [maskAt, if_pos hnb, and_shift_ne_zero]
      simp only [hl0, hand, hvalue]
      cases d with
      | left => simp [valueAt, hclear]
      | right =>
        have hbit : (maskAt b ds.length : BitVec w).getLsbD (b - 1 - ds.length) = true := by
          simp [getLsbD_maskAt hnb hbw]
        simp only [valueAt, hnb, true_and, if_true, getLsbD_or, hbit, Bool.or_true]
        refine eq_of_getLsbD_eq fun j hj => ?_
        simp only [getLsbD_xor, getLsbD_or, getLsbD_maskAt hnb hbw]
        by_cases hjb : j = b - 1 - ds.length
        · simp [hjb, hclear]
        · simp [hjb]
    · have hl0 : levelAt b ds.length ≠ 0 := levelAt_ne_zero.mpr (not_lt.mp hnb)
      simp [hl0, hvalue, valueAt, hnb]
  refine ⟨{ iter with
    cur := some c.parent
    mask := maskAt b ds.length
    sizeLevel := levelAt b ds.length
    value := valueAt b ds }, ?_, ⟨rfl, ?_, rfl, rfl⟩, hq⟩
  · simp only [prioTreeParent, hcur, hc, Option.bind_eq_bind, Option.bind_some, Option.pure_def]
    rw [hmask', hlevel', hvalue']
  · rw [iterMask, if_pos hn]

/-! ## The nodes to report -/

section Hits

variable {δ : Type*} (ix : δ → Index w) (q : Index w)

/-- The test of `overlap`. -/
def Touches (q i : Index w) : Prop := i.radix ≤ q.heap ∧ q.radix ≤ i.heap

instance (q i : Index w) : Decidable (Touches q i) := instDecidableAnd

/-- The overlapping nodes of a tree in pre-order. -/
def hits : LinkedTree α δ → List α
  | .nil => []
  | .node l a v r => (if Touches q (ix v) then [a] else []) ++ (hits l ++ hits r)

/-- The overlapping nodes of the subtrees that come after a position. -/
def rest : List (Frame α δ) → List α
  | [] => []
  | ⟨.left, _, _, s⟩ :: k => hits ix q s ++ rest k
  | ⟨.right, _, _, _⟩ :: k => rest k

theorem hits_perm (t : LinkedTree α δ) :
    (hits ix q t).Perm ((t.items.filter fun p => Touches q (ix p.2)).map Prod.fst) := by
  induction t with
  | nil => exact .nil
  | node l a v r ihl ihr =>
    rw [hits, items_node, filter_append, map_append]
    by_cases hv : Touches q (ix v)
    · rw [if_pos hv, filter_cons_of_pos (by simpa using hv)]
      exact ((ihl.append ihr).cons a).trans perm_middle.symm
    · rw [if_neg hv, filter_cons_of_neg (by simpa using hv)]
      exact ihl.append ihr

variable {t : LinkedTree α δ}

theorem mem_hits {a : α} : a ∈ hits ix q t ↔ ∃ v, (a, v) ∈ t.items ∧ Touches q (ix v) := by
  rw [(hits_perm ix q t).mem_iff]
  simp

theorem length_hits_le (t : LinkedTree α δ) : (hits ix q t).length ≤ t.addrs.length := by
  rw [(hits_perm ix q t).length_eq, length_map, addrs_eq_map, length_map]
  exact length_filter_le _ _

theorem nodup_hits (h : t.addrs.Nodup) : (hits ix q t).Nodup := by
  rw [addrs_eq_map] at h
  exact (hits_perm ix q t).nodup_iff.mpr (h.sublist (filter_sublist.map _))

theorem hits_eq_nil (h : ∀ p ∈ t.items, ¬ Touches q (ix p.2)) : hits ix q t = [] := by
  refine eq_nil_iff_forall_not_mem.mpr fun a ha => ?_
  obtain ⟨v, hv, hq⟩ := (mem_hits ix q).mp ha
  exact h _ hv hq

variable {ix q}

/-- A subtree whose root ends before the query has no overlapping node. -/
theorem hits_eq_nil_of_heap {l r : LinkedTree α δ} {a : α} {v : δ}
    (hgood : Good ix b ds (.node l a v r)) (h : ¬ q.radix ≤ (ix v).heap) :
    hits ix q (.node l a v r) = [] := by
  refine hits_eq_nil ix q fun p hp htouch => h ?_
  obtain ⟨-, hl, hr, -, -⟩ := hgood
  simp only [items_node, mem_append, mem_cons] at hp
  rcases hp with hp | rfl | hp
  · exact BitVec.le_trans htouch.2 (hl p hp).heap_le
  · exact htouch.2
  · exact BitVec.le_trans htouch.2 (hr p hp).heap_le

/-- A subtree whose leading bits exceed the end of the query has no overlapping node. -/
theorem hits_eq_nil_of_value (hbw : b ≤ w) (hgood : Good ix b ds t)
    (h : q.heap < valueAt b ds) : hits ix q t = [] := by
  refine hits_eq_nil ix q fun p hp htouch => ?_
  have hle := (hgood.follows p hp).valueAt_le hbw
  rw [lt_def] at h
  have h1 := le_def.mp htouch.1
  have h2 := le_def.mp hle
  omega

/-- Behind an interval that starts after the query, nothing overlaps. -/
theorem rest_eq_nil {k : List (Frame α δ)} {s : LinkedTree α δ} {i : Index w}
    (hgood : Good ix b [] (plug k s)) (hfit : AllFit ix b (plug k s))
    (hi : Follows b (sides k) i) (hfi : i.Fits b) (hlt : q.heap < i.radix) :
    rest ix q k = [] := by
  induction k generalizing s with
  | nil => rfl
  | cons f k ih =>
    rcases f with ⟨_ | _, a, v, s'⟩
    · refine append_eq_nil_iff.mpr ⟨hits_eq_nil ix q fun p hp htouch => ?_, ih hgood hfit hi.2⟩
      have hp' := (good_join.mp (Good.sub (k := k) hgood)).2.2.2.2.follows p hp
      have hfp := AllFit.sub (k := k) hfit p ((mem_items_join ..).mpr (.inr (.inr hp)))
      -- the right sibling spells a larger start, or the same one
      have hle : i.radix.toNat ≤ (ix p.2).radix.toNat := by
        by_cases hk : (sides k).length < b
        · exact (lt_def.mp (hi.radix_lt hp' hfi hfp hk)).le
        · rw [hi.2.radix_eq_of_le hp'.2 hfi hfp (not_lt.mp hk)]
      have := le_def.mp htouch.1
      have := lt_def.mp hlt
      omega
    · exact ih hgood hfit hi.2

end Hits

/-! ## Steps of the iterator -/

variable [DecidableEq α] {q : Index w}

/-- Stepping down; the caller has taken care of the value. -/
theorem enterChild_spec {d : Side} (iter : PrioTreeIter α w) (hb : 1 ≤ b) (hbw : b ≤ w)
    (hn : ds.length < b + w)
    (hmask : iter.mask = iterMask b ds.length) (hlevel : iter.sizeLevel = levelAt b ds.length)
    (hvalue : iter.value = valueAt b (d :: ds)) (hq : Asks iter q)
    (hleaf : ds.length + 1 = b + w → ∃ c, m.heap e = some c ∧ c.left = e ∧ c.right = e) :
    ∃ iter', enterChild m iter e = some iter' ∧ IterAt b iter' (d :: ds) e ∧ Asks iter' q := by
  rw [iterMask, if_pos hn] at hmask
  by_cases hlast : ds.length + 1 = b ∨ ds.length + 1 = b + w
  · have hz : iter.mask >>> 1 = 0 := by rw [hmask, maskAt_last hlast, one_ushiftRight_one]
    by_cases hend : ds.length + 1 = b + w
    · -- the deepest level, which has leaves only
      obtain ⟨c, hc, hl, hr⟩ := hleaf hend
      have hlev : iter.sizeLevel ≠ 0 := by
        rw [hlevel, levelAt_ne_zero]
        omega
      refine ⟨{ iter with
          cur := some e
          mask := allOnes w
          sizeLevel := iter.sizeLevel + 1 }, ?_, ⟨rfl, ?_, ?_, hvalue⟩, hq⟩
      · simp [enterChild, hz, hlev, hc, hl, hr]
      · rw [iterMask, if_neg (by simp; omega)]
      · show iter.sizeLevel + 1 = _
        rw [hlevel, levelAt, levelAt, if_neg (by omega), if_neg (by simp; omega), length_cons]
        omega
    · have hb' : ds.length + 1 = b := by omega
      have hlev : iter.sizeLevel = 0 := by
        rw [hlevel, levelAt, if_pos (by omega)]
      refine ⟨{ iter with cur := some e, mask := 1#w <<< (w - 1), sizeLevel := 1 }, ?_,
        ⟨rfl, ?_, ?_, hvalue⟩, hq⟩
      · simp [enterChild, hz, hlev]
      · rw [iterMask, if_pos (by simp; omega)]
        simp [maskAt, hb']
      · simp [levelAt, hb']
  · obtain ⟨j, hj, hmj, hnext⟩ := maskAt_next hbw (by omega) (fun h => hlast (.inl h))
    have hshift : iter.mask >>> 1 = maskAt b (ds.length + 1) := by
      rw [hmask, hmj, shift_succ_ushiftRight hj, hnext]
    have hne : iter.mask >>> 1 ≠ 0 := by
      rw [hshift]
      exact maskAt_ne_zero hbw (by omega)
    refine ⟨_, if_pos hne, ⟨rfl, ?_, ?_, hvalue⟩, hq⟩
    · show iter.mask >>> 1 = _
      rw [hshift, iterMask, if_pos (by simp; omega), length_cons]
    · show (if iter.sizeLevel ≠ 0 then iter.sizeLevel + 1 else iter.sizeLevel) = _
      rw [hlevel, length_cons]
      unfold levelAt
      split_ifs <;> omega

section Steps

variable {k : List (Frame α (Entry w))} {l r : LinkedTree α (Entry w)} {v : Entry w}

omit [DecidableEq α] in
/-- A node with something below it is above the deepest level. -/
theorem WellFormed.depth_lt {t : LinkedTree α (Entry w)} {d : Side}
    (H : WellFormed m (plug (⟨d, a, v, r⟩ :: k) t)) (ht : t ≠ .nil) :
    (sides k).length < m.root.indexBits + w := by
  obtain ⟨p, hp⟩ : ∃ p, p ∈ t.items := by
    cases t with
    | nil => exact absurd rfl ht
    | node l e u r => exact ⟨(e, u), by simp⟩
  obtain ⟨hv, hvt, -, htgood, -⟩ := good_join.mp (Good.sub (k := k) H.good)
  have hmem := AllFit.sub (k := k) H.fits
  exact PrioTree.depth_lt hv (htgood.follows p hp).2
    (hmem (a, v) ((mem_items_join ..).mpr (.inl rfl)))
    (hmem p ((mem_items_join ..).mpr (.inr (.inl hp)))) (hvt p hp).ne.symm

section

variable (H : WellFormed m (plug k (.node l a v r)))
include H

/-- At the deepest level there are leaves only. -/
theorem WellFormed.leaf_of_deepest (hk : (sides k).length = m.root.indexBits + w) :
    ∃ c, m.heap a = some c ∧ c.left = a ∧ c.right = a := by
  have hl : l = .nil := by
    by_contra hne
    exact absurd (WellFormed.depth_lt (d := .left) H hne) (by omega)
  have hr : r = .nil := by
    by_contra hne
    exact absurd (WellFormed.depth_lt (d := .right) H hne) (by omega)
  subst hl hr
  exact ⟨_, cell (d := .left) H.holds, rfl, rfl⟩

/-- `prio_tree_left` enters the left child, unless nothing there overlaps. -/
theorem prioTreeLeft_spec (hat : IterAt m.root.indexBits iter (sides k) a) (hq : Asks iter q) :
    (prioTreeLeft m iter = some (iter, none) ∧ hits m.ix q l = []) ∨
      ∃ ll e u lr iter', l = .node ll e u lr ∧ q.radix ≤ (m.ix u).heap ∧
        prioTreeLeft m iter = some (iter', some (m.ix u)) ∧
        IterAt m.root.indexBits iter' (.left :: sides k) e ∧ Asks iter' q := by
  have hcell := cell (d := .left) H.holds
  cases l with
  | nil =>
    refine .inl ⟨?_, rfl⟩
    simp [prioTreeLeft, hat.cur_eq, hcell, Cell.join]
  | node ll e u lr =>
    have hea : e ≠ a := by
      rintro rfl
      exact ((nodup_join .left ..).mp ((nodup_plug _ _).mp H.holds.nodup).1).1 (by simp)
    have hindex : m.index e = some (m.ix u) :=
      index (k := ⟨.left, a, v, r⟩ :: k) (d := .left) H.holds
    have hsub := H.good.sub
    by_cases hheap : q.radix ≤ (m.ix u).heap
    · have hn := WellFormed.depth_lt (d := .left) H (by simp)
      obtain ⟨iter', hrun, hat', hq'⟩ := enterChild_spec (d := .left) iter H.bits_pos H.bits_le hn
        hat.mask_eq hat.level_eq (by simpa [valueAt] using hat.value_eq) hq fun hk =>
          WellFormed.leaf_of_deepest (k := ⟨.left, a, v, r⟩ :: k) H (by simpa using hk)
      refine .inr ⟨ll, e, u, lr, iter', rfl, hheap, ?_, hat', hq'⟩
      simp [prioTreeLeft, hat.cur_eq, hcell, Cell.join, hea, hindex, hq.1, hheap, hrun]
    · refine .inl ⟨?_, hits_eq_nil_of_heap hsub.2.2.2.1 hheap⟩
      simp [prioTreeLeft, hat.cur_eq, hcell, Cell.join, hindex, hq.1, hheap]

/-- `prio_tree_right` enters the right child, unless nothing there overlaps. -/
theorem prioTreeRight_spec (hat : IterAt m.root.indexBits iter (sides k) a) (hq : Asks iter q) :
    (prioTreeRight m iter = some (iter, none) ∧ hits m.ix q r = []) ∨
      ∃ rl e u rr iter', r = .node rl e u rr ∧ q.radix ≤ (m.ix u).heap ∧
        prioTreeRight m iter = some (iter', some (m.ix u)) ∧
        IterAt m.root.indexBits iter' (.right :: sides k) e ∧ Asks iter' q := by
  have hcell := cell (d := .left) H.holds
  cases r with
  | nil =>
    refine .inl ⟨?_, rfl⟩
    simp [prioTreeRight, hat.cur_eq, hcell, Cell.join]
  | node rl e u rr =>
    have hea : e ≠ a := by
      rintro rfl
      exact ((nodup_join .left ..).mp ((nodup_plug _ _).mp H.holds.nodup).1).2.1 (by simp)
    have hindex : m.index e = some (m.ix u) :=
      index (k := ⟨.right, a, v, l⟩ :: k) (d := .left) H.holds
    have hsub := H.good.sub
    have hn := WellFormed.depth_lt (d := .right) H (by simp)
    -- the value the function tries
    have hvalue : (if iter.sizeLevel ≠ 0 then iter.value else iter.value ||| iter.mask) =
        valueAt m.root.indexBits (.right :: sides k) := by
      rw [hat.level_eq, hat.value_eq, hat.mask_eq, iterMask, if_pos hn]
      by_cases hk : (sides k).length < m.root.indexBits
      · rw [if_neg (by rw [levelAt_ne_zero]; omega), valueAt, if_pos ⟨rfl, hk⟩]
      · rw [if_pos (levelAt_ne_zero.mpr (not_lt.mp hk)), valueAt, if_neg fun h => hk h.2]
    simp only [prioTreeRight, hat.cur_eq, hcell, Cell.join, hvalue, hq.1, hq.2,
      bind_eq_bind, bind_some, addr?_node, getD_some, hea, if_false, Option.pure_def, hindex]
    by_cases hpast : q.heap < valueAt m.root.indexBits (.right :: sides k)
    · exact .inl ⟨if_pos hpast, hits_eq_nil_of_value H.bits_le hsub.2.2.2.2 hpast⟩
    · by_cases hheap : q.radix ≤ (m.ix u).heap
      · obtain ⟨iter', henter, hat', hq'⟩ := enterChild_spec
          { iter with value := valueAt m.root.indexBits (.right :: sides k) }
          H.bits_pos H.bits_le hn hat.mask_eq hat.level_eq rfl hq fun hk =>
            WellFormed.leaf_of_deepest (k := ⟨.right, a, v, l⟩ :: k) H (by simpa using hk)
        refine .inr ⟨rl, e, u, rr, iter', rfl, hheap, ?_, hat', hq'⟩
        simp only [hat.cur_eq, hq.1, hq.2] at henter
        rw [if_neg hpast, if_pos hheap, henter, bind_some]
      · refine .inl ⟨?_, hits_eq_nil_of_heap hsub.2.2.2.2 hheap⟩
        rw [if_neg hpast, if_neg hheap]

end

omit [DecidableEq α] in
theorem overlap_eq (hq : Asks iter q) (i : Index w) : overlap iter i = decide (Touches q i) := by
  simp only [overlap, Touches, hq.1, hq.2]

end Steps

/-! ## Calls -/

/-- The iterator stands at a node of the tree, and `todo` is still to report. -/
def Cursor (m : Mem α w) (q : Index w) (t : LinkedTree α (Entry w)) (iter : PrioTreeIter α w)
    (a : α) (todo : List α) : Prop :=
  ∃ k l v r, t = plug k (.node l a v r) ∧ IterAt m.root.indexBits iter (sides k) a ∧
    Asks iter q ∧
    todo = hits (getIndex m.root.raw) q l ++ (hits (getIndex m.root.raw) q r ++
      rest (getIndex m.root.raw) q k)

/-- The outcome of a call that has `todo` to report. -/
def Reports (m : Mem α w) (q : Index w) (t : LinkedTree α (Entry w)) :
    List α → Option (PrioTreeIter α w × Option α) → Prop
  | [], out => ∃ iter, out = some (iter, none)
  | a :: todo, out => ∃ iter, out = some (iter, some a) ∧ Cursor m q t iter a todo

/-- The turns `prio_tree_next` may need for what is above a position. -/
def workAbove : List (Frame α (Entry w)) → ℕ
  | [] => 1
  | ⟨.left, _, _, s⟩ :: k => 3 * s.addrs.length + 2 + workAbove k
  | ⟨.right, _, _, _⟩ :: k => 1 + workAbove k

/-- The turns `prio_tree_next` may need in a phase at a node. -/
def work (l r : LinkedTree α (Entry w)) (k : List (Frame α (Entry w))) : Phase → ℕ
  | .left => 3 * l.addrs.length + 3 * r.addrs.length + 2 + workAbove k
  | .right => 3 * r.addrs.length + 1 + workAbove k
  | .up => workAbove k

/-- What is still to report in a phase at a node. -/
def todo (ix : Entry w → Index w) (q : Index w) (l r : LinkedTree α (Entry w))
    (k : List (Frame α (Entry w))) : Phase → List α
  | .left => hits ix q l ++ (hits ix q r ++ rest ix q k)
  | .right => hits ix q r ++ rest ix q k
  | .up => rest ix q k

variable {l r : LinkedTree α (Entry w)} {k : List (Frame α (Entry w))}

omit [DecidableEq α] in
/-- Entering a child: the child is reported, or the walk goes on below it. -/
theorem enter_reports {v : Entry w} {out : Option (PrioTreeIter α w × Option α)}
    (hat : IterAt m.root.indexBits iter (sides k) a) (hq : Asks iter q)
    (hrec : ¬ Touches q (m.ix v) → Reports m q (plug k (.node l a v r))
      (todo m.ix q l r k .left) out) :
    Reports m q (plug k (.node l a v r)) (hits m.ix q (.node l a v r) ++ rest m.ix q k)
      (if overlap iter (m.ix v) then some (iter, iter.cur) else out) := by
  rw [overlap_eq hq]
  by_cases htouch : Touches q (m.ix v)
  · simp only [htouch, hits, hat.cur_eq, append_assoc]
    exact ⟨iter, rfl, k, l, v, r, rfl, hat, hq, rfl⟩
  · simp only [htouch, hits, append_assoc]
    exact hrec htouch

variable (turns : ℕ)

/-- **The loops of `prio_tree_next`** report the first of the nodes still to report. -/
theorem nextLoop_spec {v : Entry w} (phase : Phase) (H : WellFormed m (plug k (.node l a v r)))
    (hat : IterAt m.root.indexBits iter (sides k) a) (hq : Asks iter q)
    (hturns : work l r k phase ≤ turns) :
    Reports m q (plug k (.node l a v r)) (todo m.ix q l r k phase)
      (nextLoop turns m phase iter) := by
  induction turns generalizing k l a v r iter phase with
  | zero =>
    have hpos : ∀ k : List (Frame α (Entry w)), 0 < workAbove k := by
      intro k
      rcases k with _ | ⟨⟨_ | _, _, _, _⟩, k⟩ <;> rw [workAbove] <;> omega
    have := hpos k
    cases phase <;> simp only [work] at hturns <;> omega
  | succ turns ih =>
    cases phase with
    | left =>
      rw [nextLoop]
      rcases prioTreeLeft_spec H hat hq with
        ⟨hrun, hnil⟩ | ⟨ll, e, u, lr, iter', rfl, -, hrun, hat', hq'⟩
      · -- nothing to the left: the right child is next
        simp only [hrun, todo, hnil]
        exact ih .right H hat hq (by simp only [work] at hturns ⊢; omega)
      · simp only [hrun]
        refine enter_reports (k := ⟨.left, a, v, r⟩ :: k) hat' hq' fun _ => ?_
        refine ih .left H hat' hq' ?_
        simp only [work, workAbove, addrs_node, length_append, length_cons] at hturns ⊢
        omega
    | right =>
      rw [nextLoop]
      rcases prioTreeRight_spec H hat hq with
        ⟨hrun, hnil⟩ | ⟨rl, e, u, rr, iter', rfl, -, hrun, hat', hq'⟩
      · simp only [hrun, todo, hnil]
        exact ih .up H hat hq (by simp only [work] at hturns ⊢; omega)
      · simp only [hrun]
        refine enter_reports (k := ⟨.right, a, v, l⟩ :: k) hat' hq' fun _ => ?_
        refine ih .left H hat' hq' ?_
        simp only [work, workAbove, addrs_node, length_append, length_cons] at hturns ⊢
        omega
    | up =>
      have hcell := cell (d := .left) H.holds
      rw [nextLoop]
      simp only [hat.cur_eq, hcell, bind_eq_bind, bind_some]
      cases k with
      | nil => simp [todo, rest, Reports]
      | cons f k =>
        have hn := WellFormed.depth_lt H (by simp)
        obtain ⟨iter', hrun, hat', hq'⟩ := prioTreeParent_spec H.bits_le hn hat hq hcell
        have hparent := cell H.holds
        obtain ⟨-, -, hout⟩ := (nodup_plug _ _).mp H.holds.nodup
        have haf := hout a (by simp)
        simp only [mem_around_cons, not_or] at haf
        have hne : f.addr ≠ a := Ne.symm haf.1
        rcases f with ⟨_ | _, p, u, s⟩
        · -- up from a left child: its sibling is next
          have hright : ¬ s.addr?.getD p = a := getD_ne haf.2.1 hne
          simp only [Cell.join, top, getD_some, hne, hparent, bind_some, hrun, hright]
          refine ih .right H hat' hq' ?_
          simp only [work, workAbove] at hturns ⊢
          omega
        · simp only [Cell.join, top, getD_some, hne, hparent, bind_some, hrun, addr?_node]
          refine ih (k := k) .up H hat' hq' ?_
          simp only [work, workAbove] at hturns ⊢
          omega

omit [DecidableEq α] in
theorem work_le (l r : LinkedTree α (Entry w)) (a : α) (v : Entry w)
    (k : List (Frame α (Entry w))) :
    work l r k .left ≤ 3 * (plug k (.node l a v r)).addrs.length := by
  have habove : ∀ k : List (Frame α (Entry w)), workAbove k ≤ 3 * (around k).length + 1 := by
    intro k
    induction k with
    | nil => simp [workAbove]
    | cons f k ih =>
      rcases f with ⟨_ | _, _, _, _⟩ <;> simp only [workAbove, length_around_cons] <;> omega
  have := habove k
  rw [length_addrs_plug]
  simp only [work, addrs_node, length_append, length_cons]
  omega

variable {t : LinkedTree α (Entry w)} {todo : List α}

/-- **`prio_tree_next` from a node** reports the next one. -/
theorem prioTreeNext_spec
    (H : WellFormed m t) (hcur : Cursor m q t iter a todo) (hturns : 3 * t.addrs.length ≤ turns) :
    Reports m q t todo (prioTreeNext turns m iter) := by
  obtain ⟨k, l, v, r, rfl, hat, hq, rfl⟩ := hcur
  rw [prioTreeNext, hat.cur_eq]
  exact nextLoop_spec turns .left H hat hq ((work_le l r a v k).trans hturns)

/-- The loop of `prio_tree_first` does not back up.  It need not: an interval that starts
after the query is followed by such intervals only. -/
theorem firstLoop_spec (iter : PrioTreeIter α w)
    {v : Entry w} (H : WellFormed m (plug k (.node l a v r)))
    (hat : IterAt m.root.indexBits iter (sides k) a) (hq : Asks iter q)
    (hheap : q.radix ≤ (m.ix v).heap)
    (hturns : (LinkedTree.node l a v r).addrs.length ≤ turns) :
    Reports m q (plug k (.node l a v r)) (hits m.ix q (.node l a v r) ++ rest m.ix q k)
      (firstLoop turns m iter (m.ix v)) := by
  induction turns generalizing k l a v r iter with
  | zero => simp at hturns
  | succ turns ih =>
    rw [addrs_node, length_append, length_cons] at hturns
    refine enter_reports hat hq fun htouch => ?_
    rcases prioTreeLeft_spec H hat hq with
      ⟨hrun, hnil⟩ | ⟨ll, e, u, lr, iter', rfl, hheap', hrun, hat', hq'⟩
    · simp only [hrun, bind_eq_bind, bind_some, todo, hnil]
      rcases prioTreeRight_spec H hat hq with
        ⟨hrun, hnil⟩ | ⟨rl, e, u, rr, iter', rfl, hheap', hrun, hat', hq'⟩
      · have hlt : q.heap < (m.ix v).radix :=
          BitVec.not_le.mp fun h => htouch ⟨h, hheap⟩
        have hrest : rest m.ix q k = [] :=
          rest_eq_nil H.good H.fits H.good.sub.1 (H.fits.sub (a, v) (by simp)) hlt
        simp only [hrun, hnil, hrest]
        exact ⟨iter, rfl⟩
      · simp only [hrun]
        exact ih iter' (k := ⟨.right, a, v, l⟩ :: k) H hat' hq' hheap' (by omega)
    · simp only [hrun]
      exact ih iter' (k := ⟨.left, a, v, r⟩ :: k) H hat' hq' hheap' (by omega)

/-- **`prio_tree_first`** reports the first overlapping node. -/
theorem prioTreeFirst_spec (H : WellFormed m t)
    (hq : Asks iter q) (hturns : t.addrs.length ≤ turns) :
    Reports m q t (hits m.ix q t) (prioTreeFirst turns m iter) := by
  have hroot : m.root.prioTreeNode = t.addr? := H.holds.root_eq
  rw [prioTreeFirst, hroot]
  cases t with
  | nil => exact ⟨_, rfl⟩
  | node l a v r =>
    have hindex : m.index a = some (m.ix v) :=
      index (k := []) (d := .left) H.holds
    simp only [addr?_node, hindex, bind_eq_bind, bind_some, hq.1]
    by_cases hheap : q.radix ≤ (m.ix v).heap
    · rw [if_neg (BitVec.not_lt.mpr hheap)]
      have hfirst := firstLoop_spec (k := []) turns
        ⟨some a, 1#w <<< (m.root.indexBits - 1), 0, 0, q.radix, iter.hIndex⟩ H ⟨rfl, ?_, ?_, rfl⟩
        ⟨rfl, hq.2⟩ hheap hturns
      · rwa [rest, append_nil] at hfirst
      · have hb : 0 < m.root.indexBits := H.bits_pos
        rw [iterMask, if_pos (by simp; omega), maskAt, if_pos (by simpa using hb)]
        rfl
      · have := H.bits_pos
        simp [levelAt, show 0 < m.root.indexBits by omega]
    · rw [if_pos (BitVec.not_le.mp hheap), hits_eq_nil_of_heap H.good hheap]
      exact ⟨_, rfl⟩

/-! ## The whole enumeration -/

/-- The loop of a caller: `prio_tree_next` until it returns NULL. -/
def collect (turns : ℕ) : ℕ → Mem α w → PrioTreeIter α w → Option (List α)
  | 0, _, _ => none
  | calls + 1, m, iter => do
    match ← prioTreeNext turns m iter with
    | (_, none) => return []
    | (iter, some node) => return node :: (← collect turns calls m iter)

theorem collect_of_reports {calls : ℕ} (H : WellFormed m t) (hturns : 3 * t.addrs.length ≤ turns)
    (hrep : Reports m q t todo (prioTreeNext turns m iter)) (hcalls : todo.length < calls) :
    collect turns calls m iter = some todo := by
  induction todo generalizing iter calls with
  | nil =>
    obtain ⟨calls, rfl⟩ := Nat.exists_eq_add_of_le' hcalls
    obtain ⟨iter', hrun⟩ := hrep
    simp [collect, hrun]
  | cons a todo ih =>
    obtain ⟨calls, rfl⟩ := Nat.exists_eq_add_of_le' (by omega : 1 ≤ calls)
    obtain ⟨iter', hrun, hcur⟩ := hrep
    have hrec := ih (prioTreeNext_spec turns H hcur hturns) (Nat.lt_of_succ_lt_succ hcalls)
    simp [collect, hrun, hrec]

/-- **A fresh iterator enumerates the overlapping nodes in pre-order.** -/
theorem collect_spec {turns calls : ℕ} (H : WellFormed m t)
    (iter : PrioTreeIter α w) (hturns : 3 * t.addrs.length ≤ turns)
    (hcalls : t.addrs.length < calls) :
    collect turns calls m (prioTreeIterInit iter q.radix q.heap) = some (hits m.ix q t) := by
  refine collect_of_reports (q := q) turns H hturns ?_ (lt_of_le_of_lt ?_ hcalls)
  · exact prioTreeFirst_spec turns H ⟨rfl, rfl⟩ (by omega)
  · exact length_hits_le _ q t

end Gp2xKernel.PrioTree
