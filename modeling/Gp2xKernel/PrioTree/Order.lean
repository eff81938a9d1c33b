import Gp2xKernel.PrioTree.Links
import Mathlib.Data.Nat.Bitwise

/-!
# The order of a priority search tree

Two orders hold at once.  Every node goes above the nodes below it: its interval ends
later, or ends at the same place and starts earlier.  And the path to a node spells the
leading `b` bits of the start of its interval, then the bits of its size.

Two nodes on one path of length `b + w` therefore hold the same interval, and of two
nodes in different subtrees of a node within the first `b` levels the left one starts
first; these two facts bound the depth of the tree and settle the ties when a node is
removed.

## Main definitions

* `Index.Above`, `pathSide`, `Follows`: the two orders.
* `Good`: the invariant of a subtree at a position.
* `pop`: the tree after its root has been removed.

## Main results

* `good_plug_replace`: replacing a subtree keeps the invariant.
* `Good.pop`: so does the removal of the root.
-/

namespace Gp2xKernel.PrioTree

open Library List LinkedTree BitVec

variable {w : ℕ}

namespace Index

/-- `v` goes above `u` in the tree. -/
def Above (v u : Index w) : Prop :=
  u.heap < v.heap ∨ (u.heap = v.heap ∧ v.radix < u.radix)

instance (v u : Index w) : Decidable (Above v u) := by
  unfold Above
  infer_instance

variable {u v i : Index w} {b : ℕ}

theorem Above.trans {x : Index w} (h1 : x.Above v) (h2 : v.Above u) : x.Above u := by
  simp only [Above, lt_def, ← toNat_inj] at *
  omega

theorem Above.ne (h : v.Above u) : u ≠ v := by
  rintro rfl
  simp only [Above, lt_def] at h
  omega

theorem Above.heap_le (h : v.Above u) : u.heap ≤ v.heap := by
  simp only [Above, lt_def, le_def, ← toNat_inj] at *
  omega

theorem above_or_above (h : u ≠ v) (hn : ¬ u.Above v) : v.Above u := by
  have hne : ¬ (u.radix.toNat = v.radix.toNat ∧ u.heap.toNat = v.heap.toNat) := by
    rintro ⟨hr, hh⟩
    exact h (Index.ext (eq_of_toNat_eq hr) (eq_of_toNat_eq hh))
  simp only [Above, lt_def, ← toNat_inj] at *
  omega

/-- The interval is not empty and ends below `2 ^ b`. -/
def Fits (b : ℕ) (i : Index w) : Prop := i.radix ≤ i.heap ∧ i.heap.toNat < 2 ^ b

theorem Fits.radix_lt (h : i.Fits b) : i.radix.toNat < 2 ^ b :=
  lt_of_le_of_lt (le_def.mp h.1) h.2

theorem Fits.mono {c : ℕ} (h : i.Fits b) (hbc : b ≤ c) : i.Fits c :=
  ⟨h.1, lt_of_lt_of_le h.2 (Nat.pow_le_pow_right (by omega) hbc)⟩

/-- The bits of the start above the width `b` are clear. -/
theorem Fits.testBit_radix {j : ℕ} (h : i.Fits b) (hj : b ≤ j) : i.radix.getLsbD j = false := by
  exact Nat.testBit_eq_false_of_lt (lt_of_lt_of_le h.radix_lt (Nat.pow_le_pow_right (by omega) hj))

end Index

/-! ## Paths -/

/-- The side an interval takes at the given depth of a tree of width `b`. -/
def pathSide (b : ℕ) (i : Index w) (depth : ℕ) : Side :=
  let bit := if depth < b then i.radix.getLsbD (b - 1 - depth)
    else (i.heap - i.radix).getLsbD (w - 1 - (depth - b))
  if bit then .right else .left

/-- The interval takes the path to a position; the sides are listed from the position
upwards, as the frames of a context are. -/
def Follows (b : ℕ) : List Side → Index w → Prop
  | [], _ => True
  | d :: ds, i => pathSide b i ds.length = d ∧ Follows b ds i

variable {b n : ℕ} {ds : List Side} {i j : Index w}

theorem Follows.pathSide_eq (hi : Follows b ds i) (hj : Follows b ds j)
    (hn : n < ds.length) : pathSide b i n = pathSide b j n := by
  induction ds with
  | nil => simp at hn
  | cons d ds ih =>
    rcases Nat.lt_succ_iff_lt_or_eq.mp hn with hn | rfl
    · exact ih hi.2 hj.2 hn
    · exact hi.1.trans hj.1.symm

theorem radix_getLsbD_eq (h : pathSide b i n = pathSide b j n)
    (hn : n < b) : i.radix.getLsbD (b - 1 - n) = j.radix.getLsbD (b - 1 - n) := by
  simp only [pathSide, hn] at h
  cases hi : i.radix.getLsbD (b - 1 - n) <;> cases hj : j.radix.getLsbD (b - 1 - n) <;>
    simp [hi, hj] at h ⊢

theorem size_getLsbD_eq (h : pathSide b i n = pathSide b j n)
    (hn : b ≤ n) : (i.heap - i.radix).getLsbD (w - 1 - (n - b)) =
      (j.heap - j.radix).getLsbD (w - 1 - (n - b)) := by
  simp only [pathSide, not_lt.mpr hn] at h
  cases hi : (i.heap - i.radix).getLsbD (w - 1 - (n - b)) <;>
    cases hj : (j.heap - j.radix).getLsbD (w - 1 - (n - b)) <;> simp [hi, hj] at h ⊢

/-- Intervals on one path agree on the bits of the start spelled by the path. -/
theorem Follows.radix_eq {t : ℕ} (hi : Follows b ds i) (hj : Follows b ds j) (hfi : i.Fits b)
    (hfj : j.Fits b) (ht : b ≤ ds.length + t) :
    i.radix.getLsbD t = j.radix.getLsbD t := by
  by_cases htb : t < b
  · have h := radix_getLsbD_eq (hi.pathSide_eq hj (n := b - 1 - t) (by omega)) (by omega)
    rwa [show b - 1 - (b - 1 - t) = t by omega] at h
  · rw [hfi.testBit_radix (not_lt.mp htb), hfj.testBit_radix (not_lt.mp htb)]

/-- **Depth.**  A path of length `b + w` determines the interval. -/
theorem Follows.eq (hi : Follows b ds i) (hj : Follows b ds j) (hfi : i.Fits b) (hfj : j.Fits b)
    (hlen : b + w ≤ ds.length) :
    i = j := by
  have hradix : i.radix = j.radix :=
    eq_of_getLsbD_eq fun t ht => hi.radix_eq hj hfi hfj (by omega)
  have hsize : i.heap - i.radix = j.heap - j.radix := by
    refine eq_of_getLsbD_eq fun t ht => ?_
    have h := size_getLsbD_eq (hi.pathSide_eq hj (n := b + (w - 1 - t)) (by omega)) (by omega)
    rwa [show w - 1 - (b + (w - 1 - t) - b) = t by omega] at h
  refine Index.ext hradix ?_
  rw [← BitVec.sub_add_cancel i.heap i.radix, hsize, hradix, BitVec.sub_add_cancel]

/-- **Ties.**  Within the first `b` levels the left subtree of a node starts before the
right one. -/
theorem Follows.radix_lt (hi : Follows b (.left :: ds) i) (hj : Follows b (.right :: ds) j)
    (hfi : i.Fits b) (hfj : j.Fits b) (hlen : ds.length < b) : i.radix < j.radix := by
  have hbit : i.radix.getLsbD (b - 1 - ds.length) = false ∧
      j.radix.getLsbD (b - 1 - ds.length) = true := by
    have h1 := hi.1
    have h2 := hj.1
    simp only [pathSide, hlen] at h1 h2
    constructor
    · by_contra h
      simp [Bool.eq_true_of_not_eq_false h] at h1
    · by_contra h
      simp [Bool.eq_false_of_not_eq_true h] at h2
  refine Nat.lt_of_testBit (b - 1 - ds.length) ?_ ?_ fun t ht => ?_
  · exact hbit.1
  · exact hbit.2
  · exact hi.2.radix_eq hj.2 hfi hfj (by omega)

/-- From level `b` on, the intervals on one path have the same start. -/
theorem Follows.radix_eq_of_le (hi : Follows b ds i) (hj : Follows b ds j) (hfi : i.Fits b)
    (hfj : j.Fits b) (hlen : b ≤ ds.length) :
    i.radix = j.radix :=
  eq_of_getLsbD_eq fun t _ => hi.radix_eq hj hfi hfj (by omega)

/-! ## The invariant of a subtree -/

section Good

variable {α δ : Type*} (ix : δ → Index w) (b : ℕ)

/-- The subtree at a position: every node follows the path to it and goes above the nodes
below it. -/
def Good : List Side → LinkedTree α δ → Prop
  | _, .nil => True
  | ds, .node l _ v r =>
    Follows b ds (ix v) ∧ (∀ p ∈ l.items, (ix v).Above (ix p.2)) ∧
      (∀ p ∈ r.items, (ix v).Above (ix p.2)) ∧ Good (.left :: ds) l ∧ Good (.right :: ds) r

/-- All intervals of the tree fit into the width `b`. -/
def AllFit (t : LinkedTree α δ) : Prop := ∀ p ∈ t.items, (ix p.2).Fits b

/-- The path to a position. -/
def sides (k : List (Frame α δ)) : List Side := k.map Frame.side

@[simp] theorem length_sides (k : List (Frame α δ)) : (sides k).length = k.length :=
  length_map _

variable {ix b} {ds : List Side} {d : Side} {k : List (Frame α δ)}
  {s s' x y l r : LinkedTree α δ} {a : α} {v : δ}

theorem good_join :
    Good ix b ds (.join d x a v y) ↔
      Follows b ds (ix v) ∧ (∀ p ∈ x.items, (ix v).Above (ix p.2)) ∧
        (∀ p ∈ y.items, (ix v).Above (ix p.2)) ∧ Good ix b (d :: ds) x ∧
        Good ix b (d.flip :: ds) y := by
  cases d with
  | left => exact Iff.rfl
  | right =>
    constructor
    · rintro ⟨h1, h2, h3, h4, h5⟩
      exact ⟨h1, h3, h2, h5, h4⟩
    · rintro ⟨h1, h2, h3, h4, h5⟩
      exact ⟨h1, h3, h2, h5, h4⟩

section

variable (h : Good ix b [] (plug k s))
include h

/-- The invariant passes to the subtree at a position. -/
theorem Good.sub : Good ix b (sides k) s := by
  induction k generalizing s with
  | nil => exact h
  | cons f k ih => exact (good_join.mp (ih h)).2.2.2.1

/-- Every node above a position goes above every node below it. -/
theorem Good.above : ∀ p ∈ s.items, ∀ f ∈ k, (ix f.data).Above (ix p.2) := by
  induction k generalizing s with
  | nil => simp
  | cons f k ih =>
    intro p hp g hg
    rcases mem_cons.mp hg with rfl | hg
    · exact (good_join.mp (Good.sub h)).2.1 p hp
    · exact ih h p (by simp [hp]) g hg

/-- **Replacing a subtree** keeps the invariant if the new subtree has it and stays below
the nodes above the position. -/
theorem good_plug_replace (hs : Good ix b (sides k) s')
    (habove : ∀ p ∈ s'.items, ∀ f ∈ k, (ix f.data).Above (ix p.2)) :
    Good ix b [] (plug k s') := by
  induction k generalizing s s' with
  | nil => exact hs
  | cons f k ih =>
    obtain ⟨hf, -, hsib, -, hgood⟩ := good_join.mp (Good.sub h)
    refine ih h (good_join.mpr ⟨hf, fun p hp => habove p hp f (by simp), hsib, hs, hgood⟩) ?_
    intro p hp g hg
    rcases (mem_items_join ..).mp hp with rfl | hp | hp
    · exact Good.above (k := k) h _ (by simp) g hg
    · exact habove p hp g (by simp [hg])
    · exact Good.above (k := k) h p (by simp [hp]) g hg

end

/-- All nodes of a subtree follow the path to it. -/
theorem Good.follows (h : Good ix b ds s) : ∀ p ∈ s.items, Follows b ds (ix p.2) := by
  induction s generalizing ds with
  | nil => simp
  | node l a v r ihl ihr =>
    obtain ⟨hv, -, -, hl, hr⟩ := h
    intro p hp
    simp only [items_node, mem_append, mem_cons] at hp
    rcases hp with hp | rfl | hp
    · exact (ihl hl p hp).2
    · exact hv
    · exact (ihr hr p hp).2

/-- No interval is stored twice. -/
theorem Good.nodup (h : Good ix b ds s) : (s.items.map fun p => ix p.2).Nodup := by
  induction s generalizing ds with
  | nil => simp
  | node l a v r ihl ihr =>
    obtain ⟨-, hvl, hvr, hl, hr⟩ := h
    simp only [items_node, map_append, map_cons, nodup_append, nodup_cons, mem_map, mem_cons]
    refine ⟨ihl hl, ⟨?_, ihr hr⟩, ?_⟩
    · rintro ⟨p, hp, hpv⟩
      exact (hvr p hp).ne hpv
    · rintro i ⟨p, hp, rfl⟩ j (rfl | ⟨q, hq, rfl⟩)
      · exact (hvl p hp).ne
      · -- the two subtrees take different sides
        intro heq
        have h1 := (hl.follows p hp).1
        have h2 := (hr.follows q hq).1
        rw [heq] at h1
        exact absurd (h1.symm.trans h2) (by decide)

end Good

/-! ## Removing the root -/

section Pop

variable {α δ : Type*} (ix : δ → Index w) {b : ℕ} {ds : List Side}

/-- The tree after its root has been removed: the child that ends later takes its place,
and its own place is filled in the same way. -/
def pop : LinkedTree α δ → LinkedTree α δ
  | .nil => .nil
  | .node .nil _ _ .nil => .nil
  | .node .nil _ _ (.node rl c u rr) => .node .nil c u (pop (.node rl c u rr))
  | .node (.node ll c u lr) _ _ .nil => .node (pop (.node ll c u lr)) c u .nil
  | .node (.node ll c u lr) _ _ (.node rl e x rr) =>
    if (ix u).heap ≥ (ix x).heap then .node (pop (.node ll c u lr)) c u (.node rl e x rr)
    else .node (.node ll c u lr) e x (pop (.node rl e x rr))

/-- The ways a root leaves: it is the only node, or the child on one side moves up. -/
theorem pop_node (l r : LinkedTree α δ) (a : α) (v : δ) :
    (l = .nil ∧ r = .nil ∧ pop ix (.node l a v r) = .nil) ∨
      ∃ d A c u B S, LinkedTree.node l a v r = .join d (.node A c u B) a v S ∧
        pop ix (.node l a v r) = .join d (pop ix (.node A c u B)) c u S ∧
        ∀ C e x D, S = .node C e x D →
          (ix x).heap < (ix u).heap ∨ d = .left ∧ (ix x).heap = (ix u).heap := by
  cases l with
  | nil =>
    cases r with
    | nil => exact .inl ⟨rfl, rfl, rfl⟩
    | node rl c u rr =>
      exact .inr ⟨.right, rl, c, u, rr, .nil, rfl, by simp [pop, join], by simp⟩
  | node ll c u lr =>
    cases r with
    | nil => exact .inr ⟨.left, ll, c, u, lr, .nil, rfl, by simp [pop, join], by simp⟩
    | node rl e x rr =>
      by_cases hle : (ix u).heap ≥ (ix x).heap
      · refine .inr ⟨.left, ll, c, u, lr, .node rl e x rr, rfl, ?_, ?_⟩
        · simp [pop, hle, join]
        · rintro C e' x' D ⟨⟩
          simp only [le_def, lt_def, ← toNat_inj, true_and] at hle ⊢
          omega
      · refine .inr ⟨.right, rl, e, x, rr, .node ll c u lr, rfl, ?_, ?_⟩
        · simp [pop, hle, join]
        · rintro C e' x' D ⟨⟩
          exact .inl (BitVec.not_le.mp hle)

/-- Induction along the nodes that move up when the root leaves. -/
theorem pop_induction {motive : LinkedTree α δ → Prop} (nil : motive .nil)
    (single : ∀ a v, motive (.node .nil a v .nil))
    (move : ∀ d A c u B S a v,
      pop ix (.join d (.node A c u B) a v S) = .join d (pop ix (.node A c u B)) c u S →
      (∀ C e x D, S = .node C e x D →
        (ix x).heap < (ix u).heap ∨ d = .left ∧ (ix x).heap = (ix u).heap) →
      motive (.node A c u B) → motive (.join d (.node A c u B) a v S))
    (t : LinkedTree α δ) : motive t := by
  induction t using join_induction with
  | nil => exact nil
  | node l a v r ih =>
    rcases pop_node ix l r a v with ⟨rfl, rfl, -⟩ | ⟨d, A, c, u, B, S, hnode, hpop, hS⟩
    · exact single a v
    · have hrec := ih _ _ _ hnode
      rw [hnode] at hpop ⊢
      exact move d A c u B S a v hpop hS hrec

variable {t : LinkedTree α δ}

/-- The removal of the root takes out exactly the root. -/
theorem pop_items {a : α} {v : δ} {l r : LinkedTree α δ}
    (ht : t = .node l a v r) : t.items.Perm ((a, v) :: (pop ix t).items) := by
  induction t using pop_induction ix generalizing a v l r with
  | nil => exact absurd ht (by simp)
  | single a' v' =>
    obtain ⟨-, rfl, rfl, -⟩ := node.inj ht
    rfl
  | move d A c u B S a' v' hpop _ ih =>
    obtain ⟨rfl, rfl⟩ : a' = a ∧ v' = v := by
      cases d <;> exact ⟨(node.inj ht).2.1, (node.inj ht).2.2.1⟩
    rw [hpop]
    refine (items_join_perm ..).trans (.cons _ ?_)
    exact ((ih rfl).append_right _).trans (items_join_perm ..).symm

theorem pop_subset {p : α × δ} (hp : p ∈ (pop ix t).items) : p ∈ t.items := by
  cases t with
  | nil => exact hp
  | node l a v r => exact (pop_items ix rfl).mem_iff.mpr (mem_cons_of_mem _ hp)

variable {ix}

/-- **Removing the root keeps the invariant.**  The child that moves up goes above the
other child: it ends later, or it is the left one of two that end together. -/
theorem Good.pop (h : Good ix b ds t) (hfit : AllFit ix b t) : Good ix b ds (pop ix t) := by
  induction t using pop_induction ix generalizing ds with
  | nil | single => trivial
  | move d A c u B S a v hpop hS ih =>
    obtain ⟨-, -, -, hA, hgoodS⟩ := good_join.mp h
    have hfitA : AllFit ix b (.node A c u B) := fun p hp =>
      hfit p ((mem_items_join ..).mpr (.inr (.inl hp)))
    have hfitS : AllFit ix b S := fun p hp =>
      hfit p ((mem_items_join ..).mpr (.inr (.inr hp)))
    have hpos : ∀ p ∈ A.items ++ B.items, (ix u).Above (ix p.2) := fun p hp =>
      (mem_append.mp hp).elim (hA.2.1 p) (hA.2.2.1 p)
    rw [hpop]
    refine good_join.mpr ⟨hA.1.2, fun p hp => ?_, ?_, ih hA hfitA, hgoodS⟩
    · -- what is left of the child's subtree was below the child
      have hperm := pop_items ix (rfl : node A c u B = _)
      have hcons : ((c, u) :: (A.items ++ B.items)).Perm
          ((c, u) :: (PrioTree.pop ix (.node A c u B)).items) :=
        (items_join_perm .left A B c u).symm.trans hperm
      exact hpos p (hcons.cons_inv.mem_iff.mpr hp)
    · cases S with
      | nil => simp
      | node C e x D =>
        have hx : (ix u).Above (ix x) := by
          rcases hS C e x D rfl with hlt | ⟨rfl, heq⟩
          · exact .inl hlt
          · refine .inr ⟨heq, ?_⟩
            have hfu := hfitA (c, u) (by simp)
            have hfx := hfitS (e, x) (by simp)
            by_cases hlen : ds.length < b
            · exact hA.1.radix_lt hgoodS.1 hfu hfx hlen
            · -- below the start bits the two intervals would be the same
              have hr := hA.1.2.radix_eq_of_le hgoodS.1.2 hfu hfx (not_lt.mp hlen)
              have hux : ix u = ix x := Index.ext hr heq.symm
              exact absurd ((hux ▸ hA.1.1).symm.trans hgoodS.1.1) (by decide)
        intro p hp
        simp only [items_node, mem_append, mem_cons] at hp
        rcases hp with hp | rfl | hp
        · exact hx.trans (hgoodS.2.1 p hp)
        · exact hx
        · exact hx.trans (hgoodS.2.2.1 p hp)

end Pop

end Gp2xKernel.PrioTree
